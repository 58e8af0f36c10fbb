import MakeGraph.Make.Layout
import MakeGraph.Proofs.Shell.Reading
import MakeGraph.Proofs.Text.Affix
import MakeGraph.Proofs.Text.Split

/-!
# `Proofs.Make.Expansion` — how make expands references and calls

`expand` replaces the references in a text by what variables hold, and `expandCall` a call of a macro
by the macro's definition, with the arguments of the call for `$1`, `$2` and so on. The arguments end
at the commas outside of parentheses and are expanded before they are filled in, so what is in them is
not read a second time.

Doubling the dollars of a text is undone by its expansion, whatever variables hold
(`expand_doubleDollars`), and a call gives its macro the arguments that were written
(`expandCall_of_definition`).

## Contents

* `expand`, `splitArgs`, `expandCall` — the readers
* `expand_doubleDollars_append` — text without references
* `toList_separated_cons` — pieces with blanks between them
* `depthAfter?`, `splitArgs_intercalate` — arguments between commas
* `escapeChars_functionArgument` — the text of an argument without commas
-/

namespace MakeGraph.Make

/-! ## The readers -/

/-- What a reader of references is in the middle of. -/
inductive Reading where
  /-- Text. -/
  | text
  /-- A reference, behind its dollar. -/
  | dollar
  /-- The name of a reference in parentheses, of which `read` is read. -/
  | name (read : List Char)
deriving DecidableEq, Repr

/-- The expansion of a text, begun in the middle of something. -/
def expandFrom (value : String → List Char) : Reading → List Char → List Char
  | .text, [] => []
  | .dollar, [] => ['$']
  | .name _, [] => []
  | .text, c :: cs =>
      if c = '$' then expandFrom value .dollar cs else c :: expandFrom value .text cs
  | .dollar, c :: cs =>
      if c = '$' then '$' :: expandFrom value .text cs
      else if c = '(' then expandFrom value (.name []) cs
      else value (String.singleton c) ++ expandFrom value .text cs
  | .name read, c :: cs =>
      if c = ')' then value (String.ofList read) ++ expandFrom value .text cs
      else expandFrom value (.name (read ++ [c])) cs

/-- **The expansion of a text**: `$$` is a dollar, and `$x` and `$(NAME)` are what the variables
    hold. -/
def expand (value : String → List Char) (text : List Char) : List Char :=
  expandFrom value .text text

/-- The arguments of a call up to its closing parenthesis, and what is behind it. `depth` parentheses
    were opened inside of the call and `arg` was read of its first argument. -/
def splitArgs : Nat → List Char → List Char → Option (List (List Char) × List Char)
  | _, _, [] => none
  | depth, arg, c :: cs =>
      if c = '(' then splitArgs (depth + 1) (arg ++ [c]) cs
      else if c = ')' then
        if depth = 0 then some ([arg], cs) else splitArgs (depth - 1) (arg ++ [c]) cs
      else if c = ',' ∧ depth = 0 then
        (splitArgs 0 [] cs).map fun found => (arg :: found.1, found.2)
      else splitArgs depth (arg ++ [c]) cs

/-- What variables hold inside of a macro: `$1` to `$9` are its arguments. -/
def withArgs (args : List (List Char)) (value : String → List Char) (name : String) : List Char :=
  match name.toList with
  | [c] => if '1' ≤ c ∧ c ≤ '9' then args.getD (c.toNat - '1'.toNat) [] else value name
  | _ => value name

/-- The text of a definition. -/
def definition? (m : Makefile) (name : String) : Option (List Char) :=
  (m.defines.find? ⟨name⟩).map fun lines =>
    List.intercalate ['\n'] (lines.map fun line => line.render.toList)

/-- **The expansion of a line that begins with the call of a macro**: the definition of the macro in
    which its arguments are filled in. -/
def expandCall (m : Makefile) (value : String → List Char) (line : String) : Option String := do
  let call ← Text.dropLead? "$(call " line
  let (args, behind) ← splitArgs 0 [] call.toList
  let body ← definition? m (String.ofList (args.headD []))
  return String.ofList <|
    expand (withArgs (args.tail.map (expand value)) value) body ++ expand value behind

/-! ## Dollars -/

theorem doubleDollars_nil : doubleDollars [] = [] :=
  rfl

theorem doubleDollars_append (cs ds : List Char) :
    doubleDollars (cs ++ ds) = doubleDollars cs ++ doubleDollars ds :=
  List.flatMap_append

theorem doubleDollars_cons {c : Char} (hc : c ≠ '$') (cs : List Char) :
    doubleDollars (c :: cs) = c :: doubleDollars cs := by
  show (if c = '$' then ['$', '$'] else [c]) ++ doubleDollars cs = _
  rw [if_neg hc]
  rfl

theorem doubleDollars_of_not_mem {cs : List Char} (h : '$' ∉ cs) : doubleDollars cs = cs := by
  induction cs with
  | nil => rfl
  | cons c cs ih =>
      rw [List.mem_cons, not_or] at h
      obtain ⟨hc, hcs⟩ := h
      rw [doubleDollars_cons (Ne.symm hc), ih hcs]

theorem doubleDollars_backslashes (n : Nat) :
    doubleDollars (List.replicate n '\\') = List.replicate n '\\' := by
  apply doubleDollars_of_not_mem
  intro hmem
  exact absurd (List.eq_of_mem_replicate hmem) (by decide)

theorem mem_doubleDollars {c : Char} {cs : List Char} : c ∈ doubleDollars cs ↔ c ∈ cs := by
  have hone : ∀ d : Char, c ∈ (if d = '$' then ['$', '$'] else [d]) ↔ c = d := by
    intro d
    by_cases hd : d = '$'
    · rw [if_pos hd, hd]
      simp
    · rw [if_neg hd, List.mem_singleton]
  unfold doubleDollars
  rw [List.mem_flatMap]
  simp only [hone]
  exact ⟨fun ⟨d, hd, hcd⟩ => hcd ▸ hd, fun h => ⟨c, h, rfl⟩⟩

theorem doubleDollars_intercalate (words : List (List Char)) :
    doubleDollars (List.intercalate [' '] words) =
      List.intercalate [' '] (words.map doubleDollars) := by
  induction words with
  | nil => rfl
  | cons word words ih =>
      cases words with
      | nil => rw [List.map_singleton, List.intercalate_singleton, List.intercalate_singleton]
      | cons next words =>
          rw [List.map_cons, List.map_cons, List.intercalate_cons_cons, List.intercalate_cons_cons,
            doubleDollars_append, doubleDollars_append, ih]
          rfl

section Expand

variable (value : String → List Char)

theorem expand_nil : expand value [] = [] :=
  rfl

theorem expand_cons {c : Char} (hc : c ≠ '$') (cs : List Char) :
    expand value (c :: cs) = c :: expand value cs :=
  if_neg hc

/-- **Expansion undoes the doubling** of dollars, whatever follows. -/
theorem expand_doubleDollars_append (cs rest : List Char) :
    expand value (doubleDollars cs ++ rest) = cs ++ expand value rest := by
  induction cs with
  | nil => rfl
  | cons c cs ih =>
      show expand value ((if c = '$' then ['$', '$'] else [c]) ++ doubleDollars cs ++ rest) = _
      rw [List.append_assoc]
      by_cases hc : c = '$'
      · rw [if_pos hc, hc]
        exact congrArg (List.cons '$') ih
      · rw [if_neg hc, List.singleton_append, expand_cons value hc, ih]
        rfl

theorem expand_doubleDollars (cs : List Char) : expand value (doubleDollars cs) = cs := by
  have h := expand_doubleDollars_append value cs []
  rwa [List.append_nil, expand_nil, List.append_nil] at h

end Expand

/-! ## Lists of pieces -/

/-- Words with a blank before each of them. -/
theorem cons_intercalate {words : List (List Char)} (h : words ≠ []) :
    ' ' :: List.intercalate [' '] words = words.flatMap fun word => ' ' :: word := by
  induction words with
  | nil => exact absurd rfl h
  | cons word words ih =>
      cases words with
      | nil => rw [List.intercalate_singleton, List.flatMap_singleton]
      | cons next words =>
          rw [List.intercalate_cons_cons, List.flatMap_cons, ← ih (List.cons_ne_nil next words),
            List.append_assoc]
          rfl

/-- Words with a blank between each two, the first one by itself. -/
theorem intercalate_cons (word : List Char) (words : List (List Char)) :
    List.intercalate [' '] (word :: words) = word ++ words.flatMap fun next => ' ' :: next := by
  have h := cons_intercalate (List.cons_ne_nil word words)
  rw [List.flatMap_cons, List.cons_append] at h
  exact (List.cons.inj h).2

/-- Pieces in a list, the first one by itself. -/
theorem toList_separated_cons (context : Context) (opening : String) (piece : Piece)
    (pieces : List Piece) :
    (separated context " " opening "" (piece :: pieces)).toList =
      opening.toList ++ ((piece.render context).toList ++
        pieces.flatMap fun next => ' ' :: (next.render context).toList) := by
  have hseparated : separated context " " opening "" (piece :: pieces) =
      opening ++ String.intercalate " " ((piece :: pieces).map (Piece.render context)) ++ "" := rfl
  rw [hseparated, String.append_empty, String.toList_append, String.toList_intercalate,
    List.map_map, List.map_cons]
  show opening.toList ++ List.intercalate [' '] _ = _
  rw [intercalate_cons, List.flatMap_map]
  rfl

/-! ## Arguments -/

/-- How many parentheses are open behind a text that ends neither an argument nor a call, if `depth` are
    open before it. -/
def depthAfter? : Nat → List Char → Option Nat
  | depth, [] => some depth
  | depth, c :: cs =>
      if c = '(' then depthAfter? (depth + 1) cs
      else if c = ')' then
        if depth = 0 then none else depthAfter? (depth - 1) cs
      else if c = ',' ∧ depth = 0 then none
      else depthAfter? depth cs

/-- **A text in an argument** is passed over, and its parentheses are counted. -/
theorem splitArgs_append {depth depth' : Nat} {cs : List Char}
    (h : depthAfter? depth cs = some depth') (arg rest : List Char) :
    splitArgs depth arg (cs ++ rest) = splitArgs depth' (arg ++ cs) rest := by
  induction cs generalizing depth arg with
  | nil =>
      obtain rfl := Option.some.inj h
      rw [List.nil_append, List.append_nil]
  | cons c cs ih =>
      have hread : arg ++ [c] ++ cs = arg ++ c :: cs := List.append_assoc arg [c] cs
      rw [depthAfter?] at h
      rw [List.cons_append, splitArgs, ← hread]
      by_cases hopen : c = '('
      · rw [if_pos hopen] at h ⊢
        exact ih h (arg ++ [c])
      · rw [if_neg hopen] at h ⊢
        by_cases hclose : c = ')'
        · rw [if_pos hclose] at h ⊢
          by_cases hzero : depth = 0
          · rw [if_pos hzero] at h
            cases h
          · rw [if_neg hzero] at h ⊢
            exact ih h (arg ++ [c])
        · rw [if_neg hclose] at h ⊢
          by_cases hcomma : c = ',' ∧ depth = 0
          · rw [if_pos hcomma] at h
            cases h
          · rw [if_neg hcomma] at h ⊢
            exact ih h (arg ++ [c])

/-- **Arguments between commas** are found one by one. -/
theorem splitArgs_intercalate {args : List (List Char)} (hne : args ≠ [])
    (h : ∀ arg ∈ args, depthAfter? 0 arg = some 0) (rest : List Char) :
    splitArgs 0 [] (List.intercalate [','] args ++ ')' :: rest) = some (args, rest) := by
  induction args with
  | nil => exact absurd rfl hne
  | cons arg args ih =>
      have harg := h arg List.mem_cons_self
      cases args with
      | nil =>
          rw [List.intercalate_singleton, splitArgs_append harg]
          rfl
      | cons next args =>
          have htail := ih (List.cons_ne_nil next args) fun a ha => h a (List.mem_cons_of_mem arg ha)
          rw [List.intercalate_cons_cons, List.append_assoc, List.append_assoc,
            splitArgs_append harg]
          show (splitArgs 0 [] (_ ++ ')' :: rest)).map _ = _
          rw [htail]
          rfl

/-- A text that neither ends an argument nor opens parentheses. -/
def IsArgument (cs : List Char) : Prop :=
  ∀ c ∈ cs, c ≠ '(' ∧ c ≠ ')' ∧ c ≠ ','

theorem IsArgument.depthAfter?_eq {cs : List Char} (h : IsArgument cs) (depth : Nat) :
    depthAfter? depth cs = some depth := by
  induction cs with
  | nil => rfl
  | cons c cs ih =>
      obtain ⟨hopen, hclose, hcomma⟩ := h c List.mem_cons_self
      rw [depthAfter?, if_neg hopen, if_neg hclose, if_neg fun h => hcomma h.1]
      exact ih fun d hd => h d (List.mem_cons_of_mem c hd)

/-- **The expansion of a call** that is all of its line: the definition, in which the expanded arguments
    are filled in. -/
theorem expandCall_of_definition {m : Makefile} {name body : List Char} {args : List (List Char)}
    (value : String → List Char) (hname : IsArgument name) (hargs : ∀ arg ∈ args, IsArgument arg)
    (hbody : definition? m (String.ofList name) = some body) :
    expandCall m value
        ("$(call " ++ String.ofList (List.intercalate [','] (name :: args) ++ [')'])) =
      some (String.ofList (expand (withArgs (args.map (expand value)) value) body)) := by
  have hcall : Text.dropLead? "$(call "
        ("$(call " ++ String.ofList (List.intercalate [','] (name :: args) ++ [')'])) =
      some (String.ofList (List.intercalate [','] (name :: args) ++ [')'])) :=
    Text.dropLead?_eq_some_iff.mpr rfl
  have hall : ∀ arg ∈ name :: args, depthAfter? 0 arg = some 0 :=
    List.forall_mem_cons.mpr ⟨hname.depthAfter?_eq 0, fun arg harg => (hargs arg harg).depthAfter?_eq 0⟩
  have hsplit := splitArgs_intercalate (List.cons_ne_nil name args) hall []
  unfold expandCall
  simp only [hcall, String.toList_ofList, hsplit, List.headD_cons, List.tail_cons, hbody,
    Option.bind_eq_bind, Option.bind_some, expand_nil, List.append_nil, Option.pure_def]

/-- Dollars are quoted as they are, so it does not matter whether they are doubled first. -/
theorem quoteFrom_doubleDollars (inside : Bool) (cs : List Char) :
    Shell.quoteFrom inside (doubleDollars cs) = doubleDollars (Shell.quoteFrom inside cs) := by
  induction cs generalizing inside with
  | nil => cases inside <;> rfl
  | cons c cs ih =>
      by_cases hc : c = '$'
      · -- the first of the two dollars opens the quotes if they are not open, the second finds them open
        subst hc
        have hdollar : ∀ inside ds, Shell.quoteFrom inside ('$' :: ds) =
            (if inside then ['$'] else ['\'', '$']) ++ Shell.quoteFrom true ds := by
          intro inside ds
          rw [Shell.quoteFrom, if_neg (by decide), if_neg (by decide)]
        show Shell.quoteFrom inside ('$' :: '$' :: doubleDollars cs) = _
        rw [hdollar, hdollar, hdollar, ih, doubleDollars_append]
        cases inside <;> rfl
      · rw [doubleDollars_cons hc, Shell.quoteFrom, Shell.quoteFrom]
        split
        · rw [ih, doubleDollars_cons hc]
        · split
          · rw [ih, doubleDollars_append]
            cases inside <;> rfl
          · rw [ih, doubleDollars_append]
            cases inside with
            | true => rw [if_pos rfl, doubleDollars_cons hc, doubleDollars_nil]
            | false =>
                rw [if_neg (by decide), doubleDollars_cons (by decide), doubleDollars_cons hc,
                  doubleDollars_nil]

theorem quoteChars_doubleDollars (cs : List Char) :
    Shell.quoteChars (doubleDollars cs) = doubleDollars (Shell.quoteChars cs) := by
  cases cs with
  | nil => rfl
  | cons c cs =>
      have hdouble : doubleDollars (c :: cs) ≠ [] := fun hnil => by
        have hc : c ∈ doubleDollars (c :: cs) := mem_doubleDollars.mpr List.mem_cons_self
        rw [hnil] at hc
        exact absurd hc List.not_mem_nil
      rw [Shell.quoteChars_of_ne_nil hdouble, Shell.quoteChars_of_ne_nil (List.cons_ne_nil c cs),
        quoteFrom_doubleDollars]

/-- **The text of a word for the shell**: the word, quoted, with every dollar twice. -/
theorem toList_escape_shellWord (text : String) :
    (escape .shellWord text).toList = doubleDollars (Shell.quoteChars text.toList) := by
  rw [escape, String.toList_ofList]
  exact quoteChars_doubleDollars text.toList

theorem referToCommas_of_not_mem {cs : List Char} (h : ',' ∉ cs) : referToCommas cs = cs := by
  induction cs with
  | nil => rfl
  | cons c cs ih =>
      rw [List.mem_cons, not_or] at h
      obtain ⟨hc, hcs⟩ := h
      show (if c = ',' then ['$', ','] else [c]) ++ referToCommas cs = c :: cs
      rw [if_neg (Ne.symm hc), ih hcs]
      rfl

/-- **The text of an argument without commas**: its word for the shell, with every dollar twice. -/
theorem escapeChars_functionArgument {cs : List Char} (h : ',' ∉ cs) :
    escapeChars .functionArgument cs = doubleDollars (Shell.quoteChars cs) := by
  show Shell.quoteChars (referToCommas (doubleDollars cs)) = _
  rw [referToCommas_of_not_mem fun hmem => h (mem_doubleDollars.mp hmem), quoteChars_doubleDollars]

end MakeGraph.Make
