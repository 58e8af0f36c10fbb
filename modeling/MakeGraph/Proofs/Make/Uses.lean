import MakeGraph.Proofs.Make.Names

/-!
# `Proofs.Make.Uses` — the variables and macros that a text uses

`usedNames` reads a text as make does and collects every name that it refers to: `$x`, `$(NAME)`, and
the macro of a `$(call NAME,…)`, wherever it stands, so also among the arguments of a call. Only the
two functions that a Makefile needs are known as such; anything else in brackets counts as a name.

That a text uses no other names than some known ones is proved along its grammar: `UsesOnly P` are the
texts that are woven of plain characters, doubled dollars, and references to names in `P`. Quoting for
the shell keeps this (`UsesOnly.quoteChars`), and so does everything that writes a piece, a command or
a rule.

## Contents

* `usedNames` — the reader
* `UsesOnly`, `UsesOnly.mem_usedNames` — texts woven of known names
* `Piece.UsesOnly`, `Command.UsesOnly`, `Rule.UsesOnly` — the same for the parts of a Makefile
-/

namespace MakeGraph.Make

/-! ## The reader -/

/-- What a reader of uses is in the middle of. -/
inductive Use where
  /-- Text. -/
  | text
  /-- A use, behind its dollar. -/
  | dollar
  /-- A name in brackets, of which `read` is read. -/
  | name (closing : Char) (read : List Char)
  /-- The name of the macro in a call, of which `read` is read. -/
  | called (read : List Char)
deriving DecidableEq, Repr

/-- A blank between the name of a function and its arguments. -/
def isGap (c : Char) : Bool :=
  c == ' ' || c == '\t'

/-- The names that a text uses, begun in the middle of something. -/
def usedFrom : Use → List Char → List String
  | .text, [] | .dollar, [] => []
  | .name _ read, [] | .called read, [] => [String.ofList read]
  | .text, c :: cs => if c = '$' then usedFrom .dollar cs else usedFrom .text cs
  | .dollar, c :: cs =>
      if c = '$' then usedFrom .text cs
      else if c = '(' then usedFrom (.name ')' []) cs
      else if c = '\x7b' then usedFrom (.name '\x7d' []) cs
      else String.singleton c :: usedFrom .text cs
  | .name closing read, c :: cs =>
      if c = closing then String.ofList read :: usedFrom .text cs
      else if isGap c ∧ String.ofList read = "call" then usedFrom (.called []) cs
      else if isGap c ∧ String.ofList read = "patsubst" then usedFrom .text cs
      else usedFrom (.name closing (read ++ [c])) cs
  | .called read, c :: cs =>
      if c = ',' ∨ c = ')' ∨ c = '\x7d' then String.ofList read :: usedFrom .text cs
      else usedFrom (.called (read ++ [c])) cs

/-- **The names that a text uses**, in their order. -/
def usedNames (text : String) : List String :=
  usedFrom .text text.toList

example : usedNames "$(CC) $(CFLAGS) -c $< -o $@ # $$HOME" = ["CC", "CFLAGS", "<", "@"] := by
  decide +kernel
example : usedNames "$(call RULE_AR,a$,b.o $(srcdir)/c.o,lib.a)" = ["RULE_AR", ",", "srcdir"] := by
  decide +kernel

/-! ## Texts of known names -/

/-- A name whose use ends where it should, also when it is quoted. -/
def isPlainName (name : String) : Bool :=
  name.toList.all fun c => !(['$', '(', ')', '\x7b', '\x7d', ' ', '\t', '\''].contains c)

/-- **Texts that use only names in `P`**: characters, dollars written twice, and uses. -/
inductive UsesOnly (P : String → Prop) : List Char → Prop
  | nil : UsesOnly P []
  | char {c : Char} {cs : List Char} (hc : c ≠ '$') (h : UsesOnly P cs) : UsesOnly P (c :: cs)
  | dollars {cs : List Char} (h : UsesOnly P cs) : UsesOnly P ('$' :: '$' :: cs)
  | use {name : String} {cs : List Char} (hplain : isPlainName name = true) (hname : P name)
      (h : UsesOnly P cs) : UsesOnly P ((reference name).toList ++ cs)
  | function {cs : List Char} (h : UsesOnly P cs) : UsesOnly P ("$(patsubst ".toList ++ cs)
  | call {name : String} {cs : List Char} (hplain : isPlainName name = true)
      (hcomma : ',' ∉ name.toList) (hname : P name) (h : UsesOnly P cs) :
      UsesOnly P ("$(call ".toList ++ (name.toList ++ ',' :: cs))

theorem ne_of_isPlainName {name : String} (h : isPlainName name = true) {c : Char}
    (hc : c ∈ name.toList) :
    c ≠ '$' ∧ c ≠ '(' ∧ c ≠ ')' ∧ c ≠ '\x7b' ∧ c ≠ '\x7d' ∧ isGap c = false ∧ c ≠ '\'' := by
  have hall := List.all_eq_true.mp h c hc
  simp only [List.contains_eq_mem, List.mem_cons, List.not_mem_nil, or_false, Bool.not_eq_true',
    decide_eq_false_iff_not, not_or] at hall
  obtain ⟨hdollar, hopen, hclose, hbrace, hbrace', hblank, htab, hquote⟩ := hall
  have hgap : isGap c = false := by simp [isGap, hblank, htab]
  exact ⟨hdollar, hopen, hclose, hbrace, hbrace', hgap, hquote⟩

/-- A reference is one character behind a dollar, or stands in parentheses. -/
theorem toList_reference (name : String) :
    (∃ c, name.toList = [c] ∧ (reference name).toList = ['$', c]) ∨
      (reference name).toList = '$' :: '(' :: (name.toList ++ [')']) := by
  unfold reference
  by_cases hone : name.length = 1
  · obtain ⟨c, hc⟩ := List.length_eq_one_iff.mp (String.length_toList.trans hone)
    refine .inl ⟨c, hc, ?_⟩
    rw [if_pos hone, String.toList_append, hc]
    rfl
  · refine .inr ?_
    rw [if_neg hone, String.toList_append, String.toList_append]
    rfl

theorem usedFrom_name (cs : List Char) (h : ∀ c ∈ cs, c ≠ ')' ∧ isGap c = false)
    (read rest : List Char) :
    usedFrom (.name ')' read) (cs ++ ')' :: rest) =
      String.ofList (read ++ cs) :: usedFrom .text rest := by
  induction cs generalizing read with
  | nil => simp [usedFrom]
  | cons c cs ih =>
      obtain ⟨hclose, hgap⟩ := h c List.mem_cons_self
      have htail := ih (fun d hd => h d (List.mem_cons_of_mem c hd)) (read ++ [c])
      rw [List.cons_append, usedFrom, if_neg hclose, if_neg (by simp [hgap]),
        if_neg (by simp [hgap]), htail, List.append_assoc]
      rfl

theorem usedFrom_called (cs : List Char) (h : ∀ c ∈ cs, c ≠ ',' ∧ c ≠ ')' ∧ c ≠ '\x7d')
    (read rest : List Char) :
    usedFrom (.called read) (cs ++ ',' :: rest) =
      String.ofList (read ++ cs) :: usedFrom .text rest := by
  induction cs generalizing read with
  | nil => simp [usedFrom]
  | cons c cs ih =>
      obtain ⟨hcomma, hclose, hbrace⟩ := h c List.mem_cons_self
      have htail := ih (fun d hd => h d (List.mem_cons_of_mem c hd)) (read ++ [c])
      rw [List.cons_append, usedFrom, if_neg (by simp [hcomma, hclose, hbrace]), htail,
        List.append_assoc]
      rfl

/-- A use in a text adds its name to those of what follows. -/
theorem usedFrom_reference {name : String} (h : isPlainName name = true) (cs : List Char) :
    usedFrom .text ((reference name).toList ++ cs) = name :: usedFrom .text cs := by
  have hchars := fun c (hc : c ∈ name.toList) => ne_of_isPlainName h hc
  rcases toList_reference name with ⟨c, hname, hreference⟩ | hreference
  · obtain ⟨hdollar, hopen, -, hbrace, -⟩ := hchars c (by rw [hname]; exact List.mem_cons_self)
    have hc : String.singleton c = name := by
      rw [← String.toList_inj, hname]
      simp
    rw [hreference]
    show usedFrom .dollar (c :: cs) = _
    rw [usedFrom, if_neg hdollar, if_neg hopen, if_neg hbrace, hc]
  · have hread := usedFrom_name name.toList
      (fun c hc => ⟨(hchars c hc).2.2.1, (hchars c hc).2.2.2.2.2.1⟩) [] cs
    rw [hreference]
    show usedFrom (.name ')' []) (name.toList ++ [')'] ++ cs) = _
    rw [List.append_assoc, List.singleton_append, hread, List.nil_append, String.ofList_toList]

theorem expandFrom_name (value : String → List Char) {cs : List Char} (h : ')' ∉ cs)
    (read rest : List Char) :
    expandFrom value (.name read) (cs ++ ')' :: rest) =
      value (String.ofList (read ++ cs)) ++ expand value rest := by
  induction cs generalizing read with
  | nil =>
      rw [List.append_nil, List.nil_append, expandFrom, if_pos rfl]
      rfl
  | cons c cs ih =>
      obtain ⟨hclose, hcs⟩ := not_or.mp (mt List.mem_cons.mpr h)
      rw [List.cons_append, expandFrom, if_neg (Ne.symm hclose), ih hcs, List.append_assoc]
      rfl

/-- **A reference** is expanded to what its variable holds. -/
theorem expand_reference (value : String → List Char) {name : String} (h : isPlainName name = true)
    (cs : List Char) :
    expand value ((reference name).toList ++ cs) = value name ++ expand value cs := by
  have hchars := fun c (hc : c ∈ name.toList) => ne_of_isPlainName h hc
  rcases toList_reference name with ⟨c, hname, hreference⟩ | hreference
  · obtain ⟨hdollar, hopen, -⟩ := hchars c (by rw [hname]; exact List.mem_cons_self)
    have hc : String.singleton c = name := by
      rw [← String.toList_inj, hname]
      simp
    rw [hreference]
    show expandFrom value .dollar (c :: cs) = _
    rw [expandFrom, if_neg hdollar, if_neg hopen, hc]
    rfl
  · have hclose : ')' ∉ name.toList := fun hmem => (hchars ')' hmem).2.2.1 rfl
    have hread := expandFrom_name value hclose [] cs
    rw [hreference]
    show expandFrom value (.name []) (name.toList ++ [')'] ++ cs) = _
    rw [List.append_assoc, List.singleton_append, hread, List.nil_append, String.ofList_toList]

namespace UsesOnly

variable {P Q : String → Prop} {cs ds : List Char}

/-- **What is used is known.** -/
theorem mem_usedFrom (h : UsesOnly P cs) : ∀ name ∈ usedFrom .text cs, P name := by
  induction h with
  | nil => exact fun name hmem => absurd hmem List.not_mem_nil
  | @char c cs hc h ih => rwa [usedFrom, if_neg hc]
  | @dollars cs h ih =>
      show ∀ name ∈ usedFrom .dollar ('$' :: cs), P name
      rwa [usedFrom, if_pos rfl]
  | @use name cs hplain hname h ih =>
      rw [usedFrom_reference hplain]
      exact List.forall_mem_cons.mpr ⟨hname, ih⟩
  | @function cs h ih =>
      intro name hmem
      exact ih name hmem
  | @call name cs hplain hcomma hname h ih =>
      have hread := usedFrom_called name.toList (fun c hc =>
        ⟨fun heq => hcomma (heq ▸ hc), (ne_of_isPlainName hplain hc).2.2.1,
          (ne_of_isPlainName hplain hc).2.2.2.2.1⟩) [] cs
      have hcall : usedFrom .text ("$(call ".toList ++ (name.toList ++ ',' :: cs)) =
          usedFrom (.called []) (name.toList ++ ',' :: cs) := rfl
      rw [hcall, hread, List.nil_append, String.ofList_toList]
      exact List.forall_mem_cons.mpr ⟨hname, ih⟩

theorem mem_usedNames {text : String} (h : UsesOnly P text.toList) :
    ∀ name ∈ usedNames text, P name :=
  h.mem_usedFrom

theorem mono (h : UsesOnly P cs) (hPQ : ∀ name, P name → Q name) : UsesOnly Q cs := by
  induction h with
  | nil => exact .nil
  | char hc h ih => exact .char hc ih
  | dollars h ih => exact .dollars ih
  | use hplain hname h ih => exact .use hplain (hPQ _ hname) ih
  | function h ih => exact .function ih
  | call hplain hcomma hname h ih => exact .call hplain hcomma (hPQ _ hname) ih

theorem append (h : UsesOnly P cs) (h' : UsesOnly P ds) : UsesOnly P (cs ++ ds) := by
  induction h with
  | nil => exact h'
  | char hc h ih => exact .char hc ih
  | dollars h ih => exact .dollars ih
  | use hplain hname h ih =>
      rw [List.append_assoc]
      exact .use hplain hname ih
  | function h ih =>
      rw [List.append_assoc]
      exact .function ih
  | call hplain hcomma hname h ih =>
      rw [List.append_assoc, List.append_assoc, List.cons_append]
      exact .call hplain hcomma hname ih

/-- A text without dollars uses nothing. -/
theorem of_not_mem (h : '$' ∉ cs) : UsesOnly P cs := by
  induction cs with
  | nil => exact .nil
  | cons c cs ih =>
      rw [List.mem_cons, not_or] at h
      exact .char (Ne.symm h.1) (ih h.2)

theorem flatMap {α : Type} {items : List α} {f : α → List Char}
    (h : ∀ item ∈ items, UsesOnly P (f item)) : UsesOnly P (items.flatMap f) := by
  induction items with
  | nil => exact .nil
  | cons item items ih =>
      obtain ⟨hitem, hitems⟩ := List.forall_mem_cons.mp h
      rw [List.flatMap_cons]
      exact hitem.append (ih hitems)

/-- Texts with a delimiter between each two. -/
theorem intercalate {delimiter : List Char} {words : List (List Char)} (hd : UsesOnly P delimiter)
    (h : ∀ word ∈ words, UsesOnly P word) : UsesOnly P (List.intercalate delimiter words) := by
  induction words with
  | nil => exact .nil
  | cons word words ih =>
      obtain ⟨hword, hwords⟩ := List.forall_mem_cons.mp h
      cases words with
      | nil => rwa [List.intercalate_singleton]
      | cons next words =>
          rw [List.intercalate_cons_cons]
          exact (hword.append hd).append (ih hwords)

/-- **Dollars written twice** use nothing. -/
theorem doubleDollars (cs : List Char) : UsesOnly P (Make.doubleDollars cs) := by
  refine flatMap fun c _ => ?_
  split
  · exact .dollars .nil
  · next hc => exact .char hc .nil

/-- A single use. -/
theorem reference {name : String} (hplain : isPlainName name = true) (hname : P name) :
    UsesOnly P (Make.reference name).toList := by
  have h : UsesOnly P ((Make.reference name).toList ++ []) := .use hplain hname .nil
  rwa [List.append_nil] at h

/-! ### Quoting -/

/-- A dollar opens the quotes, so that a use is written without a break. -/
theorem quoteFrom_dollar (inside : Bool) (cs : List Char) (h : '\'' ∉ cs) (ds : List Char) :
    Shell.quoteFrom inside ('$' :: cs ++ ds) =
      (if inside then [] else ['\'']) ++ ('$' :: cs ++ Shell.quoteFrom true ds) := by
  have hcopied : ¬ Shell.isCopied '$' = true := by decide
  rw [List.cons_append, Shell.quoteFrom, if_neg hcopied, if_neg (by decide),
    Shell.quoteFrom_true_append h]
  cases inside <;> rfl

/-- **Quoting breaks no use.** The marks stand between characters that begin no use. -/
theorem quoteFrom (h : UsesOnly P cs) (inside : Bool) : UsesOnly P (Shell.quoteFrom inside cs) := by
  -- the quote that a dollar opens
  have hopen : ∀ inside : Bool, UsesOnly P (if inside then [] else ['\'']) := fun inside =>
    of_not_mem (by cases inside <;> decide)
  induction h generalizing inside with
  | nil => cases inside with
    | false => exact .nil
    | true => exact .char (by decide) .nil
  | @char c cs hc h ih =>
      rw [Shell.quoteFrom]
      split
      · exact .char hc (ih inside)
      · split
        · refine append (of_not_mem ?_) (ih false)
          cases inside <;> decide
        · refine append (of_not_mem ?_) (ih true)
          cases inside <;> simp [Ne.symm hc]
  | @dollars cs h ih =>
      have hquoted := quoteFrom_dollar inside ['$'] (by decide) cs
      rw [show '$' :: '$' :: cs = '$' :: ['$'] ++ cs from rfl, hquoted]
      exact (hopen inside).append (.dollars (ih true))
  | @use name cs hplain hname h ih =>
      obtain ⟨tail, htail⟩ : ∃ tail, (Make.reference name).toList = '$' :: tail := by
        rcases toList_reference name with ⟨c, -, hreference⟩ | hreference
        · exact ⟨_, hreference⟩
        · exact ⟨_, hreference⟩
      have hquote : '\'' ∉ tail := by
        intro hmem
        have hname : '\'' ∈ name.toList := by
          rcases toList_reference name with ⟨c, hc, hreference⟩ | hreference
          · rw [hreference, List.cons.injEq] at htail
            rw [hc, htail.2]
            exact hmem
          · rw [hreference, List.cons.injEq] at htail
            rw [← htail.2] at hmem
            simpa using hmem
        exact (ne_of_isPlainName hplain hname).2.2.2.2.2.2 rfl
      rw [htail, quoteFrom_dollar inside _ hquote, ← htail]
      exact (hopen inside).append (.use hplain hname (ih true))
  | @function cs h ih =>
      have hquoted := quoteFrom_dollar inside "(patsubst ".toList (by decide) cs
      rw [show "$(patsubst ".toList ++ cs = '$' :: "(patsubst ".toList ++ cs from rfl, hquoted]
      exact (hopen inside).append (.function (ih true))
  | @call name cs hplain hcomma hname h ih =>
      have hquote : '\'' ∉ "(call ".toList ++ (name.toList ++ [',']) := by
        intro hmem
        have hin : '\'' ∈ name.toList := by simpa using hmem
        exact (ne_of_isPlainName hplain hin).2.2.2.2.2.2 rfl
      have hcut : "$(call ".toList ++ (name.toList ++ ',' :: cs) =
          '$' :: ("(call ".toList ++ (name.toList ++ [','])) ++ cs := by
        simp
      have hjoin : '$' :: ("(call ".toList ++ (name.toList ++ [','])) ++ Shell.quoteFrom true cs =
          "$(call ".toList ++ (name.toList ++ ',' :: Shell.quoteFrom true cs) := by
        simp
      rw [hcut, quoteFrom_dollar inside _ hquote, hjoin]
      exact (hopen inside).append (.call hplain hcomma hname (ih true))

theorem quoteChars (h : UsesOnly P cs) : UsesOnly P (Shell.quoteChars cs) := by
  cases cs with
  | nil => exact of_not_mem (by decide)
  | cons c cs => exact h.quoteFrom false

end UsesOnly

/-! ## Escaped text -/

section Escape

variable {P : String → Prop}

/-- **Escaped text** uses nothing but the variable of the comma, and that only in an argument. -/
theorem usesOnly_escape (hcomma : P ",") (context : Context) (text : String) :
    UsesOnly P (escape context text).toList := by
  unfold escape
  rw [String.toList_ofList]
  cases context with
  | target =>
      show UsesOnly P (guardSpecials Context.specialInTargets (doubleDollars text.toList))
      rw [guardSpecials_doubleDollars (by decide)]
      exact .doubleDollars _
  | dependency =>
      show UsesOnly P (guardSpecials Context.specialInPrerequisites (doubleDollars text.toList))
      rw [guardSpecials_doubleDollars (by decide)]
      exact .doubleDollars _
  | shellWord => exact (UsesOnly.doubleDollars _).quoteChars
  | shellLine => exact .doubleDollars _
  | functionArgument =>
      have hcommas : UsesOnly P (referToCommas (doubleDollars text.toList)) := by
        generalize text.toList = cs
        induction cs with
        | nil => exact .nil
        | cons c cs ih =>
            by_cases hc : c = '$'
            · subst hc
              exact .dollars ih
            · rw [doubleDollars_cons hc]
              show UsesOnly P ((if c = ',' then ['$', ','] else [c]) ++ referToCommas _)
              refine UsesOnly.append ?_ ih
              split
              · have hname : isPlainName "," = true := by decide
                exact UsesOnly.reference hname hcomma
              · exact .char hc .nil
      exact hcommas.quoteChars

end Escape

/-! ## Pieces and commands -/

/-- Names among which are the variables that any path and any argument may need. -/
structure HasRoots (P : String → Prop) : Prop where
  comma : P ","
  root : ∀ (root : Root) (name : String), root.variableName? = some name → P name

/-- A piece that uses only names in `P`, wherever it is written. -/
def Piece.UsesOnly (P : String → Prop) (piece : Piece) : Prop :=
  ∀ context, Make.UsesOnly P (piece.render context).toList

/-- A command that uses only names in `P`. -/
def Command.UsesOnly (P : String → Prop) (command : Command) : Prop :=
  Make.UsesOnly P command.render.toList

section Pieces

variable {P Q : String → Prop}

theorem isPlainName_root {root : Root} {name : String} (h : root.variableName? = some name) :
    isPlainName name = true := by
  cases root <;> simp only [Root.variableName?, Root.name, Option.some.injEq, reduceCtorEq] at h <;>
    subst h <;> decide +kernel

namespace Piece

theorem usesOnly_plain (hcomma : P ",") (text : String) : (plain text).UsesOnly P := by
  intro context
  rw [render_plain]
  exact usesOnly_escape hcomma context text

theorem usesOnly_nil : ∀ piece ∈ ([] : List Piece), piece.UsesOnly P :=
  fun _ hpiece => absurd hpiece List.not_mem_nil

theorem usesOnly_plainTexts (hcomma : P ",") (texts : List String) :
    ∀ piece ∈ plainTexts texts, piece.UsesOnly P := by
  intro piece hpiece
  obtain ⟨text, -, rfl⟩ := List.mem_map.mp hpiece
  exact usesOnly_plain hcomma text

theorem usesOnly_verbatim {text : String} (h : Make.UsesOnly P text.toList) :
    (verbatim text).UsesOnly P := by
  intro context
  rwa [render_verbatim]

/-- A path uses the variable of its root. -/
theorem usesOnly_path (hroots : HasRoots P) (p : RootedPath) : (path p).UsesOnly P := by
  intro context
  have hescape := usesOnly_escape hroots.comma context p.path.text
  rw [render_path]
  unfold renderPath
  cases hroot : p.root.variableName? with
  | none =>
      simp only
      split
      · exact .of_not_mem (by decide)
      · exact hescape
  | some name =>
      have hname : Make.UsesOnly P (reference name).toList :=
        .reference (isPlainName_root hroot) (hroots.root p.root name hroot)
      simp only
      split
      · exact hname
      · rw [String.toList_append, String.toList_append]
        exact (hname.append (.of_not_mem (by decide))).append hescape

theorem usesOnly_paths (hroots : HasRoots P) (ps : List RootedPath) :
    ∀ piece ∈ ps.map path, piece.UsesOnly P := by
  intro piece hpiece
  obtain ⟨p, -, rfl⟩ := List.mem_map.mp hpiece
  exact usesOnly_path hroots p

theorem usesOnly_toPiece {v : Variable} (hplain : isPlainName v.name = true) (hname : P v.name) :
    v.toPiece.UsesOnly P :=
  usesOnly_verbatim (.reference hplain hname)

/-- A concatenation is written as its pieces are. -/
theorem render_join (context : Context) (pieces : List Piece) :
    (join pieces).render context = String.join (pieces.map (render context)) := by
  unfold join
  rw [render_sequence]
  induction pieces with
  | nil => rfl
  | cons piece pieces ih =>
      have hparts : String.join (piece.parts.map (render context)) = piece.render context := by
        cases piece with
        | sequence parts => exact (render_sequence context parts).symm
        | _ => simp [parts]
      rw [List.flatMap_cons, List.map_append, String.join_append, ih, hparts, List.map_cons,
        String.join_cons]

theorem usesOnly_join {pieces : List Piece} (h : ∀ piece ∈ pieces, piece.UsesOnly P) :
    (join pieces).UsesOnly P := by
  intro context
  rw [render_join, String.toList_join, List.flatMap_map]
  exact .flatMap fun piece hpiece => h piece hpiece context

/-- Pieces between delimiters. -/
theorem usesOnly_separated {context : Context} {delimiter opening closing : String}
    {pieces : List Piece} (hdelimiter : '$' ∉ delimiter.toList) (hopening : '$' ∉ opening.toList)
    (hclosing : '$' ∉ closing.toList) (h : ∀ piece ∈ pieces, piece.UsesOnly P) :
    Make.UsesOnly P (separated context delimiter opening closing pieces).toList := by
  cases pieces with
  | nil => exact .nil
  | cons piece pieces =>
      show Make.UsesOnly P (opening ++ String.intercalate delimiter
        ((piece :: pieces).map (render context)) ++ closing).toList
      rw [String.toList_append, String.toList_append, String.toList_intercalate]
      refine (Make.UsesOnly.append (.of_not_mem hopening) ?_).append (.of_not_mem hclosing)
      refine .intercalate (.of_not_mem hdelimiter) fun word hword => ?_
      simp only [List.map_map, List.mem_map] at hword
      obtain ⟨piece, hpiece, rfl⟩ := hword
      exact h piece hpiece context

end Piece

namespace Command

theorem UsesOnly.mono {command : Command} (h : command.UsesOnly P)
    (hPQ : ∀ name, P name → Q name) : command.UsesOnly Q :=
  Make.UsesOnly.mono h hPQ

theorem usesOnly_line {piece : Piece} (h : piece.UsesOnly P) : (line piece).UsesOnly P :=
  h .shellLine

theorem usesOnly_words {pieces : List Piece} (h : ∀ piece ∈ pieces, piece.UsesOnly P) :
    (words pieces).UsesOnly P :=
  Piece.usesOnly_separated (by decide) (by decide) (by decide) h

end Command

end Pieces

/-! ## Rules -/

/-- A recipe that uses only names in `P`. -/
def Recipe.UsesOnly (P : String → Prop) : Recipe → Prop
  | inline commands => ∀ command ∈ commands, command.UsesOnly P
  | shared reference => reference.UsesOnly P

/-- **A rule that uses only known names.** Make expands targets, prerequisites and variables of the
    rule when it reads them, so these use names in `now`; the recipe may use names in `later`. -/
structure Rule.UsesOnly (now later : String → Prop) (rule : Rule) : Prop where
  targets : ∀ piece ∈ rule.targets, piece.UsesOnly now
  deps : ∀ piece ∈ rule.deps, piece.UsesOnly now
  orderOnly : ∀ piece ∈ rule.orderOnly, piece.UsesOnly now
  overrides : ∀ entry ∈ rule.overrides, '$' ∉ entry.1.name.toList ∧ entry.2.UsesOnly now
  recipe : ∀ recipe, rule.recipe = some recipe → recipe.UsesOnly later

section Rules

variable {P now later : String → Prop}

theorem usesOnly_renderAssignment {target : Option Piece} {v : Variable} {value : Command}
    {assignment : Assignment} (htarget : ∀ piece, target = some piece → piece.UsesOnly P)
    (hv : '$' ∉ v.name.toList) (hvalue : value.UsesOnly P) :
    UsesOnly P (renderAssignment target v value assignment).toList := by
  have hoperator : '$' ∉ assignment.operator.toList := by cases assignment <;> decide
  unfold renderAssignment
  simp only [String.toList_append]
  refine (((UsesOnly.append ?_ (.of_not_mem hv)).append (.of_not_mem hoperator)).append
    hvalue).append (.of_not_mem (by decide))
  cases target with
  | none => exact .nil
  | some piece =>
      simp only [String.toList_append]
      exact (htarget piece rfl .target).append (.of_not_mem (by decide))

/-- The assignments of one scope. -/
theorem usesOnly_bindings {target : Option Piece} {bindings : Bindings}
    (htarget : ∀ piece, target = some piece → piece.UsesOnly P)
    (h : ∀ entry ∈ bindings, '$' ∉ entry.1.name.toList ∧ entry.2.1.UsesOnly P) :
    UsesOnly P (Bindings.render target bindings).toList := by
  unfold Bindings.render
  rw [String.toList_join, List.flatMap_map]
  refine .flatMap fun entry hentry => ?_
  obtain ⟨hv, hvalue⟩ := h entry hentry
  exact usesOnly_renderAssignment htarget hv hvalue

theorem usesOnly_renderDefine {v : Variable} {lines : List Command} (hv : '$' ∉ v.name.toList)
    (h : ∀ line ∈ lines, line.UsesOnly P) : UsesOnly P (renderDefine v lines).toList := by
  have hlines : UsesOnly P (String.join (lines.map (·.render ++ "\n"))).toList := by
    rw [String.toList_join, List.flatMap_map]
    refine .flatMap fun line hline => ?_
    rw [String.toList_append]
    exact UsesOnly.append (h line hline) (.of_not_mem (by decide))
  unfold renderDefine
  simp only [String.toList_append]
  exact ((((UsesOnly.of_not_mem (by decide)).append (.of_not_mem hv)).append
    (.of_not_mem (by decide))).append hlines).append (.of_not_mem (by decide))

theorem usesOnly_include {inc : Include} (h : inc.name.UsesOnly P) :
    UsesOnly P inc.render.toList := by
  unfold Include.render
  rw [String.toList_append, String.toList_append]
  refine (UsesOnly.append (.of_not_mem ?_) (h .target)).append (.of_not_mem (by decide))
  split <;> decide

theorem usesOnly_recipe {recipe : Recipe} (h : recipe.UsesOnly P) :
    UsesOnly P recipe.render.toList := by
  cases recipe with
  | inline commands =>
      unfold Recipe.render
      rw [String.toList_join, List.flatMap_map]
      refine .flatMap fun command hcommand => ?_
      rw [String.toList_append]
      exact .append (.of_not_mem (by decide)) (h command hcommand)
  | shared reference =>
      unfold Recipe.render
      rw [String.toList_append]
      exact .append (.of_not_mem (by decide)) (h .shellLine)

namespace Rule

/-- What make expands when it reads a rule. -/
def renderHead (rule : Rule) : String :=
  rule.renderVariables ++ rule.renderPhony ++ rule.renderHeader

theorem UsesOnly.head {rule : Rule} (h : rule.UsesOnly now later) :
    Make.UsesOnly now rule.renderHead.toList := by
  have hvariables : Make.UsesOnly now rule.renderVariables.toList := by
    unfold renderVariables
    rw [String.toList_join, List.flatMap_map]
    refine .flatMap fun target htarget => ?_
    rw [String.toList_join, List.flatMap_map]
    refine .flatMap fun entry hentry => ?_
    obtain ⟨hv, hvalue⟩ := h.overrides entry hentry
    refine usesOnly_renderAssignment (fun piece hpiece => ?_) hv hvalue
    exact Option.some.inj hpiece ▸ h.targets target htarget
  have hphony : Make.UsesOnly now rule.renderPhony.toList := by
    unfold renderPhony
    split
    · rw [String.toList_append, String.toList_append]
      have hmark : Make.UsesOnly now ".PHONY: ".toList := .of_not_mem (by decide)
      have htargets : Make.UsesOnly now (separated .dependency " " "" "" rule.targets).toList :=
        Piece.usesOnly_separated (by decide) (by decide) (by decide) h.targets
      exact (hmark.append htargets).append (.of_not_mem (by decide))
    · exact .nil
  have hheader : Make.UsesOnly now rule.renderHeader.toList := by
    have htargets : Make.UsesOnly now (separated .target " " "" "" rule.targets).toList :=
      Piece.usesOnly_separated (by decide) (by decide) (by decide) h.targets
    have hdeps : Make.UsesOnly now (separated .dependency " " " " "" rule.deps).toList :=
      Piece.usesOnly_separated (by decide) (by decide) (by decide) h.deps
    have horder : Make.UsesOnly now (separated .dependency " " " | " "" rule.orderOnly).toList :=
      Piece.usesOnly_separated (by decide) (by decide) (by decide) h.orderOnly
    unfold renderHeader
    simp only [String.toList_append]
    exact ((htargets.append (.of_not_mem (by decide))).append hdeps).append horder
  unfold renderHead
  simp only [String.toList_append]
  exact (hvariables.append hphony).append hheader

/-- The whole text of a rule. -/
theorem UsesOnly.whole {rule : Rule} (h : rule.UsesOnly now later)
    (hnow : ∀ name, now name → later name) : Make.UsesOnly later rule.render.toList := by
  have hrecipe : Make.UsesOnly later rule.renderRecipe.toList := by
    unfold renderRecipe
    split
    · next recipe hrecipe => exact usesOnly_recipe (h.recipe recipe hrecipe)
    · exact .nil
  have hrender : rule.render = rule.renderHead ++ rule.renderRecipe ++ "\n\n" := rfl
  rw [hrender, String.toList_append, String.toList_append]
  exact ((h.head.mono hnow).append hrecipe).append (.of_not_mem (by decide))

end Rule

end Rules

end MakeGraph.Make
