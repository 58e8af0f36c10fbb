import MakeGraph.Proofs.Make.Header

/-!
# `Proofs.Make.ArgumentText` — the text of the arguments of a call

A call ends at the parenthesis that closes it, and its arguments at the commas outside of parentheses.
Make looks for them before it expands anything and knows no quotes. So what matters of the text of an
argument are its commas and parentheses, and these are those of its words: quotes and doubled dollars
add none, and the comma of `$,` stands for a comma of a word (`filter_argText`).

## Contents

* `readCall?`, `callWords?` — the reader
* `IsEnclosed` — the words that an argument can hold
* `argText`, `argsText`, `toList_render` — the text of an argument and of all arguments
* `filter_argText` — its commas and parentheses
-/

namespace MakeGraph.Make

open Shell (quoteChars quoteFrom words?)

/-! ## The reader -/

/-- A character of the name of a function. -/
def isFunctionChar (c : Char) : Bool :=
  c.isAlphanum || c == '.' || c == '-' || c == '_'

/-- **A text as make reads a call** where variables hold `value`: the name of the function and its
    arguments, expanded. The text ends with the parenthesis that closes the call. Blanks around an argument
    are left to the shell, to which they are nothing. -/
def readCall? (value : String → List Char) (text : String) : Option (String × List (List Char)) := do
  let call ← Text.dropLead? "$(" text
  let name := call.toList.takeWhile isFunctionChar
  match call.toList.dropWhile isFunctionChar with
  | [] => none
  | blank :: rest =>
      if isSeparator blank = true ∧ name ≠ [] then
        match splitArgs 0 [] rest with
        | some (args, []) => some (String.ofList name, args.map (expand value))
        | _ => none
      else none

/-- **A call with the words of its arguments.** -/
def callWords? (value : String → List Char) (text : String) :
    Option (String × List (List String)) := do
  let (name, args) ← readCall? value text
  let words ← args.mapM fun arg => words? (String.ofList arg)
  return (name, words)

/-- A name that make takes for the name of a function. -/
def IsFunctionName (name : String) : Prop :=
  name ≠ "" ∧ name.toList.all isFunctionChar = true

/-- **Words that an argument can hold**: their parentheses match, and their commas are within them. -/
def IsEnclosed (words : List String) : Prop :=
  depthAfter? 0 (words.flatMap String.toList) = some 0

instance (name : String) : Decidable (IsFunctionName name) :=
  inferInstanceAs (Decidable (_ ∧ _))

instance (words : List String) : Decidable (IsEnclosed words) :=
  inferInstanceAs (Decidable (_ = _))

example : IsEnclosed ["f(a,b)", "(", "c)"] := by decide
example : ¬IsEnclosed ["a,b"] := by decide

/-! ## The text of an argument -/

/-- A text with its dollars doubled and its commas as references. -/
def inCall (cs : List Char) : List Char :=
  referToCommas (doubleDollars cs)

/-- The text of an argument that holds words. -/
def argText (words : List String) : List Char :=
  List.intercalate [' '] (words.map fun word => quoteChars (inCall word.toList))

theorem argText_cons (word : String) (words : List String) :
    argText (word :: words) = quoteChars (inCall word.toList) ++
      words.flatMap fun next => ' ' :: quoteChars (inCall next.toList) := by
  rw [argText, List.map_cons, intercalate_cons, List.flatMap_map]

theorem toList_renderArg (words : List String) :
    (Call.renderArg (Piece.plainTexts words)).toList = argText words := by
  have hword : ∀ word : String, ((Piece.plain word).render .functionArgument).toList =
      quoteChars (inCall word.toList) := by
    intro word
    rw [Piece.render_plain, escape, String.toList_ofList]
    rfl
  have hwords : ((Piece.plainTexts words).map (Piece.render .functionArgument)).map String.toList =
      words.map fun word => quoteChars (inCall word.toList) := by
    rw [Piece.plainTexts, List.map_map, List.map_map]
    exact List.map_congr_left fun word _ => hword word
  rw [Call.renderArg, String.toList_intercalate, hwords, argText]
  rfl

/-- The arguments of a call and the parenthesis behind them. -/
def argsText (args : List (List String)) : List Char :=
  List.intercalate [','] (args.map argText) ++ [')']

theorem argsText_singleton (words : List String) : argsText [words] = argText words ++ [')'] := by
  rw [argsText, List.map_singleton, List.intercalate_singleton]

theorem argsText_cons_cons (words next : List String) (args : List (List String)) :
    argsText (words :: next :: args) = argText words ++ ',' :: argsText (next :: args) := by
  rw [argsText, List.map_cons, List.map_cons, List.intercalate_cons_cons, List.append_assoc,
    List.append_assoc]
  rfl

/-- **The text of a call.** -/
theorem toList_render (name : String) (args : List (List String)) :
    (Call.render ⟨name, args.map Piece.plainTexts⟩).toList =
      "$(".toList ++ (name.toList ++ ' ' :: argsText args) := by
  simp only [Call.render, String.toList_append, String.toList_intercalate, List.map_map,
    Function.comp_def, toList_renderArg, argsText]
  simp

theorem inCall_append (cs ds : List Char) : inCall (cs ++ ds) = inCall cs ++ inCall ds := by
  rw [inCall, doubleDollars_append]
  exact List.flatMap_append

/-- One character of a text. -/
theorem inCall_singleton (c : Char) :
    inCall [c] = if c = '$' then ['$', '$'] else if c = ',' then ['$', ','] else [c] := by
  by_cases hdollar : c = '$'
  · rw [if_pos hdollar, hdollar]
    rfl
  · rw [if_neg hdollar, inCall, doubleDollars_cons hdollar]
    show (if c = ',' then ['$', ','] else [c]) ++ [] = _
    rw [List.append_nil]

theorem inCall_ne_nil {cs : List Char} (h : cs ≠ []) : inCall cs ≠ [] := by
  obtain ⟨c, cs, rfl⟩ := List.exists_cons_of_ne_nil h
  rw [← List.singleton_append, inCall_append, inCall_singleton]
  intro hnil
  have hfirst := (List.append_eq_nil_iff.mp hnil).1
  revert hfirst
  split
  · exact List.cons_ne_nil _ _
  · split <;> exact List.cons_ne_nil _ _

/-- **Expansion gives the text back.** -/
theorem expand_inCall_append {value : String → List Char} (hcomma : value "," = [','])
    (cs rest : List Char) : expand value (inCall cs ++ rest) = cs ++ expand value rest := by
  induction cs with
  | nil => rfl
  | cons c cs ih =>
      have hsplit : inCall (c :: cs) = inCall [c] ++ inCall cs := inCall_append [c] cs
      have hreference : expand value ('$' :: ',' :: (inCall cs ++ rest)) =
          value "," ++ expand value (inCall cs ++ rest) := rfl
      rw [hsplit, inCall_singleton, List.append_assoc, List.cons_append, ← ih]
      by_cases hdollar : c = '$'
      · rw [if_pos hdollar, hdollar]
        rfl
      · rw [if_neg hdollar]
        by_cases hc : c = ','
        · rw [if_pos hc, hc]
          show expand value ('$' :: ',' :: (inCall cs ++ rest)) = _
          rw [hreference, hcomma]
          rfl
        · rw [if_neg hc]
          exact expand_cons value hdollar _

/-! ### Its commas and parentheses -/

/-- A character that counts where make looks for arguments. -/
def isBracketing (c : Char) : Bool :=
  c == '(' || c == ')' || c == ','

theorem depthAfter?_filter (depth : Nat) (cs : List Char) :
    depthAfter? depth (cs.filter isBracketing) = depthAfter? depth cs := by
  induction cs generalizing depth with
  | nil => rfl
  | cons c cs ih =>
      by_cases hc : isBracketing c = true
      · rw [List.filter_cons_of_pos hc, depthAfter?, depthAfter?, ih, ih, ih]
      · have hnone : c ≠ '(' ∧ c ≠ ')' ∧ c ≠ ',' := by
          simpa [isBracketing, and_assoc] using hc
        obtain ⟨hopen, hclose, hcomma⟩ := hnone
        rw [List.filter_cons_of_neg hc, depthAfter?, if_neg hopen, if_neg hclose,
          if_neg fun h => hcomma h.1, ih]

theorem depthAfter?_congr {cs ds : List Char}
    (h : cs.filter isBracketing = ds.filter isBracketing) (depth : Nat) :
    depthAfter? depth cs = depthAfter? depth ds := by
  rw [← depthAfter?_filter depth cs, h, depthAfter?_filter]

theorem depthAfter?_append (depth : Nat) (cs ds : List Char) :
    depthAfter? depth (cs ++ ds) = (depthAfter? depth cs).bind fun depth => depthAfter? depth ds := by
  induction cs generalizing depth with
  | nil => rfl
  | cons c cs ih =>
      rw [List.cons_append, depthAfter?, depthAfter?]
      split
      · exact ih (depth + 1)
      · split
        · split
          · rfl
          · exact ih (depth - 1)
        · split
          · rfl
          · exact ih depth

theorem filter_inCall (cs : List Char) :
    (inCall cs).filter isBracketing = cs.filter isBracketing := by
  induction cs with
  | nil => rfl
  | cons c cs ih =>
      have hsplit : inCall (c :: cs) = inCall [c] ++ inCall cs := inCall_append [c] cs
      have hone : (inCall [c]).filter isBracketing = [c].filter isBracketing := by
        rw [inCall_singleton]
        by_cases hdollar : c = '$'
        · rw [if_pos hdollar, hdollar]
          rfl
        · by_cases hcomma : c = ','
          · rw [if_neg hdollar, if_pos hcomma, hcomma]
            rfl
          · rw [if_neg hdollar, if_neg hcomma]
      rw [hsplit, List.filter_append, hone, ih, ← List.filter_append]
      rfl

theorem filter_quoteFrom (inside : Bool) (cs : List Char) :
    (quoteFrom inside cs).filter isBracketing = cs.filter isBracketing := by
  induction cs generalizing inside with
  | nil => cases inside <;> rfl
  | cons c cs ih =>
      rw [quoteFrom]
      split
      · rw [List.filter_cons, List.filter_cons, ih]
      · split
        · next hquote =>
            rw [List.filter_append, ih, hquote]
            cases inside <;> rfl
        · have hcons : (c :: cs).filter isBracketing =
              [c].filter isBracketing ++ cs.filter isBracketing := by
            rw [← List.filter_append]
            rfl
          rw [List.filter_append, ih, hcons]
          cases inside <;> rfl

theorem filter_quoteChars (cs : List Char) :
    (quoteChars cs).filter isBracketing = cs.filter isBracketing := by
  cases cs with
  | nil => rfl
  | cons c cs => exact filter_quoteFrom false (c :: cs)

theorem filter_word (word : String) :
    (quoteChars (inCall word.toList)).filter isBracketing = word.toList.filter isBracketing := by
  rw [filter_quoteChars, filter_inCall]

/-- **The commas and parentheses of an argument** are those of its words. -/
theorem filter_argText (words : List String) :
    (argText words).filter isBracketing = (words.flatMap String.toList).filter isBracketing := by
  have hblank : ∀ next : String, (' ' :: quoteChars (inCall next.toList)).filter isBracketing =
      next.toList.filter isBracketing := by
    intro next
    rw [List.filter_cons_of_neg (by decide), filter_word]
  cases words with
  | nil => rfl
  | cons word words =>
      rw [argText_cons, List.flatMap_cons, List.filter_append, List.filter_append, filter_word,
        List.filter_flatMap, List.filter_flatMap]
      simp only [hblank]

end MakeGraph.Make
