import MakeGraph.Proofs.Make.QuotedValues

/-!
# `Proofs.Make.AssignedWords` — words that a variable holds

A variable may be assigned a list of words, such as flags. Each is quoted for the shell, as in a recipe.
But the line of the assignment is read by make first, which knows no quotes: a `#` begins a comment, also
between quotes, if it is not behind an odd run of backslashes.

What is left of a word with a `#` is short of characters. Either the comment begins inside of its quotes,
and nothing closes them, or every `#` of it stood behind a backslash, which is gone. So the words are
read back exactly where there is no `#` in them (`assignedWords?_iff`).

## Contents

* `valueText`, `assignedWords?` — the reader
* `quotedWords`, `toList_render_plainTexts` — the text of words
* `words?_lineValue_quotedWords` — what is read of them
* `assignedWords?_iff` — the main result
-/

namespace MakeGraph.Make

open Shell (quoteChars words?)

/-! ## The reader -/

/-- The text of the value in the line of an assignment, with what is behind it: all that follows the first
    `=`. -/
def valueText (line : List Char) : List Char :=
  (line.dropWhile (· ≠ '=')).tail

/-- **The words that a variable holds** by the line that assigns it, where others hold `value`. -/
def assignedWords? (value : String → List Char) (line : String) : Option (List String) :=
  (readAssigned? value (valueText line.toList)).bind fun held => words? (String.ofList held)

example : assignedWords? (fun _ => []) "%: CFLAGS := -O2 -DX='$$a b' # c\n" =
    some ["-O2", "-DX=$a b"] := by decide +kernel

/-! ## Quoted words -/

/-- Words, each of them quoted, with a blank between each two. -/
def quotedWords (words : List String) : List Char :=
  List.intercalate [' '] (words.map fun word => quoteChars word.toList)

/-- Each word is one part. -/
theorem quotedWords_eq (words : List String) :
    quotedWords words = wordsText (words.map fun word => [word.toList]) := by
  have hwords : (fun word : String => [word.toList].flatMap quoteChars) =
      fun word => quoteChars word.toList := by
    funext word
    exact List.flatMap_singleton _ _
  rw [quotedWords, wordsText, List.map_map, ← hwords]
  rfl

/-- Quoting and joining bring in nothing but blanks, quotes and backslashes. -/
theorem not_mem_quotedWords {c : Char} (hblank : c ≠ ' ') (hquote : c ≠ '\'') (hback : c ≠ '\\')
    {words : List String} (h : ∀ word ∈ words, c ∉ word.toList) : c ∉ quotedWords words := by
  intro hmem
  rcases Text.mem_intercalate hmem with heq | ⟨text, htext, hc⟩
  · exact hblank (List.mem_singleton.mp heq)
  · obtain ⟨word, hword, rfl⟩ := List.mem_map.mp htext
    exact Shell.not_mem_quoteChars hquote hback (h word hword) hc

/-- **The words of a command** are written quoted, with every dollar twice. -/
theorem toList_render_plainTexts (words : List String) :
    (Command.words (Piece.plainTexts words)).render.toList = doubleDollars (quotedWords words) := by
  have hwords : ((Piece.plainTexts words).map fun piece => (piece.render .shellWord).toList) =
      (words.map fun word => quoteChars word.toList).map doubleDollars := by
    rw [Piece.plainTexts, List.map_map, List.map_map]
    refine List.map_congr_left fun word _ => ?_
    exact toList_escape_shellWord word
  rw [toList_render_commandWords, quotedWords, doubleDollars_intercalate, hwords]

/-! ## What make leaves of them -/

section Lines

variable {words : List String}

theorem parts_ne_nil (words : List String) :
    ∀ parts ∈ words.map fun word => [word.toList], parts ≠ [] := by
  intro parts hparts
  obtain ⟨word, -, rfl⟩ := List.mem_map.mp hparts
  exact List.cons_ne_nil _ _

theorem lineValue_of_not_mem {text : List Char} (h : '\n' ∉ text) (n : Nat) :
    lineValue n text = dropComment n text := by
  rw [lineValue, takeWhile_of_newline_not_mem h]

/-- A word of which make leaves everything has no `#`. -/
theorem hash_not_mem_of_keptWord_eq {word : String} (h : keptWord [word.toList] = word) :
    '#' ∉ word.toList := by
  intro hhash
  have hshort := length_dropComment_lt hhash 0
  have hlength := congrArg (fun text : String => text.toList.length) h
  simp only [keptWord, List.flatMap_singleton, String.toList_ofList] at hlength
  omega

/-- **What is read of quoted words** behind the sign of an assignment: the words themselves exactly where
    there is no `#` in any of them. -/
theorem words?_lineValue_quotedWords (hlines : ∀ word ∈ words, '\n' ∉ word.toList) :
    words? (String.ofList (lineValue 0 (quotedWords words))) = some words ↔
      ∀ word ∈ words, '#' ∉ word.toList := by
  constructor
  · intro hread
    rw [quotedWords_eq] at hread
    by_cases hcut : ∃ parts ∈ words.map fun word => [word.toList], cutsWord parts = true
    · -- an open quote is no list of words
      rw [words?_of_opens (opens_lineValue (parts_ne_nil words) hcut)] at hread
      cases hread
    · have hkept : ∀ parts ∈ words.map fun word => [word.toList], cutsWord parts = false :=
        fun parts hparts => Bool.eq_false_iff.mpr fun h => hcut ⟨parts, hparts, h⟩
      rw [Shell.words?_of_splits (splits_lineValue (parts_ne_nil words) hkept), List.map_map,
        Option.some.injEq] at hread
      have hsame := List.map_inj_left.mp (hread.trans (List.map_id words).symm)
      exact fun word hword => hash_not_mem_of_keptWord_eq (hsame word hword)
  · intro hhash
    have hnewline : '\n' ∉ quotedWords words :=
      not_mem_quotedWords (by decide) (by decide) (by decide) hlines
    have hnone : '#' ∉ quotedWords words :=
      not_mem_quotedWords (by decide) (by decide) (by decide) hhash
    rw [lineValue_of_not_mem hnewline, dropComment_of_not_mem hnone]
    exact Shell.words?_of_splits (Shell.splits_quotedWords words)

end Lines

/-! ## The line of an assignment -/

/-- A name has no sign of an assignment. -/
theorem equals_not_mem_named (name : String) : '=' ∉ (Variable.named name).name.toList := by
  intro hmem
  rw [Variable.named, String.toList_map] at hmem
  obtain ⟨c, -, hc⟩ := List.mem_map.mp hmem
  by_cases hends : endsName c = true
  · rw [if_pos hends] at hc
    exact absurd hc (by decide)
  · rw [if_neg hends] at hc
    exact hends (hc ▸ by decide)

theorem valueText_append {cs : List Char} (h : '=' ∉ cs) (rest : List Char) :
    valueText (cs ++ '=' :: rest) = rest := by
  have hdrop : (cs ++ '=' :: rest).dropWhile (· ≠ '=') = '=' :: rest := by
    have hall : ∀ c ∈ cs, decide (c ≠ '=') = true := by
      intro c hc
      refine decide_eq_true fun heq => ?_
      exact h (heq ▸ hc)
    rw [List.dropWhile_append_of_pos hall]
    exact List.dropWhile_cons_of_neg (by decide)
  rw [valueText, hdrop, List.tail_cons]

/-- The value of an assignment stands behind a blank, whatever variable is assigned in which scope. -/
theorem valueText_renderAssignment {target : Option Piece}
    (htarget : ∀ piece ∈ target, '=' ∉ (piece.render .target).toList) (name : String)
    (command : Command) (assignment : Assignment) :
    valueText (renderAssignment target (.named name) command assignment).toList =
      ' ' :: (command.render.toList ++ ['\n']) := by
  have hname := equals_not_mem_named name
  obtain ⟨scope, hscope, hline⟩ : ∃ scope : String, '=' ∉ scope.toList ∧
      renderAssignment target (.named name) command assignment =
        scope ++ (Variable.named name).name ++ assignment.operator ++ command.render ++ "\n" := by
    cases target with
    | none => exact ⟨"", List.not_mem_nil, rfl⟩
    | some piece =>
        have hpiece := htarget piece rfl
        exact ⟨piece.render .target ++ ": ", by simp [hpiece], rfl⟩
  obtain ⟨before, hbefore, hoperator⟩ : ∃ before, '=' ∉ before ∧
      assignment.operator.toList = before ++ ['=', ' '] := by
    cases assignment with
    | simple => exact ⟨[' ', ':'], by decide, rfl⟩
    | recursive => exact ⟨[' '], by decide, rfl⟩
  have htext : (renderAssignment target (.named name) command assignment).toList =
      (scope.toList ++ (Variable.named name).name.toList ++ before) ++
        '=' :: ' ' :: (command.render.toList ++ ['\n']) := by
    simp [hline, hoperator]
  have hnone : '=' ∉ scope.toList ++ (Variable.named name).name.toList ++ before := by
    simp only [List.mem_append, not_or]
    exact ⟨⟨hscope, hname⟩, hbefore⟩
  rw [htext, valueText_append hnone]

/-- **The words that a variable holds** are those that it was assigned exactly where there is no `#` in
    any of them: in every scope of which the text has no `=`, which make takes for the sign of the
    assignment. -/
theorem assignedWords?_iff (value : String → List Char) {target : Option Piece}
    (htarget : ∀ piece ∈ target, '=' ∉ (piece.render .target).toList) (name : String)
    {words : List String} (hlines : ∀ word ∈ words, '\n' ∉ word.toList) (assignment : Assignment) :
    assignedWords? value (renderAssignment target (.named name) (.words (Piece.plainTexts words))
        assignment) = some words ↔
      ∀ word ∈ words, '#' ∉ word.toList := by
  have hnewline : '\n' ∉ quotedWords words :=
    not_mem_quotedWords (by decide) (by decide) (by decide) hlines
  have hline := takeWhile_of_newline_not_mem hnewline
  have hheld : readAssigned? value (doubleDollars (quotedWords words)) =
      some (lineValue 0 (quotedWords words)) := by
    rw [quotedWords_eq] at hline ⊢
    rw [readAssigned?_wordsText value (parts_ne_nil words), hline, openBackslashes_wordsText,
      if_neg (by decide)]
  rw [assignedWords?, valueText_renderAssignment htarget, toList_render_plainTexts,
    readAssigned?_line, hheld, Option.bind_some]
  exact words?_lineValue_quotedWords hlines

/-- Flags in the scope of all targets, with dollars, quotes and blanks in them. -/
theorem assignedWords?_anyTarget :
    assignedWords? (fun _ => []) (renderAssignment (some Pattern.any.toPiece) (.named "CFLAGS")
        (.words (Piece.plainTexts ["-I$HOME/my include", "", "-DNAME='a\\"])) .simple) =
      some ["-I$HOME/my include", "", "-DNAME='a\\"] :=
  have hscope : ∀ piece ∈ some Pattern.any.toPiece, '=' ∉ (piece.render .target).toList := by
    intro piece hpiece
    obtain rfl := Option.some.inj hpiece
    decide
  (assignedWords?_iff (fun _ => []) hscope "CFLAGS" (by decide) .simple).mpr (by decide)

/-- A color leaves an open quote behind. -/
theorem assignedWords?_color :
    assignedWords? (fun _ => []) (renderAssignment none (.named "CFLAGS")
        (.words (Piece.plainTexts ["-DCOLOR=#fff"])) .simple) = none := by
  decide +kernel

end MakeGraph.Make
