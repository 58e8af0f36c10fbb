import MakeGraph.Proofs.Make.Lookup
import MakeGraph.Proofs.Make.QuotedValues
import MakeGraph.Proofs.Make.Uses

/-!
# `Proofs.Make.HeldWords` — words in variables that refer to others

The value of a variable for one target may begin with a reference to a variable of the whole file, with the
words of this target behind it. What it holds is what the other one holds, a blank, and what make leaves of
its own words (`readAssigned?_behind`). So it holds whole words exactly where make does not end the value in
one of them (`holdsWords_behind_iff`).

Values are read where others are known already. Variables that refer to nothing but to variables that refer
to nothing can all be read at once (`exists_value_eq`).

## Contents

* `HoldsWords`, `Makefile.heldAt?` — what a variable holds where a recipe runs
* `readAssigned?_reference`, `readAssigned?_behind` — values that begin with a reference
* `holdsWords_wordsText_iff`, `holdsWords_behind_iff` — whole words
* `exists_value_eq` — values of variables that refer to others
-/

namespace MakeGraph.Make

open Shell (Splits)

/-- The text behind the sign in the line of an assignment. -/
def Command.valueLine (command : Command) : List Char :=
  (" " ++ command.render ++ "\n").toList

/-- **A variable holds whole words**: it can be read, and the shell splits what it holds. -/
def HoldsWords (held? : Option (List Char)) : Prop :=
  ∃ held words, held? = some held ∧ Splits held words

/-- **What a variable holds** where a recipe runs, while other variables hold `value`. -/
def Makefile.heldAt? (m : Makefile) (value : String → List Char) (way : List String) (name : String) :
    Option (List Char) :=
  (m.lookup ⟨name⟩ way).bind fun command => readAssigned? value command.valueLine

/-! ## Values that begin with a reference -/

section Reference

variable {cs : List Char} {name : String}

/-- Characters that neither begin a comment nor quote one are no matter for it. -/
theorem dropComment_append (h : ∀ c ∈ cs, c ≠ '\\' ∧ c ≠ '#') (ds : List Char) :
    dropComment 0 (cs ++ ds) = cs ++ dropComment 0 ds := by
  induction cs with
  | nil => rfl
  | cons c cs ih =>
      obtain ⟨⟨hback, hhash⟩, hcs⟩ := List.forall_mem_cons.mp h
      rw [List.cons_append, dropComment, if_neg hback, if_neg hhash, ih hcs]
      rfl

/-- No backslash is open behind a blank. -/
theorem openBackslashes_blank (cs ds : List Char) :
    openBackslashes (cs ++ ' ' :: ds) = openBackslashes ds := by
  rw [openBackslashes, settle_append, settle, if_neg (by decide)]
  rfl

theorem openBackslashes_of_not_mem (h : '\\' ∉ cs) : openBackslashes cs = 0 := by
  induction cs with
  | nil => rfl
  | cons c cs ih =>
      obtain ⟨hc, hcs⟩ := not_or.mp (mt List.mem_cons.mpr h)
      rw [openBackslashes, settle, if_neg (Ne.symm hc)]
      exact ih hcs

/-- A name in which nothing ends, quotes or begins something else. -/
def IsSafeName (name : String) : Prop :=
  isPlainName name = true ∧ ∀ c ∈ name.toList, c ≠ '\n' ∧ c ≠ '\\' ∧ c ≠ '#'

instance (name : String) : Decidable (IsSafeName name) :=
  decidable_of_iff (isPlainName name = true ∧
      name.toList.all (fun c => decide (c ≠ '\n' ∧ c ≠ '\\' ∧ c ≠ '#')) = true)
    (and_congr_right fun _ => List.all_eq_true.trans (forall₂_congr fun _ _ => decide_eq_true_iff))

theorem IsSafeName.chars_reference (h : IsSafeName name) :
    ∀ c ∈ (reference name).toList, c ≠ '\n' ∧ c ≠ '\\' ∧ c ≠ '#' := by
  intro c hc
  rcases toList_reference name with ⟨d, hname, hreference⟩ | hreference
  · rw [hreference] at hc
    rcases List.mem_cons.mp hc with rfl | hc
    · decide
    · exact h.2 c (hname ▸ hc)
  · rw [hreference] at hc
    simp only [List.mem_cons, List.mem_append, List.not_mem_nil, or_false] at hc
    rcases hc with rfl | rfl | hc | rfl
    · decide
    · decide
    · exact h.2 c hc
    · decide

theorem exists_reference_eq_cons (name : String) : ∃ cs, (reference name).toList = '$' :: cs := by
  rcases toList_reference name with ⟨c, -, hreference⟩ | hreference
  · exact ⟨_, hreference⟩
  · exact ⟨_, hreference⟩

/-- **A value that begins with a reference** to a variable holds what this one holds, and what is read of
    the text behind it. -/
theorem readAssigned?_reference_append (value : String → List Char) (h : IsSafeName name)
    (ds : List Char) :
    readAssigned? value (' ' :: ((reference name).toList ++ (ds ++ ['\n']))) =
      if openBackslashes ((reference name).toList ++ ds.takeWhile (· ≠ '\n')) % 2 = 1 then none
      else some (value name ++ expand value (dropComment 0 (ds.takeWhile (· ≠ '\n')))) := by
  obtain ⟨cs, hcs⟩ := exists_reference_eq_cons name
  have hchars := h.chars_reference
  have hline : (' ' :: ((reference name).toList ++ (ds ++ ['\n']))).takeWhile (· ≠ '\n') =
      ' ' :: ((reference name).toList ++ ds.takeWhile (· ≠ '\n')) := by
    rw [List.takeWhile_cons_of_pos (by decide),
      List.takeWhile_append_of_pos fun c hc => decide_eq_true (hchars c hc).1, takeWhile_append_newline]
  have hlead : (' ' :: ((reference name).toList ++ ds.takeWhile (· ≠ '\n'))).dropWhile isSeparator =
      (reference name).toList ++ ds.takeWhile (· ≠ '\n') := by
    rw [List.dropWhile_cons_of_pos (by decide), hcs]
    exact List.dropWhile_cons_of_neg (by decide)
  unfold readAssigned?
  dsimp only
  rw [hline, hlead, dropComment_append fun c hc => (hchars c hc).2, expand_reference value h.1]
  rfl

end Reference

/-! ## Whole words -/

section Words

variable {name : String} {words : List (List (List Char))} {pieces : List Piece}

/-- What is held by a variable that is assigned quoted words. -/
def heldWords (words : List (List (List Char))) : Option (List Char) :=
  if openBackslashes ((wordsText words).takeWhile (· ≠ '\n')) % 2 = 1 then none
  else some (lineValue 0 (wordsText words))

/-- What is held by a variable that is assigned quoted words behind what another one holds. -/
def heldBehind (front : List Char) (words : List (List (List Char))) : Option (List Char) :=
  if words = [] then some front else (heldWords words).map fun held => front ++ ' ' :: held

theorem readAssigned?_words (value : String → List Char) (hne : ∀ parts ∈ words, parts ≠ [])
    (htext : (Command.words pieces).render.toList = doubleDollars (wordsText words)) :
    readAssigned? value (Command.words pieces).valueLine = heldWords words := by
  have hline : (Command.words pieces).valueLine =
      ' ' :: (doubleDollars (wordsText words) ++ ['\n']) := by
    rw [Command.valueLine, String.toList_append, String.toList_append, htext]
    rfl
  rw [hline, readAssigned?_line, readAssigned?_wordsText value hne]
  rfl

/-- **A reference and words behind it.** -/
theorem readAssigned?_behind (value : String → List Char) (h : IsSafeName name)
    (htext : (Command.words pieces).render.toList = doubleDollars (wordsText words))
    (hempty : pieces = [] ↔ words = []) :
    readAssigned? value (Command.words ((⟨name⟩ : Variable).toPiece :: pieces)).valueLine =
      heldBehind (value name) words := by
  have hreference : ((⟨name⟩ : Variable).toPiece.render .shellWord).toList =
      (reference name).toList := by
    rw [Variable.toPiece, Piece.render_verbatim]
  rw [Command.valueLine, String.toList_append, String.toList_append, toList_render_commandWords,
    List.map_cons, hreference]
  rw [toList_render_commandWords] at htext
  cases pieces with
  | nil =>
      -- the reference is the whole value
      have hvalue := readAssigned?_reference_append value h []
      have hopen : openBackslashes (reference name).toList = 0 :=
        openBackslashes_of_not_mem fun hmem => (h.chars_reference _ hmem).2.1 rfl
      rw [List.takeWhile_nil, List.append_nil, hopen, if_neg (by decide)] at hvalue
      rw [List.map_nil, List.intercalate_singleton, heldBehind, if_pos (hempty.mp rfl)]
      refine hvalue.trans (congrArg some ?_)
      exact List.append_nil _
  | cons piece pieces =>
      have hvalue := readAssigned?_reference_append value h (' ' :: doubleDollars (wordsText words))
      have hline : (' ' :: doubleDollars (wordsText words)).takeWhile (· ≠ '\n') =
          ' ' :: doubleDollars ((wordsText words).takeWhile (· ≠ '\n')) := by
        rw [List.takeWhile_cons_of_pos (by decide), takeWhile_doubleDollars (by decide)]
      have hblank : ∀ ds, dropComment 0 (' ' :: ds) = ' ' :: dropComment 0 ds := fun ds => rfl
      -- the blank between the two parts them for comments and for the end of the line
      rw [hline, openBackslashes_blank, openBackslashes, settle_doubleDollars, hblank,
        dropComment_doubleDollars, expand_cons value (by decide), expand_doubleDollars] at hvalue
      have hheld : heldBehind (value name) words =
          if openBackslashes ((wordsText words).takeWhile (· ≠ '\n')) % 2 = 1 then none
          else some (value name ++ ' ' :: lineValue 0 (wordsText words)) := by
        rw [heldBehind, if_neg (mt hempty.mpr (List.cons_ne_nil _ _)), heldWords]
        split <;> rfl
      refine Eq.trans ?_ (hvalue.trans hheld.symm)
      rw [List.map_cons] at htext
      rw [List.map_cons, List.intercalate_cons_cons, htext]
      simp

/-- **A variable with quoted words** holds whole words exactly where make does not end the value in one
    of them. -/
theorem holdsWords_words_iff (hne : ∀ parts ∈ words, parts ≠ []) :
    HoldsWords (heldWords words) ↔ ∀ parts ∈ words, cutsWord parts = false := by
  constructor
  · rintro ⟨held, read, hheld, hsplits⟩
    unfold heldWords at hheld
    split at hheld
    · cases hheld
    · obtain rfl := Option.some.inj hheld
      exact (exists_splits_lineValue_iff hne).mp ⟨read, hsplits⟩
  · intro hkept
    refine ⟨_, _, ?_, splits_lineValue hne hkept⟩
    rw [heldWords, openBackslashes_takeWhile_wordsText hkept, if_neg (by decide)]

/-- **So does one that begins with another**, if this one holds whole words. -/
theorem holdsWords_behind_iff (hne : ∀ parts ∈ words, parts ≠ []) {front : List Char}
    {read : List String} (hfront : Splits front read) :
    HoldsWords (heldBehind front words) ↔ ∀ parts ∈ words, cutsWord parts = false := by
  by_cases hnil : words = []
  · subst hnil
    refine iff_of_true ⟨front, read, if_pos rfl, hfront⟩ fun parts hparts => ?_
    cases hparts
  rw [heldBehind, if_neg hnil]
  constructor
  · rintro ⟨held, others, hheld, hsplits⟩ parts hparts
    by_contra hcut
    obtain ⟨own, hown, rfl⟩ := Option.map_eq_some_iff.mp hheld
    unfold heldWords at hown
    split at hown
    · cases hown
    · obtain rfl := Option.some.inj hown
      -- the quote that the word leaves open stays open behind whatever stands in front
      have hopens := opens_lineValue hne ⟨parts, hparts, by simpa using hcut⟩
      exact (hopens.blank hfront).not_splits ⟨others, hsplits⟩
  · intro hkept
    obtain ⟨own, others, hown, hsplits⟩ := (holdsWords_words_iff hne).mpr hkept
    exact ⟨_, _, by rw [hown]; rfl, hfront.blank hsplits⟩

end Words

/-! ## Variables that refer to others -/

/-- **Values of variables that refer to others**: if those in `base` depend on nothing and all others on
    these, there are values that agree with what is held while others hold them. -/
theorem exists_value_eq {held : (String → List Char) → String → Option (List Char)}
    {base names : List String}
    (hbase : ∀ name ∈ base, ∀ value value', held value name = held value' name)
    (hnames : ∀ name ∈ names, ∀ value value', (∀ other ∈ base, value other = value' other) →
      held value name = held value' name) :
    ∃ value, ∀ name ∈ base ++ names, ∀ text, held value name = some text → value name = text := by
  -- the first values are right for `base`, and then the second ones for all
  let first : String → List Char := fun name => (held (fun _ => []) name).getD []
  let second : String → List Char := fun name => (held first name).getD []
  have hagree : ∀ name ∈ base, second name = first name := by
    intro name hname
    exact congrArg (·.getD []) (hbase name hname first fun _ => [])
  refine ⟨second, fun name hname text htext => ?_⟩
  have hsame : held second name = held first name := by
    rcases List.mem_append.mp hname with hname | hname
    · exact hbase name hname _ _
    · exact hnames name hname _ _ hagree
  show (held first name).getD [] = text
  rw [← hsame, htext]
  rfl

end MakeGraph.Make
