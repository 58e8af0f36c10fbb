import MakeGraph.Proofs.Make.Header

/-!
# `Proofs.Make.Assigned` — what a variable holds

Make reads the value of a variable from the rest of its line. The blanks before it and a comment
behind it are no part of it, a backslash quotes the `#` behind it, and a backslash at the end of the
line makes the line go on. What is left is expanded at once where the operator is `:=`.

A text that is written with its dollars doubled and nothing else loses whatever make takes for one of
these. `IsAssignable` says which texts lose nothing; all others are cut short
(`length_lt_of_not_isAssignable`).

## Contents

* `dropComment`, `readAssigned?`, `Makefile.holds?` — the reader
* `length_dropComment_lt`, `dropComment_doubleDollars` — comments
* `readAssigned?_of_isAssignable`, `length_lt_of_not_isAssignable` — the texts that are held
-/

namespace MakeGraph.Make

/-! ## The reader -/

/-- A line without its comment, behind `n` backslashes: a `#` begins a comment behind an even number of
    backslashes, and before a `#` they are halved. -/
def dropComment : Nat → List Char → List Char
  | n, [] => List.replicate n '\\'
  | n, c :: cs =>
      if c = '\\' then dropComment (n + 1) cs
      else if c = '#' then
        List.replicate (n / 2) '\\' ++ (if n % 2 = 0 then [] else '#' :: dropComment 0 cs)
      else List.replicate n '\\' ++ c :: dropComment 0 cs

/-- **What a variable holds** that is assigned `text` at once, where other variables hold `value`: the
    rest of its line without the blanks before it and the comment behind it, expanded. There is nothing
    to say where the line goes on in the next one. -/
def readAssigned? (value : String → List Char) (text : List Char) : Option (List Char) :=
  let line := text.takeWhile (· ≠ '\n')
  if openBackslashes line % 2 = 1 then none
  else some (expand value (dropComment 0 (line.dropWhile isSeparator)))

/-- **What a global variable of a model holds**, read from the text behind the `:=` of its line. -/
def Makefile.holds? (m : Makefile) (value : String → List Char) (name : String) :
    Option (List Char) :=
  match m.globals.find? ⟨name⟩ with
  | some (command, .simple) => readAssigned? value (" " ++ command.render ++ "\n").toList
  | _ => none

example : readAssigned? (fun _ => []) " $$HOME/a b # here".toList = some "$HOME/a b ".toList := by
  decide +kernel

/-- **A text that a variable can hold**: it is one line, and nothing of it is taken for a blank before the
    value, for a comment, or for the sign that the line goes on. -/
structure IsAssignable (cs : List Char) : Prop where
  one_line : '\n' ∉ cs
  no_comment : '#' ∉ cs
  no_lead : ∀ c ∈ cs.head?, isSeparator c = false
  no_end : openBackslashes cs % 2 = 0

-- `all` looks at the text only, where a quantifier can be decided by going through all characters
instance (cs : List Char) : Decidable (IsAssignable cs) :=
  decidable_of_iff ('\n' ∉ cs ∧ '#' ∉ cs ∧ cs.head?.all (!isSeparator ·) ∧
      openBackslashes cs % 2 = 0)
    ⟨fun h => ⟨h.1, h.2.1, by simpa [Option.all_eq_true] using h.2.2.1, h.2.2.2⟩,
      fun h => ⟨h.one_line, h.no_comment, by simpa [Option.all_eq_true] using h.no_lead,
        h.no_end⟩⟩

/-! ## Comments -/

theorem dropComment_of_not_mem {cs : List Char} (h : '#' ∉ cs) (n : Nat) :
    dropComment n cs = List.replicate n '\\' ++ cs := by
  induction cs generalizing n with
  | nil => simp [dropComment]
  | cons c cs ih =>
      obtain ⟨hc, hcs⟩ := not_or.mp (mt List.mem_cons.mpr h)
      unfold dropComment
      by_cases hback : c = '\\'
      · rw [if_pos hback, ih hcs, hback, List.replicate_succ', List.append_assoc]
        rfl
      · rw [if_neg hback, if_neg (Ne.symm hc), ih hcs]
        simp

/-- A comment takes characters away. -/
theorem length_dropComment_lt {cs : List Char} (h : '#' ∈ cs) (n : Nat) :
    (dropComment n cs).length < n + cs.length := by
  induction cs generalizing n with
  | nil => exact absurd h List.not_mem_nil
  | cons c cs ih =>
      unfold dropComment
      by_cases hback : c = '\\'
      · have hne : '#' ≠ c := by
          rw [hback]
          decide
        have hshorter := ih ((List.mem_cons.mp h).resolve_left hne) (n + 1)
        rw [if_pos hback, List.length_cons]
        omega
      · by_cases hhash : c = '#'
        · rw [if_neg hback, if_pos hhash, List.length_append, List.length_replicate,
            List.length_cons]
          split
          · simp only [List.length_nil]
            omega
          · -- the backslash before a quoted `#` is gone, whatever follows
            have hrest : (dropComment 0 cs).length ≤ cs.length := by
              by_cases hmem : '#' ∈ cs
              · have := ih hmem 0
                omega
              · rw [dropComment_of_not_mem hmem]
                simp
            simp only [List.length_cons]
            omega
        · have hshorter := ih ((List.mem_cons.mp h).resolve_left fun heq => hhash heq.symm) 0
          rw [if_neg hback, if_neg hhash]
          simp only [List.length_append, List.length_replicate, List.length_cons]
          omega

theorem length_dropComment_le (cs : List Char) (n : Nat) :
    (dropComment n cs).length ≤ n + cs.length := by
  by_cases h : '#' ∈ cs
  · exact Nat.le_of_lt (length_dropComment_lt h n)
  · rw [dropComment_of_not_mem h]
    simp

/-! ## Doubled dollars -/

/-- Dollars are no matter for comments. -/
theorem dropComment_doubleDollars (cs : List Char) (n : Nat) :
    dropComment n (doubleDollars cs) = doubleDollars (dropComment n cs) := by
  induction cs generalizing n with
  | nil => exact (doubleDollars_backslashes n).symm
  | cons c cs ih =>
      by_cases hdollar : c = '$'
      · subst hdollar
        show dropComment n ('$' :: '$' :: doubleDollars cs) =
          doubleDollars (List.replicate n '\\' ++ '$' :: dropComment 0 cs)
        rw [doubleDollars_append, doubleDollars_backslashes]
        show List.replicate n '\\' ++ '$' :: ('$' :: dropComment 0 (doubleDollars cs)) = _
        rw [ih]
        rfl
      · rw [doubleDollars_cons hdollar]
        unfold dropComment
        by_cases hback : c = '\\'
        · rw [if_pos hback, if_pos hback, ih]
        · rw [if_neg hback, if_neg hback]
          by_cases hhash : c = '#'
          · rw [if_pos hhash, if_pos hhash, doubleDollars_append, doubleDollars_backslashes]
            congr 1
            split
            · rfl
            · rw [doubleDollars_cons (by decide), ih]
          · rw [if_neg hhash, if_neg hhash, doubleDollars_append, doubleDollars_backslashes,
              doubleDollars_cons hdollar, ih]

/-- Dollars are no matter for the last backslashes. -/
theorem settle_doubleDollars (cs : List Char) (n : Nat) :
    (settle n (doubleDollars cs)).2 = (settle n cs).2 := by
  induction cs generalizing n with
  | nil => rfl
  | cons c cs ih =>
      by_cases hdollar : c = '$'
      · subst hdollar
        exact ih 0
      · rw [doubleDollars_cons hdollar]
        unfold settle
        by_cases hback : c = '\\'
        · rw [if_pos hback, if_pos hback, ih]
        · rw [if_neg hback, if_neg hback]
          exact ih 0

theorem takeWhile_doubleDollars {p : Char → Bool} (hp : p '$' = true) (cs : List Char) :
    (doubleDollars cs).takeWhile p = doubleDollars (cs.takeWhile p) := by
  induction cs with
  | nil => rfl
  | cons c cs ih =>
      by_cases hdollar : c = '$'
      · subst hdollar
        show ('$' :: '$' :: doubleDollars cs).takeWhile p = _
        simp only [List.takeWhile_cons, hp, if_true, ih]
        rfl
      · rw [doubleDollars_cons hdollar, List.takeWhile_cons, List.takeWhile_cons, ih]
        split
        · exact (doubleDollars_cons hdollar _).symm
        · rfl

theorem dropWhile_doubleDollars {p : Char → Bool} (hp : p '$' = false) (cs : List Char) :
    (doubleDollars cs).dropWhile p = doubleDollars (cs.dropWhile p) := by
  induction cs with
  | nil => rfl
  | cons c cs ih =>
      by_cases hdollar : c = '$'
      · subst hdollar
        show ('$' :: '$' :: doubleDollars cs).dropWhile p = _
        simp only [List.dropWhile_cons, hp]
        rfl
      · rw [doubleDollars_cons hdollar, List.dropWhile_cons, List.dropWhile_cons, ih]
        split
        · rfl
        · exact (doubleDollars_cons hdollar cs).symm

/-- **What a variable holds** that was assigned a text with its dollars doubled. -/
theorem readAssigned?_doubleDollars (value : String → List Char) (cs : List Char) :
    readAssigned? value (doubleDollars cs) =
      if openBackslashes (cs.takeWhile (· ≠ '\n')) % 2 = 1 then none
      else some (dropComment 0 ((cs.takeWhile (· ≠ '\n')).dropWhile isSeparator)) := by
  unfold readAssigned?
  rw [takeWhile_doubleDollars (by decide)]
  dsimp only
  rw [openBackslashes, settle_doubleDollars, dropWhile_doubleDollars (by decide),
    dropComment_doubleDollars, expand_doubleDollars]
  rfl

/-- A text without line breaks is its own line. -/
theorem takeWhile_of_newline_not_mem {cs : List Char} (h : '\n' ∉ cs) :
    cs.takeWhile (· ≠ '\n') = cs :=
  List.takeWhile_eq_self_iff.mpr fun _ hc => decide_eq_true fun heq => h (heq ▸ hc)

/-- A line break behind a text is not part of its line. -/
theorem takeWhile_append_newline (cs : List Char) :
    (cs ++ ['\n']).takeWhile (· ≠ '\n') = cs.takeWhile (· ≠ '\n') := by
  rw [List.takeWhile_append]
  split
  · next hlength =>
      rw [List.takeWhile_cons_of_neg (by decide), List.append_nil,
        (List.takeWhile_sublist _).eq_of_length hlength]
  · rfl

/-- The blank before a value and the end of its line are no part of it. -/
theorem readAssigned?_line (value : String → List Char) (cs : List Char) :
    readAssigned? value (' ' :: (doubleDollars cs ++ ['\n'])) =
      readAssigned? value (doubleDollars cs) := by
  have hline : (' ' :: (doubleDollars cs ++ ['\n'])).takeWhile (· ≠ '\n') =
      ' ' :: (doubleDollars cs).takeWhile (· ≠ '\n') := by
    rw [List.takeWhile_cons_of_pos (by decide), takeWhile_append_newline]
  unfold readAssigned?
  rw [hline]
  rfl

/-! ## The texts that are held -/

theorem readAssigned?_of_isAssignable (value : String → List Char) {cs : List Char}
    (h : IsAssignable cs) : readAssigned? value (doubleDollars cs) = some cs := by
  have hline := takeWhile_of_newline_not_mem h.one_line
  have hlead : cs.dropWhile isSeparator = cs := by
    cases cs with
    | nil => rfl
    | cons c cs => exact List.dropWhile_cons_of_neg (by simpa using h.no_lead c rfl)
  have heven := h.no_end
  rw [readAssigned?_doubleDollars, hline, if_neg (by omega), hlead,
    dropComment_of_not_mem h.no_comment]
  rfl

/-- **A text that is not assignable** is cut short. -/
theorem length_lt_of_not_isAssignable {value : String → List Char} {cs held : List Char}
    (h : ¬IsAssignable cs) (hread : readAssigned? value (doubleDollars cs) = some held) :
    held.length < cs.length := by
  rw [readAssigned?_doubleDollars] at hread
  split at hread
  · cases hread
  · next hend =>
      obtain rfl := Option.some.inj hread
      have hcomment := length_dropComment_le ((cs.takeWhile (· ≠ '\n')).dropWhile isSeparator) 0
      have hlead := (List.dropWhile_sublist isSeparator (l := cs.takeWhile (· ≠ '\n'))).length_le
      have hline := (List.takeWhile_sublist (· ≠ '\n') (l := cs)).length_le
      -- where nothing is lost on the way, the text can be assigned
      by_contra hlong
      have hline_eq : cs.takeWhile (· ≠ '\n') = cs :=
        (List.takeWhile_sublist _).eq_of_length (by omega)
      rw [hline_eq] at hcomment hlead hlong hend
      have hlead_eq : cs.dropWhile isSeparator = cs :=
        (List.dropWhile_sublist _).eq_of_length (by omega)
      rw [hlead_eq] at hcomment hlong
      refine h ⟨?_, ?_, ?_, by omega⟩
      · intro hmem
        have hall := List.takeWhile_eq_self_iff.mp hline_eq '\n' hmem
        exact absurd hall (by decide)
      · intro hmem
        have := length_dropComment_lt hmem 0
        omega
      · intro c hc
        cases cs with
        | nil => cases hc
        | cons d cs =>
            obtain rfl : d = c := Option.some.inj hc
            by_contra hsep
            rw [List.dropWhile_cons_of_pos (by simpa using hsep)] at hlead_eq
            have := (List.dropWhile_sublist isSeparator (l := cs)).length_le
            rw [hlead_eq, List.length_cons] at this
            omega

end MakeGraph.Make
