import MakeGraph.Proofs.Make.HeaderTargets

/-!
# `Proofs.Make.HeaderDeps` — how make reads the prerequisites of a rule back

Behind the colon of a header stand the prerequisites, a bar, and the order-only prerequisites. Colons
mean nothing there. A backslash at the end of a name is not guarded, so it quotes what the line goes on
with; only the last name of a line has nothing behind it (`Parted`).

## Contents

* `Parted`, `barDeps` — prerequisites in a line
* `scanDeps_ne` — the names that are not read back
* `readDeps_iff`, `splitBar_scanDeps_iff` — the side behind the colon
* `parted_iff` — the names that part well, without the line
-/

namespace MakeGraph.Make

/-! ## Prerequisites -/

section Prerequisites

/-- The text of a prerequisite. -/
abbrev depChars (d : List Char) : List Char :=
  guardSpecials Context.specialInPrerequisites d

/-- The words of a line behind its colon. -/
abbrev scanDeps (line : List Char) : List (List Char) :=
  (scanWords (fun _ => false) 0 [] line).1

/-- The name of a prerequisite. -/
abbrev readDep (word : List Char) : List Char :=
  unguard Context.specialInPrerequisites 0 word

/-- The texts of prerequisites, each with a blank before it. -/
def joinDeps (ds : List (List Char)) : List Char :=
  ds.flatMap fun d => ' ' :: depChars d

/-- The text of the order-only prerequisites. -/
def barDeps (ds : List (List Char)) : List Char :=
  if ds = [] then [] else ' ' :: '|' :: joinDeps ds

/-- A line that is empty or goes on with a blank. -/
def BlankLed (rest : List Char) : Prop :=
  rest = [] ∨ ∃ more, rest = ' ' :: more

/-- Prerequisites in a line that goes on with `rest`: none but the last of the line quotes what
    follows. -/
def Parted (rest : List Char) : List (List Char) → Prop
  | [] => True
  | d :: ds => (joinDeps ds ++ rest = [] ∨ openBackslashes d % 2 = 0) ∧ Parted rest ds

variable {d : List Char} {rest : List Char}

theorem separator_special_dep {c : Char} (h : isSeparator c = true) :
    Context.specialInPrerequisites c = true := by
  simp only [isSeparator, Bool.or_eq_true, beq_iff_eq] at h
  rcases h with rfl | rfl <;> decide

theorem blankLed_joinDeps (h : BlankLed rest) (ds : List (List Char)) :
    BlankLed (joinDeps ds ++ rest) := by
  cases ds with
  | nil => exact h
  | cons d ds => exact .inr ⟨_, rfl⟩

theorem blankLed_barDeps (ds : List (List Char)) : BlankLed (barDeps ds) := by
  unfold barDeps
  split
  · exact .inl rfl
  · exact .inr ⟨_, rfl⟩

theorem scanDeps_blank (rest : List Char) : scanDeps (' ' :: rest) = scanDeps rest := by
  unfold scanDeps
  rw [scanWords_separator rfl rfl]
  rfl

theorem readDep_depChars (d : List Char) : readDep (depChars d) = d :=
  unguard_guardSpecials_nil (fun _ h => h) fun _ _ h => h

theorem scanWords_depChars (d rest : List Char) :
    scanWords (fun _ => false) 0 [] (depChars d ++ rest) =
      scanWords (fun _ => false) (openBackslashes d) (depChars d) rest :=
  scanWords_word (fun _ => separator_special_dep) (fun _ _ h => by cases h) rest

/-- A bar among the prerequisites is escaped. -/
theorem depChars_ne_bar (d : List Char) : depChars d ≠ ['|'] := by
  intro h
  have hd := readDep_depChars d
  rw [h] at hd
  rw [← hd] at h
  revert h
  decide

/-- A prerequisite is one word where the line ends or does not go on with a quoted blank. -/
theorem scanDeps_dep (hd : d ≠ []) (hrest : BlankLed rest)
    (hpart : rest = [] ∨ openBackslashes d % 2 = 0) :
    scanDeps (' ' :: (depChars d ++ rest)) = depChars d :: scanDeps rest := by
  have hword : wordOf (depChars d) = [depChars d] := wordOf_of_ne_nil (guardSpecials_ne_nil hd)
  rw [scanDeps_blank, scanDeps, scanWords_depChars]
  rcases hrest with rfl | ⟨more, rfl⟩
  · exact hword
  · have heven : openBackslashes d % 2 = 0 := hpart.resolve_left (List.cons_ne_nil _ _)
    rw [scanWords_separator heven rfl, hword, scanDeps_blank]
    rfl

/-- **A prerequisite that quotes the blank** behind it is not the first one that is read. -/
theorem scanDeps_ne (hodd : openBackslashes d % 2 = 1) (more : List Char) :
    ∃ word words, scanDeps (' ' :: (depChars d ++ ' ' :: more)) = word :: words ∧
      word ≠ ['|'] ∧ readDep word ≠ d := by
  obtain ⟨word, words, hwords⟩ := scanWords_begun
    (List.append_ne_nil_of_right_ne_nil (depChars d) (List.cons_ne_nil ' ' [])) 0 more
  rw [List.append_assoc] at hwords
  refine ⟨depChars d ++ ' ' :: word, words, ?_, ?_, ?_⟩
  · rw [scanDeps_blank, scanDeps, scanWords_depChars, scanWords_quoted hodd (by decide)]
    exact hwords
  · intro h
    have hblank : ' ' ∈ ['|'] := h ▸ List.mem_append_right _ List.mem_cons_self
    revert hblank
    decide
  · have hquotable : Context.specialInPrerequisites ' ' = true := by decide
    have h := unguard_ne_of_odd (fun _ h => h) (fun _ _ h => h) hodd (by decide) hquotable word []
    rwa [List.append_nil] at h

/-- **Order-only prerequisites are read as they are** exactly when none but the last quotes what
    follows. -/
theorem readDeps_iff {ds : List (List Char)} (hne : ∀ d ∈ ds, d ≠ []) :
    (scanDeps (joinDeps ds)).map readDep = ds ↔ Parted [] ds := by
  induction ds with
  | nil => exact ⟨fun _ => trivial, fun _ => rfl⟩
  | cons d ds ih =>
      obtain ⟨hd, hds⟩ := List.forall_mem_cons.mp hne
      have hled : BlankLed (joinDeps ds) := by
        have h := blankLed_joinDeps (.inl rfl) ds
        rwa [List.append_nil] at h
      show (scanDeps (' ' :: (depChars d ++ joinDeps ds))).map readDep = d :: ds ↔
        (joinDeps ds ++ [] = [] ∨ _) ∧ Parted [] ds
      rw [List.append_nil, ← ih hds]
      by_cases hpart : joinDeps ds = [] ∨ openBackslashes d % 2 = 0
      · rw [scanDeps_dep hd hled hpart, List.map_cons, readDep_depChars, List.cons_inj_right]
        exact ⟨fun h => ⟨hpart, h⟩, fun h => h.2⟩
      · refine ⟨fun h => absurd h ?_, fun h => absurd h.1 hpart⟩
        obtain ⟨hrest, hodd⟩ := not_or.mp hpart
        obtain ⟨more, hmore⟩ := hled.resolve_left hrest
        have hodd : openBackslashes d % 2 = 1 := by omega
        obtain ⟨word, words, hwords, -, hword⟩ := scanDeps_ne hodd more
        rw [hmore, hwords]
        exact fun h => hword (List.cons.inj h).1

/-- **All prerequisites are read as they are** exactly when none but the last of the line quotes what
    follows. -/
theorem splitBar_scanDeps_iff {ds os : List (List Char)} (hds : ∀ d ∈ ds, d ≠ [])
    (hos : ∀ d ∈ os, d ≠ []) :
    (splitBar (scanDeps (joinDeps ds ++ barDeps os))).1.map readDep = ds ∧
        (splitBar (scanDeps (joinDeps ds ++ barDeps os))).2.map readDep = os ↔
      Parted (barDeps os) ds ∧ Parted [] os := by
  induction ds with
  | nil =>
      show (splitBar (scanDeps (barDeps os))).1.map readDep = [] ∧
          (splitBar (scanDeps (barDeps os))).2.map readDep = os ↔ True ∧ Parted [] os
      rw [← readDeps_iff hos, true_and, barDeps]
      by_cases h : os = []
      · rw [h, if_pos rfl]
        exact ⟨fun _ => rfl, fun _ => ⟨rfl, rfl⟩⟩
      · have hbar : scanDeps (' ' :: '|' :: joinDeps os) = ['|'] :: scanDeps (joinDeps os) := by
          obtain ⟨d, os, rfl⟩ := List.exists_cons_of_ne_nil h
          rw [scanDeps_blank, scanDeps, scanWords_plain (by decide) rfl (by decide)]
          show (scanWords (fun _ => false) 0 ['|'] (' ' :: (depChars d ++ joinDeps os))).1 =
            ['|'] :: scanDeps (' ' :: (depChars d ++ joinDeps os))
          rw [scanWords_separator rfl rfl, scanDeps_blank]
          rfl
        rw [if_neg h, hbar, splitBar, if_pos rfl]
        exact ⟨fun h => h.2, fun h => ⟨rfl, h⟩⟩
  | cons d ds ih =>
      obtain ⟨hd, hds⟩ := List.forall_mem_cons.mp hds
      have ih := ih hds
      have hled := blankLed_joinDeps (blankLed_barDeps os) ds
      have hline : joinDeps (d :: ds) ++ barDeps os =
          ' ' :: (depChars d ++ (joinDeps ds ++ barDeps os)) := by
        show (' ' :: depChars d ++ joinDeps ds) ++ barDeps os = _
        rw [List.append_assoc]
        rfl
      show _ ↔ ((joinDeps ds ++ barDeps os = [] ∨ openBackslashes d % 2 = 0) ∧
        Parted (barDeps os) ds) ∧ Parted [] os
      rw [hline, and_assoc, ← ih]
      generalize joinDeps ds ++ barDeps os = rest at hled
      by_cases hpart : rest = [] ∨ openBackslashes d % 2 = 0
      · rw [scanDeps_dep hd hled hpart, splitBar, if_neg (depChars_ne_bar d)]
        rw [List.map_cons, readDep_depChars, List.cons_inj_right]
        exact ⟨fun h => ⟨hpart, h⟩, fun h => h.2⟩
      · -- the name goes on with the next one, so the first name that is read is not `d`
        refine ⟨fun h => absurd h.1 ?_, fun h => absurd h.1 hpart⟩
        obtain ⟨hrest, hopen⟩ := not_or.mp hpart
        obtain ⟨more, hmore⟩ := hled.resolve_left hrest
        have hodd : openBackslashes d % 2 = 1 := by omega
        obtain ⟨word, words, hwords, hbar, hword⟩ := scanDeps_ne hodd more
        rw [hmore, hwords, splitBar, if_neg hbar]
        exact fun h => hword (List.cons.inj h).1

/-- The order-only prerequisites of a line that ends with them. -/
theorem parted_nil_iff {ds : List (List Char)} :
    Parted [] ds ↔ ∀ d ∈ ds.dropLast, openBackslashes d % 2 = 0 := by
  induction ds with
  | nil => exact ⟨fun _ d hd => absurd hd List.not_mem_nil, fun _ => trivial⟩
  | cons d ds ih =>
      cases ds with
      | nil => exact ⟨fun _ d hd => absurd hd List.not_mem_nil, fun _ => ⟨.inl rfl, trivial⟩⟩
      | cons e ds =>
          rw [List.dropLast_cons_cons, List.forall_mem_cons, ← ih]
          exact and_congr_left fun _ => ⟨fun h => h.resolve_left (List.cons_ne_nil _ _), .inr⟩

theorem parted_iff_of_ne_nil {rest : List Char} (h : rest ≠ []) {ds : List (List Char)} :
    Parted rest ds ↔ ∀ d ∈ ds, openBackslashes d % 2 = 0 := by
  induction ds with
  | nil => exact ⟨fun _ d hd => absurd hd List.not_mem_nil, fun _ => trivial⟩
  | cons d ds ih =>
      rw [List.forall_mem_cons, ← ih]
      refine and_congr_left fun _ => ⟨fun hd => hd.resolve_left ?_, .inr⟩
      exact List.append_ne_nil_of_right_ne_nil _ h

/-- The prerequisites of both kinds are one line. -/
theorem parted_iff {ds os : List (List Char)} :
    Parted (barDeps os) ds ∧ Parted [] os ↔
      ∀ d ∈ (ds ++ os).dropLast, openBackslashes d % 2 = 0 := by
  by_cases h : os = []
  · rw [h, List.append_nil, ← parted_nil_iff]
    exact and_iff_left trivial
  · have hbar : barDeps os ≠ [] := by
      rw [barDeps, if_neg h]
      exact List.cons_ne_nil _ _
    rw [List.dropLast_append_of_ne_nil h, parted_iff_of_ne_nil hbar, parted_nil_iff]
    exact List.forall_mem_append.symm

end Prerequisites

end MakeGraph.Make
