import MakeGraph.FileTree.Basic
import MakeGraph.Proofs.Outcome

/-!
# `Proofs.FileTree.Routes` — where paths lead

A path leads to a place by its segments, each taken from a directory that is there. So a route
depends on nothing but directories: in a tree that has all directories of another, every route of
the other leads where it led (`KeepsDirectories.reach`).

A file below a directory has the route of the directory and then its name (`reach_join`). That is
why two files of one directory never share a place.
-/

namespace MakeGraph

/-! ## Segments -/

namespace Path

/-- A name that a file may have: one segment, and no step that every directory has. -/
def IsFileName (name : String) : Prop :=
  name ≠ "" ∧ '/' ∉ name.toList ∧ '\x00' ∉ name.toList ∧ name ≠ "." ∧ name ≠ ".."

instance (name : String) : Decidable (IsFileName name) :=
  inferInstanceAs (Decidable (_ ∧ _ ∧ _ ∧ _ ∧ _))

theorem cut_of_notMem {cs : List Char} (h : '/' ∉ cs) : cut cs = [cs] := by
  induction cs with
  | nil => rfl
  | cons c cs ih =>
      simp only [List.mem_cons, not_or] at h
      have hc : ¬ c = '/' := fun hc => h.1 hc.symm
      rw [cut, if_neg hc, ih h.2]

theorem cut_ne_nil (cs : List Char) : cut cs ≠ [] := by
  cases cs with
  | nil => simp [cut]
  | cons c cs =>
      rw [cut]
      split
      · simp
      · split <;> simp

theorem cut_slash (front back : List Char) : cut (front ++ '/' :: back) = cut front ++ cut back := by
  induction front with
  | nil => simp [cut]
  | cons c cs ih =>
      by_cases hc : c = '/'
      · simp [cut, hc, ih]
      · simp only [List.cons_append, cut, if_neg hc, ih]
        cases hcut : cut cs with
        | nil => exact absurd hcut (cut_ne_nil cs)
        | cons segment rest => rfl

/-- The segments of a text, put together from what is before and behind a slash. -/
theorem segments_slash {text : String} (front back : List Char)
    (h : text.toList = front ++ '/' :: back) :
    segments ⟨text⟩ = segments ⟨String.ofList front⟩ ++ segments ⟨String.ofList back⟩ := by
  simp [segments, h, cut_slash]

theorem segments_empty : segments ⟨""⟩ = [] := by
  simp [segments, cut]

theorem segments_name {name : String} (h : IsFileName name) : segments ⟨name⟩ = [name] := by
  have hne : name.toList ≠ [] := fun hnil => h.1 (String.toList_eq_nil_iff.mp hnil)
  simp [segments, cut_of_notMem h.2.1, hne]

/-- The text of a file below a directory: a slash is put in between where one is missing. -/
theorem join_name (dir : Path) {name : String} (h : IsFileName name) :
    dir.join ⟨name⟩ =
      if dir.text = "" ∨ dir.endsInSlash = true then ⟨dir.text ++ name⟩
      else ⟨dir.text ++ "/" ++ name⟩ := by
  have hhead : name.toList.head? ≠ some '/' := fun hhead => h.2.1 (List.mem_of_mem_head? hhead)
  have hrelative : isAbsolute ⟨name⟩ = false := by simp [isAbsolute, hhead]
  simp [join, hrelative, endsInSlash]

/-- **The route of a file** below a directory is that of the directory, and its name. -/
theorem segments_join (dir : Path) {name : String} (h : IsFileName name) :
    (dir.join ⟨name⟩).segments = dir.segments ++ [name] := by
  obtain ⟨text⟩ := dir
  rw [join_name _ h]
  by_cases hempty : text = ""
  · rw [if_pos (Or.inl hempty), hempty, String.empty_append, segments_empty, segments_name h,
      List.nil_append]
  by_cases hslash : endsInSlash ⟨text⟩ = true
  -- the slash that the directory ends in does not count twice
  · obtain ⟨front, hfront⟩ := List.getLast?_eq_some_iff.mp (of_decide_eq_true hslash)
    have hdir : segments ⟨text⟩ = segments ⟨String.ofList front⟩ := by
      rw [segments_slash front [] hfront, segments_empty, List.append_nil]
    rw [if_pos (Or.inr hslash), segments_slash front name.toList (by simp [hfront]), hdir,
      String.ofList_toList, segments_name h]
  · rw [if_neg (not_or.mpr ⟨hempty, hslash⟩), segments_slash text.toList name.toList (by simp),
      String.ofList_toList, String.ofList_toList, segments_name h]

/-- A file below a directory is not written as a directory. -/
theorem endsInSlash_join (dir : Path) {name : String} (h : IsFileName name) :
    (dir.join ⟨name⟩).endsInSlash = false := by
  have hne : name.toList ≠ [] := fun hnil => h.1 (String.toList_eq_nil_iff.mp hnil)
  have hlast : ∀ front : String, endsInSlash ⟨front ++ name⟩ = false := by
    intro front
    have hslash : name.toList.getLast? ≠ some '/' := fun hslash =>
      h.2.1 (List.mem_of_getLast? hslash)
    simpa [endsInSlash, List.getLast?_append, List.getLast?_eq_some_getLast hne] using hslash
  rw [join_name dir h]
  split <;> exact hlast _

/-! ## Faults -/

theorem fault?_eq_none_iff {p : Path} :
    p.fault? = none ↔
      '\x00' ∉ p.text.toList ∧ p.text ≠ "" ∧ p.text.utf8ByteSize ≤ lengthLimit := by
  unfold fault?
  split
  · simp_all
  split
  · simp_all
  split
  · simp_all
  · simp_all

/-- The text of a file below a directory ends in its name, behind the text of the directory. -/
theorem exists_join_text (dir : Path) {name other : String} (h : IsFileName name)
    (hother : IsFileName other) : ∃ front, '\x00' ∉ front.toList ∧
      (dir.join ⟨name⟩).text = dir.text ++ front ++ name ∧
      (dir.join ⟨other⟩).text = dir.text ++ front ++ other := by
  rw [join_name dir h, join_name dir hother]
  split
  · exact ⟨"", by decide, by simp, by simp⟩
  · exact ⟨"/", by decide, rfl, rfl⟩

/-- The directory of a file that has no fault has none. -/
theorem fault?_of_join {dir : Path} (hdir : dir.text ≠ "") {name : String} (h : IsFileName name)
    (hfault : (dir.join ⟨name⟩).fault? = none) : dir.fault? = none := by
  obtain ⟨front, -, htext, -⟩ := exists_join_text dir h h
  obtain ⟨hnul, -, hsize⟩ := fault?_eq_none_iff.mp hfault
  rw [htext, String.toList_append, String.toList_append] at hnul
  rw [htext, String.utf8ByteSize_append, String.utf8ByteSize_append] at hsize
  refine fault?_eq_none_iff.mpr ⟨fun hmem => hnul ?_, hdir, by omega⟩
  exact List.mem_append_left _ (List.mem_append_left _ hmem)

/-- A file with a shorter name has no fault either. -/
theorem fault?_join_shorter {dir : Path} {name other : String} (h : IsFileName name)
    (hother : IsFileName other) (hshort : other.utf8ByteSize ≤ name.utf8ByteSize)
    (hfault : (dir.join ⟨name⟩).fault? = none) : (dir.join ⟨other⟩).fault? = none := by
  obtain ⟨front, -, htext, htext'⟩ := exists_join_text dir h hother
  obtain ⟨hnul, -, hsize⟩ := fault?_eq_none_iff.mp hfault
  rw [htext, String.toList_append] at hnul
  rw [htext, String.utf8ByteSize_append] at hsize
  rw [fault?_eq_none_iff, htext', String.toList_append, String.utf8ByteSize_append]
  refine ⟨fun hmem => ?_, fun hempty => ?_, by omega⟩
  · rcases List.mem_append.mp hmem with hfront | hname
    · exact hnul (List.mem_append_left _ hfront)
    · exact hother.2.2.1 hname
  · exact hother.1 (String.append_eq_empty_iff.mp hempty).2

end Path

namespace FileTree

open Outcome

variable {tree later : FileTree}

/-! ## Steps -/

theorem directory_of_step {place next : Place} {segment : String}
    (h : tree.step place segment = .ok next) : tree.find? place = some .directory := by
  unfold step at h
  split at h
  · cases h
  · cases h
  · assumption

/-- A step depends on the directory that it is taken from, and on nothing else. -/
theorem step_congr {place : Place} (h : tree.find? place = later.find? place) (segment : String) :
    tree.step place segment = later.step place segment := by
  rw [step, step, h]

theorem step_name {place next : Place} {name : String} (h : Path.IsFileName name) :
    tree.step place name = .ok next ↔
      tree.find? place = some .directory ∧ name.utf8ByteSize ≤ nameLimit ∧ next = place ++ [name] := by
  unfold step
  split
  · simp_all
  · simp_all
  · rename_i hdir
    rw [if_neg h.2.2.2.1, if_neg h.2.2.2.2, hdir]
    by_cases hlong : nameLimit < name.utf8ByteSize
    · have hnot : ¬ name.utf8ByteSize ≤ nameLimit := Nat.not_le_of_lt hlong
      simp [hlong, hnot]
    · simp [hlong, Nat.le_of_not_lt hlong, eq_comm]

/-! ## Routes -/

theorem reach_eq_ok_iff {p : Path} {place : Place} :
    tree.reach p = .ok place ↔ p.fault? = none ∧ p.segments.foldlM tree.step [] = .ok place := by
  unfold reach
  split
  · simp_all
  · simp_all

/-- A tree that has all directories of another. -/
def KeepsDirectories (tree later : FileTree) : Prop :=
  ∀ place, tree.find? place = some .directory → later.find? place = some .directory

namespace KeepsDirectories

theorem refl (tree : FileTree) : KeepsDirectories tree tree :=
  fun _ h => h

theorem trans {last : FileTree} (h : KeepsDirectories tree later)
    (hlast : KeepsDirectories later last) : KeepsDirectories tree last :=
  fun place hplace => hlast place (h place hplace)

/-- Putting something where no directory is takes no directory away. -/
theorem put {place : Place} (entry : Entry) (h : tree.find? place ≠ some .directory) :
    KeepsDirectories tree (tree.put place entry) := by
  intro other hother
  have hroot : place ≠ [] := by
    rintro rfl
    exact h rfl
  have hne : ¬ place = other := by
    rintro rfl
    exact h hother
  rw [find?_put _ _ _ _ hroot, if_neg hne]
  exact hother

variable (h : KeepsDirectories tree later)
include h

theorem step {place next : Place} {segment : String} (hstep : tree.step place segment = .ok next) :
    later.step place segment = .ok next := by
  have hdir := directory_of_step hstep
  have heq : later.find? place = tree.find? place := by rw [hdir, h place hdir]
  rw [step_congr heq, hstep]

theorem walk {segments : List String} {start last : Place}
    (hwalk : segments.foldlM tree.step start = .ok last) :
    segments.foldlM later.step start = .ok last := by
  induction segments generalizing start with
  | nil => exact hwalk
  | cons segment segments ih =>
      rw [List.foldlM_cons, bind_eq_ok_iff] at hwalk ⊢
      obtain ⟨next, hnext, hrest⟩ := hwalk
      exact ⟨next, h.step hnext, ih hrest⟩

/-- **Routes stay** as long as directories do. -/
theorem reach {p : Path} {place : Place} (hreach : tree.reach p = .ok place) :
    later.reach p = .ok place := by
  rw [reach_eq_ok_iff] at hreach ⊢
  exact ⟨hreach.1, h.walk hreach.2⟩

end KeepsDirectories

/-! ## Files of a directory -/

/-- **A file of a directory** lies under its name at the place of the directory. -/
theorem reach_join {dir : Path} {name : String} (h : Path.IsFileName name) {place : Place} :
    tree.reach (dir.join ⟨name⟩) = .ok place ↔
      (dir.join ⟨name⟩).fault? = none ∧ name.utf8ByteSize ≤ nameLimit ∧
        ∃ above, dir.segments.foldlM tree.step [] = .ok above ∧
          tree.find? above = some .directory ∧ place = above ++ [name] := by
  rw [reach_eq_ok_iff, Path.segments_join dir h, List.foldlM_append]
  simp only [List.foldlM_cons, List.foldlM_nil, bind_pure, bind_eq_ok_iff, step_name h]
  constructor
  · rintro ⟨hfault, above, habove, hdir, hshort, rfl⟩
    exact ⟨hfault, hshort, above, habove, hdir, rfl⟩
  · rintro ⟨hfault, hshort, above, habove, hdir, rfl⟩
    exact ⟨hfault, above, habove, hdir, hshort, rfl⟩

/-- The directory of a file that can be reached can be reached. -/
theorem directory_of_reach_join {dir : Path} (hdir : dir.text ≠ "") {name : String}
    (h : Path.IsFileName name) {place : Place} (hreach : tree.reach (dir.join ⟨name⟩) = .ok place) :
    ∃ above, tree.reach dir = .ok above ∧ tree.find? above = some .directory := by
  obtain ⟨hfault, -, above, habove, hplace, -⟩ := (reach_join h).mp hreach
  exact ⟨above, reach_eq_ok_iff.mpr ⟨Path.fault?_of_join hdir h hfault, habove⟩, hplace⟩

/-- A file with a shorter name can be reached as well. -/
theorem reach_join_shorter {dir : Path} {name other : String} (h : Path.IsFileName name)
    (hother : Path.IsFileName other) (hshort : other.utf8ByteSize ≤ name.utf8ByteSize)
    {place : Place} (hreach : tree.reach (dir.join ⟨name⟩) = .ok place) :
    ∃ place, tree.reach (dir.join ⟨other⟩) = .ok place := by
  obtain ⟨hfault, hname, above, habove, hplace, -⟩ := (reach_join h).mp hreach
  exact ⟨above ++ [other], (reach_join hother).mpr
    ⟨Path.fault?_join_shorter h hother hshort hfault, Nat.le_trans hshort hname, above, habove, hplace,
      rfl⟩⟩

/-- Files of one directory under different names never share a place. -/
theorem reach_join_ne {dir : Path} {name other : String} (hname : Path.IsFileName name)
    (hother : Path.IsFileName other) (hne : name ≠ other) {place : Place}
    (h : tree.reach (dir.join ⟨name⟩) = .ok place) : tree.reach (dir.join ⟨other⟩) ≠ .ok place := by
  intro ho
  obtain ⟨-, -, above, -, -, rfl⟩ := (reach_join hname).mp h
  obtain ⟨-, -, otherAbove, -, -, heq⟩ := (reach_join hother).mp ho
  exact hne (List.cons.inj (List.append_inj' heq rfl).2).1

end FileTree

end MakeGraph
