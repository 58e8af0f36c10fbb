import MakeGraph.Proofs.FileTree.Routes
import MakeGraph.Proofs.Table

/-!
# `Proofs.FileTree.Changes` — what making directories and writing files changes

`Extends dirs files tree later` says everything that may differ between a tree and a later one: a
directory was made where nothing lay, at the place of one of `dirs`, or a file was written at the
place of one of `files`. Every single change is of this kind (`makeDirectory`, `makeAlong`,
`write`), and so is one change after another (`Extends.trans`), since routes stay.
-/

namespace MakeGraph.FileTree

open Outcome

variable {tree later : FileTree}

/-! ## Single changes -/

theorem makeDirectory_eq_ok_iff {p : Path} :
    tree.makeDirectory p = .ok later ↔
      ∃ place, tree.reach p = .ok place ∧ tree.find? place = none ∧
        later = tree.put place .directory := by
  unfold makeDirectory
  simp only [bind_eq_ok_iff]
  refine exists_congr fun place => and_congr_right fun _ => ?_
  cases tree.find? place <;> simp [eq_comm]

theorem write_eq_ok_iff {p : Path} {contents : String} :
    tree.write p contents = .ok later ↔
      ∃ place, tree.reach p = .ok place ∧ p.endsInSlash = false ∧
        tree.find? place ≠ some .directory ∧ later = tree.put place (.file contents) := by
  unfold write
  simp only [bind_eq_ok_iff]
  refine exists_congr fun place => and_congr_right fun _ => ?_
  by_cases hslash : p.endsInSlash = true <;> by_cases hdir : tree.find? place = some .directory <;>
    simp [hslash, hdir, eq_comm]

theorem find?_root (tree : FileTree) : tree.find? [] = some .directory :=
  rfl

/-- A place without a directory is not the root. -/
theorem ne_root {place : Place} (h : tree.find? place ≠ some .directory) : place ≠ [] := by
  rintro rfl
  exact h tree.find?_root

/-! ## What may have changed -/

/-- What may have changed: directories were made where some of `dirs` lead, files were written where
    some of `files` lead. -/
structure Extends (dirs files : List Path) (tree later : FileTree) : Prop where
  /-- Every directory is still there. -/
  directories : KeepsDirectories tree later
  /-- What lies at a place is what lay there, or it was made or written. -/
  frame : ∀ place, later.find? place = tree.find? place ∨
    (tree.find? place = none ∧ later.find? place = some .directory ∧
      ∃ p ∈ dirs, later.reach p = .ok place) ∨
    ∃ p ∈ files, later.reach p = .ok place

namespace Extends

variable {dirs files : List Path}

theorem refl (tree : FileTree) : Extends dirs files tree tree :=
  ⟨.refl tree, fun _ => Or.inl rfl⟩

theorem mono {moreDirs moreFiles : List Path} (h : Extends dirs files tree later)
    (hdirs : dirs ⊆ moreDirs) (hfiles : files ⊆ moreFiles) :
    Extends moreDirs moreFiles tree later := by
  refine ⟨h.directories, fun place => ?_⟩
  rcases h.frame place with hsame | ⟨hnone, hdir, p, hp, hreach⟩ | ⟨p, hp, hreach⟩
  · exact Or.inl hsame
  · exact Or.inr (Or.inl ⟨hnone, hdir, p, hdirs hp, hreach⟩)
  · exact Or.inr (Or.inr ⟨p, hfiles hp, hreach⟩)

/-- One change after another. -/
theorem trans {last : FileTree} (h : Extends dirs files tree later)
    (hlast : Extends dirs files later last) : Extends dirs files tree last := by
  refine ⟨h.directories.trans hlast.directories, fun place => ?_⟩
  rcases hlast.frame place with hsame | ⟨hnone, hdir, p, hp, hreach⟩ | hwritten
  · rw [hsame]
    rcases h.frame place with heq | ⟨hnone, hdir, p, hp, hreach⟩ | ⟨p, hp, hreach⟩
    · exact Or.inl heq
    · exact Or.inr (Or.inl ⟨hnone, hdir, p, hp, hlast.directories.reach hreach⟩)
    · exact Or.inr (Or.inr ⟨p, hp, hlast.directories.reach hreach⟩)
  · rcases h.frame place with heq | ⟨-, hmade, -⟩ | ⟨p', hp', hreach'⟩
    · exact Or.inr (Or.inl ⟨heq ▸ hnone, hdir, p, hp, hreach⟩)
    -- a directory that was made is still there, so nothing new can be made in its place
    · exact absurd hmade (by simp [hnone])
    · exact Or.inr (Or.inr ⟨p', hp', hlast.directories.reach hreach'⟩)
  · exact Or.inr (Or.inr hwritten)

/-- A place that no written file has keeps what lay there, or has become a directory. -/
theorem find?_eq_or (h : Extends dirs files tree later) {place : Place}
    (hfiles : ∀ p ∈ files, later.reach p ≠ .ok place) :
    later.find? place = tree.find? place ∨
      (tree.find? place = none ∧ later.find? place = some .directory ∧
        ∃ p ∈ dirs, later.reach p = .ok place) := by
  rcases h.frame place with hsame | hmade | ⟨p, hp, hreach⟩
  · exact Or.inl hsame
  · exact Or.inr hmade
  · exact absurd hreach (hfiles p hp)

/-- What lay at a place that no written file has still lies there. -/
theorem find?_eq_some (h : Extends dirs files tree later) {place : Place} {entry : Entry}
    (hentry : tree.find? place = some entry)
    (hfiles : ∀ p ∈ files, later.reach p ≠ .ok place) : later.find? place = some entry := by
  rcases h.find?_eq_or hfiles with hsame | ⟨hnone, -⟩
  · rw [hsame, hentry]
  · rw [hentry] at hnone
    cases hnone

end Extends

/-! ## Making directories -/

theorem extends_makeDirectory {p : Path} (h : tree.makeDirectory p = .ok later) :
    Extends [p] [] tree later := by
  obtain ⟨place, hreach, hnone, rfl⟩ := makeDirectory_eq_ok_iff.mp h
  have hdir : tree.find? place ≠ some .directory := by simp [hnone]
  have hkeeps := KeepsDirectories.put .directory hdir
  refine ⟨hkeeps, fun other => ?_⟩
  rw [find?_put _ _ _ _ (ne_root hdir)]
  split
  · rename_i heq
    subst heq
    exact Or.inr (Or.inl ⟨hnone, rfl, p, List.mem_singleton_self p, hkeeps.reach hreach⟩)
  · exact Or.inl rfl

/-- **Making directories** along some paths makes nothing but directories where these paths lead,
    however far it comes. -/
theorem extends_makeAlong (tree : FileTree) (dirs : List Path) :
    Extends dirs [] tree (tree.makeAlong dirs).1 := by
  induction dirs with
  | nil => exact .refl tree
  | cons p parents ih =>
      have hparents : Extends (p :: parents) [] tree (tree.makeAlong parents).1 :=
        ih.mono (List.subset_cons_self p parents) (List.Subset.refl _)
      have hlast : ∀ {tree later : FileTree}, tree.makeDirectory p = .ok later →
          Extends (p :: parents) [] tree later := fun h =>
        (extends_makeDirectory h).mono (by simp) (List.Subset.refl _)
      rw [makeAlong]
      split
      · rename_i made hmade
        exact hlast hmade
      -- there is no way to the directory yet, so its parents are made first
      · cases hmore : tree.makeAlong parents with
        | mk more failure =>
            rw [hmore] at hparents
            cases failure with
            | some e => exact hparents
            | none =>
                simp only
                split
                · rename_i made hmade
                  exact hparents.trans (hlast hmade)
                · exact hparents
      · exact .refl tree

/-! ## Writing files -/

theorem extends_write {p : Path} {contents : String} (h : tree.write p contents = .ok later) :
    Extends [] [p] tree later := by
  obtain ⟨place, hreach, -, hdir, rfl⟩ := write_eq_ok_iff.mp h
  have hkeeps := KeepsDirectories.put (.file contents) hdir
  refine ⟨hkeeps, fun other => ?_⟩
  rw [find?_put _ _ _ _ (ne_root hdir)]
  split
  · rename_i heq
    subst heq
    exact Or.inr (Or.inr ⟨p, List.mem_singleton_self p, hkeeps.reach hreach⟩)
  · exact Or.inl rfl

/-! ## Looking at a file again -/

theorem lookUp_eq_ok_iff {p : Path} {entry : Entry} :
    tree.lookUp p = .ok entry ↔
      ∃ place, tree.reach p = .ok place ∧ tree.find? place = some entry ∧
        (p.endsInSlash = true → entry = .directory) := by
  unfold lookUp
  simp only [bind_eq_ok_iff]
  refine exists_congr fun place => and_congr_right fun _ => ?_
  cases hfound : tree.find? place with
  | none => simp
  | some found =>
      cases found with
      | directory =>
          constructor
          · intro h
            cases h
            exact ⟨rfl, fun _ => rfl⟩
          · rintro ⟨h, -⟩
            cases h
            rfl
      | file contents =>
          by_cases hslash : p.endsInSlash = true
          · simp only [hslash, if_true, forall_const]
            constructor
            · intro h
              cases h
            · rintro ⟨h, rfl⟩
              cases h
          · simp [hslash]

theorem read_eq_ok_iff {p : Path} {contents : String} :
    tree.read p = .ok contents ↔ tree.lookUp p = .ok (.file contents) := by
  unfold read
  rw [bind_eq_ok_iff]
  constructor
  · rintro ⟨entry, hentry, hread⟩
    cases entry with
    | directory => cases hread
    | file found =>
        cases hread
        exact hentry
  · intro h
    exact ⟨_, h, rfl⟩

/-- What a path led to is still there, unless a file was written to its place. -/
theorem Extends.lookUp {dirs files : List Path} (h : Extends dirs files tree later) {p : Path}
    {entry : Entry} (hentry : tree.lookUp p = .ok entry)
    (hfiles : ∀ place, later.reach p = .ok place → ∀ q ∈ files, later.reach q ≠ .ok place) :
    later.lookUp p = .ok entry := by
  obtain ⟨place, hreach, hfind, hslash⟩ := lookUp_eq_ok_iff.mp hentry
  have hlater := h.directories.reach hreach
  exact lookUp_eq_ok_iff.mpr ⟨place, hlater, h.find?_eq_some hfind (hfiles place hlater), hslash⟩

/-- A file that was written is there. -/
theorem lookUp_of_write {p : Path} {contents : String} (h : tree.write p contents = .ok later) :
    later.lookUp p = .ok (.file contents) := by
  obtain ⟨place, hreach, hslash, hdir, rfl⟩ := write_eq_ok_iff.mp h
  have hlater := (KeepsDirectories.put (.file contents) hdir).reach hreach
  refine lookUp_eq_ok_iff.mpr ⟨place, hlater, ?_, fun h => ?_⟩
  · rw [find?_put _ _ _ _ (ne_root hdir), if_pos rfl]
  · rw [hslash] at h
    cases h

/-- **Every file is still there** after a file was written, unless it is that file. -/
theorem read_of_write {p q : Path} {contents text : String} (h : tree.write p contents = .ok later)
    (hread : tree.read q = .ok text) : later.read q = .ok contents ∨ later.read q = .ok text := by
  obtain ⟨written, -, -, hdir, rfl⟩ := write_eq_ok_iff.mp h
  obtain ⟨place, hreach, hfind, hslash⟩ := lookUp_eq_ok_iff.mp (read_eq_ok_iff.mp hread)
  have hlater := (KeepsDirectories.put (.file contents) hdir).reach hreach
  have hfound := find?_put tree written place (.file contents) (ne_root hdir)
  by_cases hplace : written = place
  · refine .inl (read_eq_ok_iff.mpr (lookUp_eq_ok_iff.mpr ⟨place, hlater, ?_, fun hend => ?_⟩))
    · rw [hfound, if_pos hplace]
    · cases hslash hend
  · refine .inr (read_eq_ok_iff.mpr (lookUp_eq_ok_iff.mpr ⟨place, hlater, ?_, hslash⟩))
    rw [hfound, if_neg hplace, hfind]

/-- Writing a file once more changes nothing. -/
theorem write_of_write {p : Path} {contents : String} (h : tree.write p contents = .ok later) :
    later.write p contents = .ok later := by
  obtain ⟨place, hreach, hslash, hdir, rfl⟩ := write_eq_ok_iff.mp h
  have hlater := (KeepsDirectories.put (.file contents) hdir).reach hreach
  refine write_eq_ok_iff.mpr ⟨place, hlater, hslash, ?_, ?_⟩
  · rw [find?_put _ _ _ _ (ne_root hdir), if_pos rfl]
    exact nofun
  · exact congrArg FileTree.mk (Table.insert_insert tree.entries place _ _).symm

/-! ## Changes that succeed -/

/-- A path where a file can be written: there is a way to it and no directory in its place. -/
structure Writable (tree : FileTree) (p : Path) : Prop where
  reachable : ∃ place, tree.reach p = .ok place
  noSlash : p.endsInSlash = false
  noDirectory : tree.lookUp p ≠ .ok .directory

theorem Writable.exists_write {p : Path} (h : Writable tree p) (contents : String) :
    ∃ later, tree.write p contents = .ok later := by
  obtain ⟨place, hreach⟩ := h.reachable
  refine ⟨_, write_eq_ok_iff.mpr ⟨place, hreach, h.noSlash, fun hplace => h.noDirectory ?_, rfl⟩⟩
  exact lookUp_eq_ok_iff.mpr ⟨place, hreach, hplace, fun _ => rfl⟩

/-- Writing a file takes no other file its way and puts no directory in its place. -/
theorem Writable.write {p q : Path} {contents : String} (hq : Writable tree q)
    (h : tree.write p contents = .ok later) : Writable later q := by
  obtain ⟨place, hreach⟩ := hq.reachable
  have hlater := (extends_write h).directories.reach hreach
  refine ⟨⟨place, hlater⟩, hq.noSlash, fun hdir => hq.noDirectory ?_⟩
  obtain ⟨written, -, -, hwritten, rfl⟩ := write_eq_ok_iff.mp h
  obtain ⟨place', hreach', hfind, hslash⟩ := lookUp_eq_ok_iff.mp hdir
  obtain rfl : place = place' := Except.ok.inj (hlater.symm.trans hreach')
  rw [find?_put _ _ _ _ (ne_root hwritten)] at hfind
  split at hfind
  · cases hfind
  · exact lookUp_eq_ok_iff.mpr ⟨place, hreach, hfind, hslash⟩

/-- A directory that is there need not be made. -/
theorem makeDirectories_of_directory {p : Path} (h : tree.lookUp p = .ok .directory) :
    tree.makeDirectories p = (tree, none) := by
  obtain ⟨place, hreach, hfind, -⟩ := lookUp_eq_ok_iff.mp h
  unfold makeDirectories Path.ancestors
  cases p.components.length with
  | zero => rfl
  | succ n =>
      have hthere : tree.makeDirectory p = .error .alreadyExists := by
        simp [makeDirectory, hreach, hfind, bind, Except.bind]
      have hdir : tree.isDirectory p = true := by
        rw [isDirectory, h]
      rw [Path.parents, makeAlong, hthere]
      simp [hdir]

end MakeGraph.FileTree
