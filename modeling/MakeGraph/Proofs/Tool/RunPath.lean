import MakeGraph.Proofs.Path.Absolute
import MakeGraph.Proofs.Path.Ways
import MakeGraph.Proofs.Text.Affix
import MakeGraph.Tool.Linker
import Mathlib.Data.List.Nodup
import Mathlib.Data.Option.Basic

/-!
# `Proofs.Tool.RunPath` — where a binary looks for its shared libraries

A binary finds shared libraries when it runs by the entries of its run path. Each is spelled from
`$ORIGIN`, the directory in which the binary lies then, so it can only lead to libraries on the same root
(`libraryDirs`). There is one entry for every directory of such libraries, and it leads there
(`isRunPath_runPathEntries`).

## Contents

* `IsOrdinary` — paths that are made of names
* `originTarget?`, `destination?` — where an entry leads
* `libraryDirs`, `IsRunPath` — what the entries of a run path must be
* `isRunPath_runPathEntries` — the main result
-/

namespace MakeGraph

/-! ## Paths of names -/

namespace Path

instance (step : Component) : Decidable step.IsName :=
  match step with
  | .name text => isTrue ⟨text, rfl⟩
  | .root => isFalse fun ⟨_, h⟩ => Component.noConfusion h
  | .here => isFalse fun ⟨_, h⟩ => Component.noConfusion h
  | .up => isFalse fun ⟨_, h⟩ => Component.noConfusion h

/-- **An ordinary path** is made of names: it has no dot, leads nowhere up and is relative. -/
def IsOrdinary (p : Path) : Prop :=
  ∀ step ∈ p.components, step.IsName

instance (p : Path) : Decidable p.IsOrdinary :=
  inferInstanceAs (Decidable (∀ step ∈ p.components, step.IsName))

section Ordinary

variable {p : Path} (h : p.IsOrdinary)
include h

theorem IsOrdinary.here_not_mem : .here ∉ p.components := by
  intro hmem
  obtain ⟨text, heq⟩ := h _ hmem
  cases heq

theorem IsOrdinary.descends : p.Descends := by
  constructor
  · refine Bool.eq_false_iff.mpr fun habsolute => ?_
    obtain ⟨steps, hsteps⟩ := components_of_isAbsolute habsolute
    obtain ⟨text, heq⟩ := h .root (hsteps ▸ List.mem_cons_self)
    cases heq
  · intro hmem
    obtain ⟨text, heq⟩ := h _ hmem
    cases heq

/-- An ordinary path is in normal form. -/
theorem IsOrdinary.normalForm_eq : p.normalForm = p.components := by
  rw [h.descends.normalForm_eq]
  rcases components_of_relative h.descends.1 with ⟨heq, -⟩ | ⟨-, hdot⟩
  · exact heq.symm
  · exact absurd hdot h.here_not_mem

theorem IsOrdinary.parent : p.parent.IsOrdinary := by
  intro step hstep
  rw [components_parent] at hstep
  exact h step (List.dropLast_subset _ hstep)

end Ordinary

end Path

namespace Linker

/-! ## Entries -/

/-- Where an entry of the run path leads, for a binary in `dir`. -/
def originTarget? (dir : Path) (entry : String) : Option Path :=
  if entry = "$ORIGIN" then some dir
  else (Text.dropLead? "$ORIGIN/" entry).map fun way => dir.join ⟨way⟩

/-- The directory in which an entry of the run path finds libraries for `output`, in normal form. -/
def destination? (output : RootedPath) (entry : String) : Option (List Path.Component) :=
  (originTarget? output.parent.path entry).map Path.normalForm

example : destination? (.build "bin/prog") "$ORIGIN/../lib" = some [.name "lib"] := by decide +kernel

/-- **An entry leads** where its way leads from the directory of the binary. -/
theorem destination?_runPathText {output : RootedPath} {way : Path}
    (hdir : output.parent.path.isAbsolute = false) (hway : way.isAbsolute = false) :
    destination? output (runPathText way) = some (output.parent.path.join way).normalForm := by
  unfold destination? originTarget? runPathText
  by_cases hdot : way.text = "."
  · -- the dot adds no move
    obtain rfl : way = ⟨"."⟩ := congrArg Path.mk hdot
    have hmoves : (output.parent.path.join ⟨"."⟩).moves = output.parent.path.moves := by
      have hnone : Path.moves ⟨"."⟩ = [] := by decide
      rw [Path.moves_join hway, hnone, List.append_nil]
    rw [if_pos rfl, if_pos rfl, Option.map_some, Path.normalForm_of_relative hdir,
      Path.normalForm_of_relative (Path.isAbsolute_join_of_relative hdir hway), hmoves]
  · have hne : "$ORIGIN/" ++ way.text ≠ "$ORIGIN" := by
      intro heq
      have hlength := congrArg String.length heq
      rw [String.length_append] at hlength
      have horigin : "$ORIGIN/".length = 8 ∧ "$ORIGIN".length = 7 := by decide
      omega
    rw [if_neg hdot, if_neg hne, Text.dropLead?_eq_some_iff.mpr rfl]
    rfl

/-! ## Run paths -/

/-- The directories of the shared libraries on a root, in normal form, in the order of the libraries. -/
def libraryDirs (libs : List Library) (root : Root) : List (List Path.Component) :=
  ((sharedOnes libs).filter (·.path.root = root)).map (·.path.parent.path.normalForm)

/-- **A run path** of a binary: each directory of its shared libraries has one entry that leads there, in
    the order in which the directories come first, and there are no other entries. -/
structure IsRunPath (libs : List Library) (output : RootedPath) (entries : List String) : Prop where
  nodup : entries.Nodup
  inOrder : entries.map (destination? output) = (libraryDirs libs output.root).eraseDups.map some
  reaches : ∀ lib ∈ libs, lib.kind = .shared → lib.path.root = output.root →
    ∃! entry, entry ∈ entries ∧ destination? output entry = some lib.path.parent.path.normalForm
  comesFrom : ∀ entry ∈ entries, ∃ lib ∈ libs, lib.kind = .shared ∧ lib.path.root = output.root ∧
    destination? output entry = some lib.path.parent.path.normalForm

theorem mem_libraryDirs_iff {libs : List Library} {root : Root} {dir : List Path.Component} :
    dir ∈ libraryDirs libs root ↔ ∃ lib ∈ libs, lib.kind = .shared ∧ lib.path.root = root ∧
      lib.path.parent.path.normalForm = dir := by
  simp [libraryDirs, sharedOnes, and_assoc, and_left_comm]

/-- Entries that lead to the directories in their order are a run path. -/
theorem IsRunPath.of_inOrder {libs : List Library} {output : RootedPath} {entries : List String}
    (h : entries.map (destination? output) = (libraryDirs libs output.root).eraseDups.map some) :
    IsRunPath libs output entries := by
  have hnodup : (entries.map (destination? output)).Nodup := by
    rw [h]
    exact (nodup_eraseDups _).map (Option.some_injective _)
  -- what the entries lead to are the directories, and no two entries lead to one of them
  have hmem : ∀ dir, some dir ∈ entries.map (destination? output) ↔
      dir ∈ libraryDirs libs output.root := by
    intro dir
    rw [h, List.mem_map_of_injective (Option.some_injective _), List.mem_eraseDups]
  refine ⟨hnodup.of_map _, h, fun lib hlib hkind hroot => ?_, fun entry hentry => ?_⟩
  · have hdir := (hmem _).mpr (mem_libraryDirs_iff.mpr ⟨lib, hlib, hkind, hroot, rfl⟩)
    obtain ⟨entry, hentry, hleads⟩ := List.mem_map.mp hdir
    refine ⟨entry, ⟨hentry, hleads⟩, fun other hother => ?_⟩
    exact List.inj_on_of_nodup_map hnodup hother.1 hentry (hother.2.trans hleads.symm)
  · have hleads := List.mem_map_of_mem (f := destination? output) hentry
    obtain ⟨dir, -, hdir⟩ := List.mem_map.mp (h ▸ hleads)
    rw [← hdir] at hleads
    obtain ⟨lib, hlib, hkind, hroot, heq⟩ := mem_libraryDirs_iff.mp ((hmem dir).mp hleads)
    exact ⟨lib, hlib, hkind, hroot, by rw [← hdir, heq]⟩

/-! ## The main result -/

section Ways

variable {libs : List Library} {output : RootedPath}

/-- The way from the directory of a binary to that of a library. -/
def wayTo (output : RootedPath) (lib : Library) : Path :=
  RootedPath.walk lib.path.parent.path.components output.parent.path.components

/-- Only libraries on the root of the binary have a way. -/
theorem filterMap_wayFrom? (libs : List Library) (output : RootedPath) :
    libs.filterMap (fun lib => lib.path.parent.wayFrom? output.parent) =
      (libs.filter (·.path.root = output.root)).map (wayTo output) := by
  induction libs with
  | nil => rfl
  | cons lib libs ih =>
      have hway : lib.path.parent.wayFrom? output.parent =
          if lib.path.root = output.root then some (wayTo output lib) else none := rfl
      by_cases hroot : lib.path.root = output.root
      · rw [if_pos hroot] at hway
        rw [List.filterMap_cons, hway, List.filter_cons_of_pos (by simpa using hroot), List.map_cons,
          ← ih]
      · rw [if_neg hroot] at hway
        rw [List.filterMap_cons, hway, List.filter_cons_of_neg (by simpa using hroot), ih]

/-- The directory that a way from the directory of a binary leads to. -/
def landing (output : RootedPath) (way : Path) : List Path.Component :=
  (output.parent.path.join way).normalForm

section Ordinary

variable {lib other : Library} (houtput : output.path.IsOrdinary)
  (hlib : lib.path.path.IsOrdinary)
include houtput hlib

/-- **The way to a library leads to its directory.** -/
theorem landing_wayTo :
    (wayTo output lib).isAbsolute = false ∧
      landing output (wayTo output lib) = lib.path.parent.path.normalForm := by
  have hdir : lib.path.path.parent.IsOrdinary := hlib.parent
  have hstart : output.path.parent.IsOrdinary := houtput.parent
  refine ⟨(RootedPath.moves_walk hdir.descends.1 _).1, ?_⟩
  exact RootedPath.normalForm_join_walk hdir.descends hstart.descends fun hdot =>
    absurd hdot hstart.here_not_mem

/-- Ways to libraries are the same where the directories are. -/
theorem same_wayTo_iff (hother : other.path.path.IsOrdinary) :
    (wayTo output lib).Same (wayTo output other) ↔
      landing output (wayTo output lib) = landing output (wayTo output other) := by
  have hstart : output.path.parent.IsOrdinary := houtput.parent
  obtain ⟨hrelative, hleads⟩ := landing_wayTo houtput hlib
  obtain ⟨hrelative', hleads'⟩ := landing_wayTo houtput hother
  constructor
  · intro hsame
    have hmoves : (wayTo output lib).moves = (wayTo output other).moves := by
      rw [Path.moves_eq_filter hrelative, Path.moves_eq_filter hrelative', hsame]
    have hlanding : ∀ way : Path, way.isAbsolute = false → landing output way =
        ((output.path.parent.moves ++ way.moves).foldl Path.advance []).reverse := by
      intro way hway
      have hjoin : (output.path.parent.join way).isAbsolute = false :=
        Path.isAbsolute_join_of_relative hstart.descends.1 hway
      rw [← Path.moves_join hway, ← Path.normalForm_of_relative hjoin]
      rfl
    rw [hlanding _ hrelative, hlanding _ hrelative', hmoves]
  · intro heq
    have hdir : lib.path.path.parent.IsOrdinary := hlib.parent
    have hdir' : other.path.path.parent.IsOrdinary := hother.parent
    have hcomponents : lib.path.path.parent.components = other.path.path.parent.components := by
      rw [hleads, hleads'] at heq
      rw [← hdir.normalForm_eq, ← hdir'.normalForm_eq]
      exact heq
    have hways : wayTo output lib = wayTo output other :=
      congrArg (RootedPath.walk · output.path.parent.components) hcomponents
    rw [hways]
    exact rfl

end Ordinary

/-- **The entries lead to the directories** of libraries, in their order. -/
theorem map_distinct_wayTo (houtput : output.path.IsOrdinary)
    (hlibs : ∀ lib ∈ libs, lib.path.path.IsOrdinary) :
    ((distinct Path.same (libs.map (wayTo output))).map runPathText).map (destination? output) =
      (libs.map (·.path.parent.path.normalForm)).eraseDups.map some := by
  have hsame : ∀ way ∈ libs.map (wayTo output), ∀ other ∈ libs.map (wayTo output),
      Path.same way other = (landing output way == landing output other) := by
    intro way hway other hother
    obtain ⟨lib, hlib, rfl⟩ := List.mem_map.mp hway
    obtain ⟨lib', hlib', rfl⟩ := List.mem_map.mp hother
    have hiff := same_wayTo_iff houtput (hlibs lib hlib) (hlibs lib' hlib')
    rw [Bool.eq_iff_iff, beq_iff_eq, ← hiff]
    exact decide_eq_true_iff
  have hlandings : (libs.map (wayTo output)).map (landing output) =
      libs.map (·.path.parent.path.normalForm) := by
    rw [List.map_map]
    refine List.map_congr_left fun lib hlib => ?_
    rw [Function.comp_apply, (landing_wayTo houtput (hlibs lib hlib)).2]
  have hleads : ∀ way ∈ distinct Path.same (libs.map (wayTo output)),
      destination? output (runPathText way) = some (landing output way) := by
    intro way hway
    obtain ⟨lib, hlib, rfl⟩ := List.mem_map.mp (mem_of_mem_distinct hway)
    have hrelative := (landing_wayTo houtput (hlibs lib hlib)).1
    exact destination?_runPathText houtput.parent.descends.1 hrelative
  rw [← hlandings, ← map_distinct hsame, List.map_map, List.map_map]
  refine List.map_congr_left fun way hway => ?_
  rw [Function.comp_apply, Function.comp_apply, hleads way hway]

/-- The entries of a run path lead to the directories of shared libraries on the root of the binary. -/
theorem map_runPathEntries (houtput : output.path.IsOrdinary)
    (hlibs : ∀ lib ∈ libs, lib.path.path.IsOrdinary) :
    ((runPathEntries libs output).map runPathText).map (destination? output) =
      (libraryDirs libs output.root).eraseDups.map some := by
  have hown : ∀ lib ∈ (sharedOnes libs).filter (·.path.root = output.root),
      lib.path.path.IsOrdinary := by
    intro lib hlib
    have hshared : lib ∈ sharedOnes libs := List.mem_of_mem_filter hlib
    exact hlibs lib (List.mem_of_mem_filter hshared)
  rw [runPathEntries, filterMap_wayFrom?]
  exact map_distinct_wayTo houtput hown

/-- **The entries of a run path** are what they must be. -/
theorem isRunPath_runPathEntries (houtput : output.path.IsOrdinary)
    (hlibs : ∀ lib ∈ libs, lib.path.path.IsOrdinary) :
    IsRunPath libs output ((runPathEntries libs output).map runPathText) :=
  .of_inOrder (map_runPathEntries houtput hlibs)

end Ways

end Linker

end MakeGraph
