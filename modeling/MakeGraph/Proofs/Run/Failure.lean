import MakeGraph.Proofs.FileTree.Steps
import MakeGraph.Proofs.Run.Planned
import Mathlib.Control.Monad.Basic

/-!
# `Proofs.Run.Failure` — what a failing run leaves behind

A run that fails for any other reason than one of its effects has touched nothing, and printing
never touches anything. A run whose effects fail has not replaced the Makefile, which comes last. So
what the Makefile's path led to is still there, and its place holds what it held (`run_failure`).

There is one exception, and it is not about files: making the build directory makes every directory
that its path names. If that path leads up, and passes through the place of the Makefile on its way,
as `Makefile/..` does, then a directory is made there where nothing was (`run_passingThrough`).
-/

namespace MakeGraph.Run

open FileTree
open Invocation (Command Request)

/-! ## Early failures -/

/-- Whether a failure comes before all effects. -/
def Error.isEarly : Error → Bool
  | .effect _ _ => false
  | _ => true

/-! ## Sparing a file -/

/-- A file that a run has not touched: what its path led to is still there, and the place that it
    leads to now holds what it held. If nothing lay there, the place may have become a directory,
    but only one on the way to a build directory whose path leads up somewhere. -/
structure Spared (builddir file : Path) (tree later : FileTree) : Prop where
  kept : ∀ entry, tree.lookUp file = .ok entry → later.lookUp file = .ok entry
  untouched : ∀ place, later.reach file = .ok place →
    later.find? place = tree.find? place ∨
      (tree.find? place = none ∧ later.find? place = some .directory ∧ ".." ∈ builddir.steps ∧
        ∃ above ∈ builddir.ancestors, later.reach above = .ok place)

theorem Spared.refl (builddir file : Path) (tree : FileTree) : Spared builddir file tree tree :=
  ⟨fun _ h => h, fun _ _ => Or.inl rfl⟩

/-- The Makefile shares its place with none of the files beside it. -/
theorem reach_beside_ne {tree : FileTree} {builddir file : Path}
    (hfile : file ∈ besideMakefile builddir) {place : Place}
    (h : tree.reach (makefileOf builddir) = .ok place) : tree.reach file ≠ .ok place := by
  simp only [besideMakefile, List.mem_cons, List.not_mem_nil, or_false] at hfile
  rcases hfile with rfl | rfl
  · exact reach_join_ne isFileName_makefileName isFileName_findDepsName (by decide) h
  · exact reach_join_ne isFileName_makefileName isFileName_environment (by decide) h

/-- **Whatever is written beside the Makefile spares it.** -/
theorem spared_makefile {builddir : Path} {tree later : FileTree}
    (h : Extends builddir.ancestors (besideMakefile builddir) tree later) :
    Spared builddir (makefileOf builddir) tree later where
  kept := by
    intro entry hentry
    exact h.lookUp hentry fun place hplace file hfile => reach_beside_ne hfile hplace
  untouched := by
    intro place hreach
    rcases h.find?_eq_or fun file hfile => reach_beside_ne hfile hreach with
      hsame | ⟨hnone, hdir, above, habove, hthrough⟩
    · exact Or.inl hsame
    · have hup := up_mem_steps isFileName_makefileName habove hthrough hreach
      exact Or.inr ⟨hnone, hdir, hup, above, habove, hthrough⟩

/-! ## Runs that fail -/

/-- A run that prints has no effects. -/
theorem tree_of_print (host : Host) (tree : FileTree) (interruption : Option Interruption)
    (request : Request) : (run host tree interruption (.print request)).tree = tree := by
  cases hplan : (Run.plan host (.print request)).resolve (host.read tree) with
  | error e => rw [run_of_error hplan]
  | ok made =>
      rw [run_of_ok hplan]
      obtain ⟨description, env, products, -, -, -, rfl⟩ := resolve_planRequest.mp hplan
      rw [carryOut]

/-- **A failing run.** Printing changes no file at all. Whatever a run fails for, the Makefile of
    its build directory is spared, and if it fails before all effects, nothing changes at all. -/
theorem run_failure (host : Host) (tree : FileTree) (interruption : Option Interruption) :
    (∀ request, (run host tree interruption (.print request)).tree = tree) ∧
    ∀ command e, (run host tree interruption command).result = .error e →
      (e.isEarly = true → (run host tree interruption command).tree = tree) ∧
      ∀ builddir, absolute host (builddirOf command) = .ok builddir →
        Spared builddir (makefileOf builddir) tree (run host tree interruption command).tree := by
  refine ⟨tree_of_print host tree interruption, fun command e h => ?_⟩
  rcases cases_of_failed h with hsame | ⟨plan, hplan, hcarried⟩
  · refine ⟨fun _ => hsame, fun builddir _ => ?_⟩
    rw [hsame]
    exact .refl builddir _ tree
  refine ⟨?_, ?_⟩
  · intro hearly
    obtain ⟨effect, cause, rfl⟩ := hcarried.exists_effect rfl
    cases hearly
  · intro builddir hbuilddir
    rcases fills_of_resolve hplan with hnone | ⟨filled, hfilled, before, makefile, heffects, hdirs,
      hfiles⟩
    · rw [hnone] at hcarried
      exact absurd hcarried Carried.not_failed_nil
    · obtain rfl : builddir = filled := Except.ok.inj (hbuilddir.symm.trans hfilled)
      rw [heffects] at hcarried
      exact spared_makefile (hcarried.extends_of_failed.mono hdirs hfiles)

/-! ## Two failing runs -/

/-- A machine with no variable set, seen from `/work`. -/
def bareHost : Host where
  cwd := ⟨"/work"⟩
  generator := ⟨"/bin/mkgen"⟩
  valueOf? := fun _ => none

/-- A description without any edge, and whatever else there is. -/
def projectTree (others : Table Place Entry) : FileTree :=
  ⟨[(["work"], .directory),
    (["work", "build.json"], .file "\x7b\"mkgen_version\":\"1.0.0\"\x7d")] ++ others⟩

/-- A request for that description. -/
def projectRequest (builddir : String) : Request :=
  { description := ⟨"build.json"⟩, builddir := ⟨builddir⟩ }

/-- A build directory with an old Makefile, in which no environment can be saved. -/
def unsavable : FileTree :=
  projectTree [(["work", "build"], .directory), (["work", "build", "Makefile"], .file "old"),
    (["work", "build", ".mkgen-environment.json"], .directory)]

/-- An environment that cannot be saved: the run fails and the old Makefile is spared. So it is by a
    description that is not there, where nothing changes at all. -/
theorem run_failure_unsavable :
    (∃ e, (run bareHost unsavable none (.generate (projectRequest "build"))).result = .error e ∧
      Spared ⟨"/work/build"⟩ ⟨"/work/build/Makefile"⟩ unsavable
        (run bareHost unsavable none (.generate (projectRequest "build"))).tree) ∧
    (run bareHost ⟨[]⟩ none (.generate (projectRequest "build"))).tree = ⟨[]⟩ := by
  have hfails : ∃ e,
      (run bareHost unsavable none (.generate (projectRequest "build"))).result = .error e := by
    cases h : (run bareHost unsavable none (.generate (projectRequest "build"))).result with
    | error e => exact ⟨e, rfl⟩
    | ok output =>
        have hnot : (run bareHost unsavable none
            (.generate (projectRequest "build"))).result.isOk = false := by decide +kernel
        rw [h] at hnot
        cases hnot
  obtain ⟨e, he⟩ := hfails
  have hmissing : (run bareHost ⟨[]⟩ none (.generate (projectRequest "build"))).result =
      .error (.noDescription ⟨"/work/build.json"⟩) := by decide +kernel
  exact ⟨⟨e, he, ((run_failure bareHost unsavable none).2 _ e he).2 ⟨"/work/build"⟩ (by decide)⟩,
    ((run_failure bareHost ⟨[]⟩ none).2 _ _ hmissing).1 rfl⟩

/-- **A build directory that passes through its own Makefile.** Nothing lies at the Makefile's
    place, and the run fails since a directory has been made there. -/
theorem run_passingThrough :
    let tree := projectTree []
    let outcome := run bareHost tree none (.generate (projectRequest "Makefile/.."))
    let makefile := makefileOf ⟨"/work/Makefile/.."⟩
    outcome.result.mapError Error.message =
        .error "replace /work/Makefile/../Makefile: Is a directory (os error 21)" ∧
      tree.find? ["work", "Makefile"] = none ∧ tree.lookUp makefile = .error .notFound ∧
      outcome.tree.lookUp makefile = .ok .directory := by
  decide +kernel

end MakeGraph.Run
