import MakeGraph.Proofs.FileTree.Changes
import MakeGraph.Run.Basic

/-!
# `Proofs.Run.Effects` — effects one after the other

Every effect makes directories and writes files that it names (`Effect.dirs`, `Effect.files`),
whether it succeeds, fails or breaks off (`extends_perform`, `extends_breakOff`).

`Carried` is the relation behind `carryOut`: effects are had one after the other, up to one that
fails or breaks off. A sequence of effects changes nothing but what its effects name
(`Carried.extends_flatMap`). A sequence that ends with a replacement and fails has replaced nothing
there (`Carried.extends_of_failed`), since a file is replaced at once or not at all.
-/

namespace MakeGraph.Run

open FileTree

/-! ## Single effects -/

/-- The directories that an effect may make. -/
def Effect.dirs : Effect → List Path
  | makeDirectories builddir => builddir.ancestors
  | replace _ _ | save _ _ => []

/-- The files that an effect may write. -/
def Effect.files : Effect → List Path
  | makeDirectories _ => []
  | replace file _ | save file _ => [file]

theorem extends_perform (tree : FileTree) (effect : Effect) :
    Extends effect.dirs effect.files tree (effect.perform tree).1 := by
  have hwrite : ∀ file contents, Extends [] [file] tree
      ((Effect.replace file contents).perform tree).1 := by
    intro file contents
    simp only [Effect.perform]
    cases h : tree.write file contents with
    | ok written => exact extends_write h
    | error e => exact .refl tree
  cases effect with
  | makeDirectories builddir => exact extends_makeAlong tree builddir.ancestors
  | replace file contents => exact hwrite file contents
  | save file contents => exact hwrite file contents

theorem extends_breakOff (tree : FileTree) (progress : Nat) (effect : Effect) :
    Extends effect.dirs effect.files tree (effect.breakOff tree progress) := by
  cases effect with
  | makeDirectories builddir =>
      exact (extends_makeAlong tree _).mono (List.drop_subset _ _) (List.Subset.refl _)
  | replace file contents => exact .refl tree
  | save file contents =>
      simp only [Effect.breakOff]
      cases h : tree.write file (String.ofList (contents.toList.take progress)) with
      | ok written => exact extends_write h
      | error e => exact .refl tree

/-! ## Sequences -/

/-- How effects are had: `Carried tree effects later failure` says that they can lead from one tree
    to another, up to a failure if there is one. Where an effect breaks off, any other reason may be
    given. -/
inductive Carried : FileTree → List Effect → FileTree → Option Error → Prop where
  /-- Nothing is left to do. -/
  | done (tree : FileTree) : Carried tree [] tree none
  /-- An effect breaks off for a reason that the tree does not show. -/
  | brokeOff (tree : FileTree) (effect : Effect) (rest : List Effect) (progress : Nat)
      (cause : FileError) :
      Carried tree (effect :: rest) (effect.breakOff tree progress) (some (.effect effect cause))
  /-- An effect fails. -/
  | failed {tree later : FileTree} {effect : Effect} {cause : FileError} (rest : List Effect)
      (h : effect.perform tree = (later, some cause)) :
      Carried tree (effect :: rest) later (some (.effect effect cause))
  /-- An effect is had, and then the others. -/
  | performed {tree next later : FileTree} {effect : Effect} {rest : List Effect}
      {failure : Option Error} (h : effect.perform tree = (next, none))
      (hrest : Carried next rest later failure) : Carried tree (effect :: rest) later failure

/-- A run has its effects in this way, interrupted or not. -/
theorem carried_carryOut (tree : FileTree) (interruption : Option Interruption)
    (effects : List Effect) :
    Carried tree effects (carryOut tree interruption effects).1
      (carryOut tree interruption effects).2 := by
  induction effects generalizing tree interruption with
  | nil =>
      rw [carryOut]
      exact .done tree
  | cons effect rest ih =>
      -- unless the effect is interrupted, `next` is left of the interruption
      have hperformed : ∀ (next : Option Interruption) (outcome : FileTree × Option Error),
          (∀ later, effect.perform tree = (later, none) → outcome = carryOut later next rest) →
          (∀ later e, effect.perform tree = (later, some e) →
            outcome = (later, some (.effect effect e))) →
          Carried tree (effect :: rest) outcome.1 outcome.2 := by
        intro next outcome hdone hfailed
        rcases h : effect.perform tree with ⟨later, _ | e⟩
        · rw [hdone later h]
          exact .performed h (ih later next)
        · rw [hfailed later e h]
          exact .failed rest h
      rcases interruption with _ | ⟨_ | after, progress, reason⟩
      · exact hperformed none _ (fun later h => by rw [carryOut, h])
          fun later e h => by rw [carryOut, h]
      · rw [carryOut]
        exact .brokeOff tree effect rest progress (.refused reason)
      · exact hperformed (some ⟨after, progress, reason⟩) _ (fun later h => by rw [carryOut, h])
          fun later e h => by rw [carryOut, h]

namespace Carried

variable {effects rest : List Effect} {tree later : FileTree} {failure : Option Error}

/-- **Effects** change what they name and nothing else, however far they come. -/
theorem extends_flatMap (h : Carried tree effects later failure) :
    Extends (effects.flatMap Effect.dirs) (effects.flatMap Effect.files) tree later := by
  have hfirst : ∀ {tree later : FileTree} {effect : Effect} (rest : List Effect),
      Extends effect.dirs effect.files tree later →
      Extends ((effect :: rest).flatMap Effect.dirs) ((effect :: rest).flatMap Effect.files)
        tree later := fun rest h =>
    h.mono (List.subset_append_left _ _) (List.subset_append_left _ _)
  induction h with
  | done tree => exact .refl tree
  | brokeOff tree effect rest progress cause =>
      exact hfirst rest (extends_breakOff tree progress effect)
  | @failed tree later effect cause rest h =>
      have hextends := extends_perform tree effect
      rw [h] at hextends
      exact hfirst rest hextends
  | @performed tree next later effect rest failure h hrest ih =>
      have hextends := extends_perform tree effect
      rw [h] at hextends
      exact (hfirst rest hextends).trans
        (ih.mono (List.subset_append_right _ _) (List.subset_append_right _ _))

/-- A failure tells the effect that failed. -/
theorem exists_effect (h : Carried tree effects later failure) {e : Error}
    (he : failure = some e) : ∃ effect cause, e = .effect effect cause := by
  induction h with
  | done tree => cases he
  | brokeOff tree effect rest progress cause => exact ⟨effect, cause, (Option.some.inj he).symm⟩
  | failed rest h => exact ⟨_, _, (Option.some.inj he).symm⟩
  | performed h hrest ih => exact ih he

/-- Effects in two parts: the second part is had when the first is had completely. -/
theorem of_append (h : Carried tree (effects ++ rest) later failure) :
    (failure ≠ none ∧ Carried tree effects later failure) ∨
      ∃ middle, Carried tree effects middle none ∧ Carried middle rest later failure := by
  induction effects generalizing tree with
  | nil => exact Or.inr ⟨tree, .done tree, h⟩
  | cons effect effects ih =>
      cases h with
      | brokeOff _ _ _ progress cause =>
          exact Or.inl ⟨Option.some_ne_none _, .brokeOff tree effect effects progress cause⟩
      | failed _ hfails => exact Or.inl ⟨Option.some_ne_none _, .failed effects hfails⟩
      | performed hperforms hrest =>
          rcases ih hrest with ⟨hfailure, hfirst⟩ | ⟨middle, hfirst, hsecond⟩
          · exact Or.inl ⟨hfailure, .performed hperforms hfirst⟩
          · exact Or.inr ⟨middle, .performed hperforms hfirst, hsecond⟩

theorem not_failed_nil {e : Error} : ¬ Carried tree [] later (some e) := by
  intro h
  cases h

/-- A replacement that fails has changed nothing. -/
theorem replace_failed {file : Path} {contents : String} {e : Error}
    (h : Carried tree [.replace file contents] later (some e)) : later = tree := by
  cases h with
  | brokeOff _ _ _ progress cause => rfl
  | failed _ hfails =>
      simp only [Effect.perform] at hfails
      split at hfails
      · cases hfails
      · exact (Prod.mk.inj hfails).1.symm
  | performed hperforms hrest => cases hrest

/-- **A last replacement** is made or not: if effects that end with it fail, then its file is none
    of those that were written. -/
theorem extends_of_failed {file : Path} {contents : String} {e : Error}
    (h : Carried tree (effects ++ [.replace file contents]) later (some e)) :
    Extends (effects.flatMap Effect.dirs) (effects.flatMap Effect.files) tree later := by
  rcases h.of_append with ⟨-, hfirst⟩ | ⟨middle, hfirst, hlast⟩
  · exact hfirst.extends_flatMap
  · rw [hlast.replace_failed]
    exact hfirst.extends_flatMap

end Carried

/-! ## Sequences that succeed -/

/-- The file that an effect writes, and what it writes. -/
def Effect.written? : Effect → Option (Path × String)
  | makeDirectories _ => none
  | replace file contents | save file contents => some (file, contents)

theorem perform_of_written {effect : Effect} {file : Path} {contents : String}
    (h : effect.written? = some (file, contents)) (tree : FileTree) :
    effect.perform tree =
      match tree.write file contents with
      | .ok written => (written, none)
      | .error e => (tree, some e) := by
  cases effect with
  | makeDirectories builddir => cases h
  | replace _ _ =>
      cases h
      rfl
  | save _ _ =>
      cases h
      rfl

/-- **What an effect has written** is there in the end, unless a later effect writes to its place.
    -/
theorem Carried.read_of_written {effects : List Effect} {tree later : FileTree}
    (h : Carried tree effects later none) {before after : List Effect} {effect : Effect}
    (heffects : effects = before ++ effect :: after) {file : Path} {contents : String}
    (hwritten : effect.written? = some (file, contents))
    (hafter : ∀ place, later.reach file = .ok place →
      ∀ other ∈ after.flatMap Effect.files, later.reach other ≠ .ok place) :
    later.read file = .ok contents := by
  rw [heffects] at h
  rcases h.of_append with ⟨hfailure, -⟩ | ⟨middle, -, hrest⟩
  · exact absurd rfl hfailure
  cases hrest with
  | performed hperform hrest =>
      rw [perform_of_written hwritten] at hperform
      split at hperform
      · rename_i next hwrite
        cases hperform
        exact read_eq_ok_iff.mpr (hrest.extends_flatMap.lookUp (lookUp_of_write hwrite) hafter)
      · cases hperform

/-- **Files are written one after the other** as long as each of them can be written. -/
theorem carryOut_writes {effects : List Effect} {tree : FileTree}
    (h : ∀ effect ∈ effects, ∃ file contents,
      effect.written? = some (file, contents) ∧ Writable tree file) :
    ∃ later, carryOut tree none effects = (later, none) := by
  induction effects generalizing tree with
  | nil => exact ⟨tree, by rw [carryOut]⟩
  | cons effect rest ih =>
      obtain ⟨⟨file, contents, hwritten, hfile⟩, hrest⟩ := List.forall_mem_cons.mp h
      obtain ⟨next, hwrite⟩ := hfile.exists_write contents
      have hperform : effect.perform tree = (next, none) := by
        rw [perform_of_written hwritten, hwrite]
      have hcarry : carryOut tree none (effect :: rest) = carryOut next none rest := by
        rw [carryOut, hperform]
      rw [hcarry]
      -- the files that are left can still be written
      refine ih fun other hother => ?_
      obtain ⟨file', contents', hwritten', hfile'⟩ := hrest other hother
      exact ⟨file', contents', hwritten', hfile'.write hwrite⟩

end MakeGraph.Run
