import MakeGraph.Proofs.Path.Moves

/-!
# `Proofs.Path.Ways` — where the way from one path to another leads

Two paths lead to the same place if they have one `normalForm`, in which no dot and no detour is left.
The way from a directory to a path goes up from the directory and down to the path, as the components of
the two say. So it leads there as long as every step up takes back a name: a dot in front of the
directory is a component as well, and where the path does not begin with it too, the way goes up once
more for it and leads past the path (`normalForm_join_wayFrom?_iff`).

## Contents

* `advance`, `normalForm` — paths without dots and detours
* `Descends` — paths that stay below where they begin
* `moves_walk` — the moves of a way
* `normalForm_join_wayFrom?_iff` — the main result
-/

namespace MakeGraph

namespace Path

/-! ## Normal forms -/

/-- One more step. `done` is what is left of the steps before it, the last one first: a dot stays where
    it is, and `..` takes back the name before it. Nothing is above the root. -/
def advance (done : List Component) : Component → List Component
  | .root => [.root]
  | .here => done
  | .up =>
      match done with
      | .name _ :: before => before
      | [.root] => [.root]
      | _ => .up :: done
  | .name text => .name text :: done

/-- **The normal form of a path**: its components without dots and without the names that a `..` takes
    back. No file is looked at. -/
def normalForm (p : Path) : List Component :=
  (p.components.foldl advance []).reverse

example : (Path.mk "./a//b/../../c/").normalForm = [.name "c"] := by decide
example : (Path.mk "a/../../b").normalForm = [.up, .name "b"] := by decide

/-- A step that is a name. -/
def Component.IsName (step : Component) : Prop :=
  ∃ text, step = .name text

/-- Names are taken one after the other. -/
theorem foldl_advance_names {names : List Component} (h : ∀ step ∈ names, step.IsName)
    (done : List Component) : names.foldl advance done = names.reverse ++ done := by
  induction names generalizing done with
  | nil => rfl
  | cons step names ih =>
      obtain ⟨⟨text, rfl⟩, hnames⟩ := List.forall_mem_cons.mp h
      rw [List.foldl_cons, ih hnames, List.reverse_cons, List.append_assoc]
      rfl

/-- Every step up takes back one name. -/
theorem foldl_advance_up {names : List Component} (h : ∀ step ∈ names, step.IsName)
    (done : List Component) :
    (List.replicate names.length Component.up).foldl advance (names ++ done) = done := by
  induction names with
  | nil => rfl
  | cons step names ih =>
      obtain ⟨⟨text, rfl⟩, hnames⟩ := List.forall_mem_cons.mp h
      exact ih hnames

/-! ## Paths that descend -/

/-- **A path that descends**: it is relative, and no step leads up. -/
def Descends (p : Path) : Prop :=
  p.isAbsolute = false ∧ .up ∉ p.components

instance (p : Path) : Decidable p.Descends :=
  inferInstanceAs (Decidable (_ ∧ _))

section Relative

variable {p : Path}

/-- The moves of a relative path are its components without the dot. -/
theorem moves_eq_filter (h : p.isAbsolute = false) : p.moves = p.components.filter (· ≠ .here) := by
  have hmoves : p.moves.filter (· ≠ .here) = p.moves :=
    List.filter_eq_self.mpr fun step hstep => decide_eq_true (ne_of_mem_moves hstep).2
  rcases components_of_relative h with ⟨heq, -⟩ | ⟨heq, -⟩
  · rw [heq, hmoves]
  · rw [heq, List.filter_cons_of_neg (by simp), hmoves]

/-- The normal form of a relative path depends on its moves only. -/
theorem normalForm_of_relative (h : p.isAbsolute = false) :
    p.normalForm = (p.moves.foldl advance []).reverse := by
  unfold normalForm
  rcases components_of_relative h with ⟨heq, -⟩ | ⟨heq, -⟩
  · rw [heq]
  · rw [heq]
    rfl

/-- Where no step leads up, every move is a name. -/
theorem Descends.isName (h : p.Descends) : ∀ step ∈ p.moves, step.IsName := by
  intro step hstep
  obtain ⟨hroot, hhere⟩ := ne_of_mem_moves hstep
  have hup : step ≠ .up := by
    rintro rfl
    refine h.2 ?_
    rw [components_eq_moves]
    exact List.mem_append_right _ hstep
  cases step with
  | root => exact absurd rfl hroot
  | here => exact absurd rfl hhere
  | up => exact absurd rfl hup
  | name text => exact ⟨text, rfl⟩

/-- A path that descends is in normal form but for its dot. -/
theorem Descends.normalForm_eq (h : p.Descends) : p.normalForm = p.moves := by
  rw [normalForm_of_relative h.1, foldl_advance_names h.isName, List.append_nil,
    List.reverse_reverse]

end Relative

end Path

/-! ## Ways -/

namespace RootedPath

open MakeGraph.Path (Component)

section Common

variable {α : Type} [DecidableEq α]

/-- What is dropped is one beginning of both lists. -/
theorem exists_common (as bs : List α) :
    ∃ common, as = common ++ (dropCommon as bs).1 ∧ bs = common ++ (dropCommon as bs).2 := by
  induction as generalizing bs with
  | nil => exact ⟨[], rfl, rfl⟩
  | cons a as ih =>
      cases bs with
      | nil => exact ⟨[], rfl, rfl⟩
      | cons b bs =>
          by_cases heq : a = b
          · obtain ⟨common, has, hbs⟩ := ih bs
            rw [dropCommon, if_pos heq]
            exact ⟨a :: common, congrArg (a :: ·) has, by rw [heq]; exact congrArg (b :: ·) hbs⟩
          · rw [dropCommon, if_neg heq]
            exact ⟨[], rfl, rfl⟩

end Common

/-- **The dot of a directory** is left over exactly where the path does not begin with one. -/
theorem here_mem_dropCommon_iff {p start : Path} (hp : p.isAbsolute = false)
    (hstart : start.isAbsolute = false) :
    .here ∈ (dropCommon p.components start.components).2 ↔
      .here ∈ start.components ∧ .here ∉ p.components := by
  have hnone : ∀ q : Path, .here ∉ q.moves := fun q hmem => (Path.ne_of_mem_moves hmem).2 rfl
  have hrest : ∀ as : List Component, .here ∉ (dropCommon as start.moves).2 := by
    intro as hmem
    obtain ⟨common, -, hbs⟩ := exists_common as start.moves
    refine hnone start ?_
    rw [hbs]
    exact List.mem_append_right _ hmem
  rcases Path.components_of_relative hstart with ⟨hs, hdot⟩ | ⟨hs, hdot⟩
  · -- a directory without a dot in front has none to leave over
    rw [hs] at hdot ⊢
    exact iff_of_false (hrest _) fun h => hdot h.1
  · rcases Path.components_of_relative hp with ⟨ht, hdotp⟩ | ⟨ht, hdotp⟩
    · -- nothing is dropped in front of a dot that only one of them has
      have hdrop : dropCommon p.components (.here :: start.moves) =
          (p.components, .here :: start.moves) := by
        cases hcases : p.components with
        | nil => rfl
        | cons step steps =>
            rw [dropCommon, if_neg]
            rintro rfl
            exact hdotp (hcases ▸ List.mem_cons_self)
      rw [hs, hdrop]
      exact iff_of_true List.mem_cons_self ⟨List.mem_cons_self, hdotp⟩
    · have hdrop : dropCommon p.components start.components = dropCommon p.moves start.moves := by
        rw [ht, hs, dropCommon, if_pos rfl]
      rw [hdrop]
      exact iff_of_false (hrest _) fun h => h.2 hdotp

/-- Paths that are joined one after the other. -/
theorem foldl_join {α : Type} {text : α → String} {steps : List α}
    (h : ∀ step ∈ steps, Path.isAbsolute ⟨text step⟩ = false) {p : Path} (hp : p.isAbsolute = false) :
    (steps.foldl (fun dir step => dir.join ⟨text step⟩) p).isAbsolute = false ∧
      (steps.foldl (fun dir step => dir.join ⟨text step⟩) p).moves =
        p.moves ++ steps.flatMap fun step => Path.moves ⟨text step⟩ := by
  induction steps generalizing p with
  | nil => exact ⟨hp, (List.append_nil _).symm⟩
  | cons step steps ih =>
      obtain ⟨hstep, hsteps⟩ := List.forall_mem_cons.mp h
      obtain ⟨habsolute, hmoves⟩ := ih hsteps (Path.isAbsolute_join_of_relative hp hstep)
      refine ⟨habsolute, ?_⟩
      rw [List.foldl_cons, hmoves, Path.moves_join hstep, List.append_assoc]
      rfl

/-- The components that are left of a path, each as a path of its own. -/
theorem flatMap_moves_component {target : Path} (h : target.isAbsolute = false)
    {steps : List Component} (hsub : steps ⊆ target.components) :
    (∀ step ∈ steps, Path.isAbsolute ⟨step.text⟩ = false) ∧
      (steps.flatMap fun step => Path.moves ⟨step.text⟩) = steps.filter (· ≠ .here) := by
  induction steps with
  | nil => exact ⟨fun step hstep => absurd hstep List.not_mem_nil, rfl⟩
  | cons step steps ih =>
      obtain ⟨hstep, hsteps⟩ := List.cons_subset.mp hsub
      obtain ⟨hrelative, hmoves⟩ := ih hsteps
      rw [List.forall_mem_cons, List.flatMap_cons, hmoves]
      by_cases hhere : step = .here
      · subst hhere
        exact ⟨⟨by decide, hrelative⟩, rfl⟩
      · have hmove : step ∈ target.moves := by
          rw [Path.moves_eq_filter h]
          exact List.mem_filter.mpr ⟨hstep, decide_eq_true hhere⟩
        obtain ⟨habsolute, -, hone⟩ := Path.components_of_move hmove
        have hkept : (step :: steps).filter (· ≠ .here) = step :: steps.filter (· ≠ .here) :=
          List.filter_cons_of_pos (decide_eq_true hhere)
        rw [hone, hkept]
        exact ⟨⟨habsolute, hrelative⟩, rfl⟩

/-- **The moves of a way**: up once for every component of the start that is left, and then down the
    names of the target that are left. -/
theorem moves_walk {target : Path} (h : target.isAbsolute = false) (start : List Component) :
    (walk target.components start).isAbsolute = false ∧
      (walk target.components start).moves =
        List.replicate (dropCommon target.components start).2.length .up ++
          (dropCommon target.components start).1.filter (· ≠ .here) := by
  obtain ⟨common, htarget, -⟩ := exists_common target.components start
  generalize hdrop : dropCommon target.components start = left at htarget ⊢
  obtain ⟨down, up⟩ := left
  have hdown : down ⊆ target.components := by
    rw [htarget]
    exact List.subset_append_right common down
  obtain ⟨hrelative, hmoves⟩ := flatMap_moves_component h hdown
  have hup : ∀ step ∈ up, Path.isAbsolute ⟨".."⟩ = false := fun _ _ => by decide
  have hups : (up.flatMap fun _ => Path.moves ⟨".."⟩) = List.replicate up.length .up := by
    have hone : Path.moves ⟨".."⟩ = [.up] := by decide
    rw [hone, ← List.map_eq_flatMap, List.map_const']
  have hnone : Path.moves ⟨""⟩ = [] := by decide
  -- first the steps up are joined to nothing, then the steps down to them
  have hclimbed := foldl_join hup (p := ⟨""⟩) (by decide)
  have harrived := foldl_join hrelative hclimbed.1
  rw [hclimbed.2, hmoves, hups, hnone, List.nil_append] at harrived
  unfold walk
  rw [hdrop]
  dsimp only
  split
  · next hempty =>
      -- a walk of no moves is written as a dot
      refine ⟨by decide, ?_⟩
      have hdot : Path.moves ⟨"."⟩ = Path.moves ⟨""⟩ := by decide
      rw [hdot, ← harrived.2, Path.moves, Path.moves, String.isEmpty_iff.mp hempty]
  · exact harrived

/-! ## The main result -/

section Names

variable {common down up : List Component} (hdown : ∀ step ∈ down, step.IsName)
  (hup : ∀ step ∈ up, step.IsName)
include hdown hup

/-- Up once for every name of the start that is left, and then down: the names that are left of the
    target stand behind those that both have. -/
theorem foldl_advance_way (hcommon : ∀ step ∈ common, step.IsName) :
    ((common ++ up) ++ (List.replicate up.length Component.up ++ down)).foldl Path.advance [] =
      (common ++ down).reverse := by
  have hreverse : ∀ step ∈ up.reverse, step.IsName := fun step hstep =>
    hup step (List.mem_reverse.mp hstep)
  have hback := Path.foldl_advance_up hreverse common.reverse
  rw [List.length_reverse] at hback
  rw [List.foldl_append, List.foldl_append, List.foldl_append, Path.foldl_advance_names hcommon,
    Path.foldl_advance_names hup, List.append_nil, hback, Path.foldl_advance_names hdown,
    List.reverse_append]

/-- Up once more than there are names, and then down: the last step up is not taken back. -/
theorem foldl_advance_past :
    (up ++ (List.replicate (up.length + 1) Component.up ++ down)).foldl Path.advance [] =
      (.up :: down).reverse := by
  have hnil : ∀ step ∈ ([] : List Component), step.IsName := fun step hstep =>
    absurd hstep List.not_mem_nil
  have hback := foldl_advance_way hnil hup hnil
  rw [List.nil_append, List.append_nil] at hback
  rw [List.replicate_succ', List.append_assoc, ← List.append_assoc, List.foldl_append, hback,
    List.foldl_append]
  show down.foldl Path.advance [.up] = _
  rw [Path.foldl_advance_names hdown, List.reverse_cons]

end Names

section Walk

variable {target start : Path} (htarget : target.Descends) (hstart : start.Descends)
include htarget hstart

/-- The normal form of a walk from its start, in moves. -/
theorem normalForm_join_walk_eq :
    (start.join (walk target.components start.components)).normalForm =
      ((start.moves ++
        (List.replicate (dropCommon target.components start.components).2.length Component.up ++
          (dropCommon target.components start.components).1.filter (· ≠ Component.here))).foldl
            Path.advance []).reverse := by
  obtain ⟨hrelative, hmoves⟩ := moves_walk htarget.1 start.components
  rw [Path.normalForm_of_relative (Path.isAbsolute_join_of_relative hstart.1 hrelative),
    Path.moves_join hrelative, hmoves]

/-- **A walk leads to its target** if no dot of its start is left over. -/
theorem normalForm_join_walk (hdot : .here ∈ start.components → .here ∈ target.components) :
    (start.join (walk target.components start.components)).normalForm = target.normalForm := by
  rw [normalForm_join_walk_eq htarget hstart, htarget.normalForm_eq]
  have hleft := mt (here_mem_dropCommon_iff htarget.1 hstart.1).mp fun h => h.2 (hdot h.1)
  obtain ⟨common, ht, hs⟩ := exists_common target.components start.components
  generalize (dropCommon target.components start.components).1 = down at ht ⊢
  generalize (dropCommon target.components start.components).2 = up at hs hleft ⊢
  have hup : up.filter (· ≠ .here) = up := List.filter_eq_self.mpr fun step hstep =>
    decide_eq_true fun heq => hleft (heq ▸ hstep)
  have htmoves := Path.moves_eq_filter htarget.1
  have hsmoves := Path.moves_eq_filter hstart.1
  -- both paths are names: those that they share, and those that are left of each
  rw [ht, List.filter_append] at htmoves
  rw [hs, List.filter_append, hup] at hsmoves
  have htnames := htarget.isName
  have hsnames := hstart.isName
  rw [htmoves, List.forall_mem_append] at htnames
  rw [hsmoves, List.forall_mem_append] at hsnames
  rw [hsmoves, htmoves, foldl_advance_way htnames.2 hsnames.2 htnames.1, List.reverse_reverse]

/-- A dot of the start that is left over takes the walk past its target: the step up for it takes nothing
    back. -/
theorem normalForm_join_walk_past (hdot : .here ∈ start.components)
    (hnodot : .here ∉ target.components) :
    (start.join (walk target.components start.components)).normalForm =
      .up :: target.normalForm := by
  rw [normalForm_join_walk_eq htarget hstart, htarget.normalForm_eq]
  obtain ⟨common, ht, hs⟩ := exists_common target.components start.components
  generalize (dropCommon target.components start.components).1 = down at ht ⊢
  generalize (dropCommon target.components start.components).2 = up at hs ⊢
  -- the dot is the first component of the start and not of the target, so nothing is shared
  obtain ⟨rfl, rfl⟩ : common = [] ∧ up = .here :: start.moves := by
    rcases Path.components_of_relative hstart.1 with ⟨-, hnone⟩ | ⟨heq, -⟩
    · exact absurd hdot hnone
    · cases common with
      | nil => exact ⟨rfl, hs.symm.trans heq⟩
      | cons step common =>
          rw [heq, List.cons_append] at hs
          rw [ht, ← (List.cons.inj hs).1] at hnodot
          exact absurd List.mem_cons_self hnodot
  rw [List.nil_append] at ht
  rw [← ht, ← Path.moves_eq_filter htarget.1, List.length_cons,
    foldl_advance_past htarget.isName hstart.isName, List.reverse_reverse]

end Walk

/-- **The way from a directory to a path leads to the path**, unless the directory begins with a dot and
    the path does not. There is a way where the two have one root, and nowhere else. -/
theorem normalForm_join_wayFrom?_iff (p start : RootedPath) :
    (p.wayFrom? start = none ↔ p.root ≠ start.root) ∧
      (p.root = start.root → p.path.Descends → start.path.Descends →
        ∃ way, p.wayFrom? start = some way ∧
          ((start.path.join way).normalForm = p.path.normalForm ↔
            (.here ∈ start.path.components → .here ∈ p.path.components))) := by
  constructor
  · unfold wayFrom?
    split
    · next heq => exact iff_of_false (by simp) fun hne => hne heq
    · next hne => exact iff_of_true rfl hne
  · intro hroot hp hstart
    refine ⟨walk p.path.components start.path.components, if_pos hroot, ?_, ?_⟩
    · intro heq hdot
      refine Decidable.byContradiction fun hnodot => ?_
      rw [normalForm_join_walk_past hp hstart hdot hnodot] at heq
      exact List.cons_ne_self _ _ heq
    · exact normalForm_join_walk hp hstart

/-- Idle segments and dots that both paths have do not matter. -/
theorem normalForm_join_idleSegments :
    Path.Descends ⟨"./lib/.//libfoo.so"⟩ ∧ Path.Descends ⟨"./lib//bin/"⟩ ∧
      ∃ way, (build "./lib/.//libfoo.so").wayFrom? (build "./lib//bin/") = some way ∧
        (Path.join ⟨"./lib//bin/"⟩ way).normalForm = Path.normalForm ⟨"./lib/.//libfoo.so"⟩ := by
  have hp : Path.Descends ⟨"./lib/.//libfoo.so"⟩ := by decide +kernel
  have hstart : Path.Descends ⟨"./lib//bin/"⟩ := by decide +kernel
  obtain ⟨way, hway, hiff⟩ := (normalForm_join_wayFrom?_iff (build "./lib/.//libfoo.so")
    (build "./lib//bin/")).2 rfl hp hstart
  exact ⟨hp, hstart, way, hway, hiff.mpr fun _ => by decide +kernel⟩

/-- **A dot in front of the directory** costs a step up: the way from `./lib` to `lib` does not stay
    there but leads to a directory `lib` beside the one that holds both. -/
theorem wayFrom?_dottedStart :
    Path.Descends ⟨"lib"⟩ ∧ Path.Descends ⟨"./lib"⟩ ∧
      (build "lib").wayFrom? (build "./lib") = some ⟨"../../lib"⟩ ∧
      (Path.join ⟨"./lib"⟩ ⟨"../../lib"⟩).normalForm = [.up, .name "lib"] ∧
      Path.normalForm ⟨"lib"⟩ = [.name "lib"] := by
  decide +kernel

end RootedPath

end MakeGraph
