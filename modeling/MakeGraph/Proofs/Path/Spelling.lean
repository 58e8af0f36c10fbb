import MakeGraph.Path.Rooted
import MakeGraph.Proofs.FileTree.Routes

/-!
# `Proofs.Path.Spelling` — what the text of a path says beyond its steps

A path can be spelled in many ways, since idle segments are no steps. Nothing else is lost: cutting a
text and putting it together again gives the text (`assemble_anatomy`), only the empty text has no
steps (`components_eq_nil_iff`), and a path without idle segments has the one spelling that its steps
give (`IsTidy.text_eq_spell`). So two tidy paths with the same steps are one path.
-/

namespace MakeGraph

namespace Path

/-! ## Cutting and gluing -/

theorem glue_cons {segment : List Char} {rest : List (List Char)} (h : rest ≠ []) :
    glue (segment :: rest) = segment ++ '/' :: glue rest := by
  cases rest with
  | nil => exact absurd rfl h
  | cons next rest => rfl

theorem glue_cut (cs : List Char) : glue (cut cs) = cs := by
  induction cs with
  | nil => rfl
  | cons c cs ih =>
      by_cases hc : c = '/'
      · rw [cut, if_pos hc, glue_cons (cut_ne_nil cs), ih, hc]
        rfl
      · rw [cut, if_neg hc]
        cases hcut : cut cs with
        | nil => exact absurd hcut (cut_ne_nil cs)
        | cons first rest =>
            rw [hcut] at ih
            cases rest with
            | nil => exact congrArg (c :: ·) ih
            | cons next rest => exact congrArg (c :: ·) ih

/-- **Nothing is lost** when a text is taken apart. -/
theorem assemble_anatomy (cs : List Char) : assemble (anatomy cs).1 (anatomy cs).2 = cs := by
  unfold anatomy
  split
  · exact congrArg ('/' :: ·) (glue_cut _)
  · split
    · rename_i rest hcut
      rw [assemble, ← hcut, glue_cut]
    · exact glue_cut cs

/-! ## Steps -/

theorem components_eq (p : Path) :
    p.components = (anatomy p.text.toList).1.components ++
      (anatomy p.text.toList).2.filterMap Component.ofSegment? := rfl

/-- A segment that is not idle is a step with its text. -/
theorem ofSegment?_of_not_idle {segment : List Char} (h : isIdle segment = false) :
    ∃ step, Component.ofSegment? segment = some step ∧ step.text.toList = segment ∧
      step ≠ .root := by
  unfold Component.ofSegment?
  rw [if_neg (by simp [h])]
  split
  · next hup => exact ⟨.up, rfl, hup.symm, by simp⟩
  · exact ⟨.name (String.ofList segment), rfl, String.toList_ofList, by simp⟩

/-- The first segment of a text without a slash at its front is not empty. -/
theorem cut_cons_of_ne {c : Char} (h : c ≠ '/') (cs : List Char) :
    ∃ segment rest, cut (c :: cs) = (c :: segment) :: rest := by
  rw [cut, if_neg h]
  cases cut cs with
  | nil => exact ⟨[], [], rfl⟩
  | cons segment rest => exact ⟨segment, rest, rfl⟩

/-- A text of at least one character has a step. -/
theorem components_ne_nil {p : Path} {c : Char} {cs : List Char} (h : p.text.toList = c :: cs) :
    p.components ≠ [] := by
  intro hnil
  rw [components_eq, h] at hnil
  obtain ⟨hlead, hsegments⟩ := List.append_eq_nil_iff.mp hnil
  by_cases hc : c = '/'
  · rw [hc] at hlead
    cases hlead
  · -- without a slash at its front, the text begins with a dot or with a segment that is a step
    obtain ⟨segment, rest, hcut⟩ := cut_cons_of_ne hc cs
    by_cases hdot : c :: segment = ['.']
    · have hanatomy : anatomy (c :: cs) = (.here, rest) := by
        unfold anatomy
        split
        · next heq => exact absurd (List.cons.inj heq).1 hc
        · rw [hcut, hdot]
          rfl
      rw [hanatomy] at hlead
      cases hlead
    · have hanatomy : anatomy (c :: cs) = (.plain, (c :: segment) :: rest) := by
        unfold anatomy
        split
        · next heq => exact absurd (List.cons.inj heq).1 hc
        · rw [hcut]
          split
          · next heq => exact absurd (List.cons.inj heq).1 hdot
          · rfl
      have hbusy : isIdle (c :: segment) = false := by simp [isIdle, hdot]
      obtain ⟨step, hstep, -⟩ := ofSegment?_of_not_idle hbusy
      rw [hanatomy, List.filterMap_cons_some hstep] at hsegments
      cases hsegments

/-- **Only the empty text has no steps.** -/
theorem components_eq_nil_iff {p : Path} : p.components = [] ↔ p.text = "" := by
  constructor
  · intro h
    cases hcs : p.text.toList with
    | nil => exact String.toList_eq_nil_iff.mp hcs
    | cons c cs => exact absurd h (components_ne_nil hcs)
  · intro h
    rw [components_eq, h]
    rfl

/-! ## Tidy spellings -/

/-- The plain spelling of steps. -/
def spell : List Component → List Char
  | .root :: steps => '/' :: glue (steps.map (·.text.toList))
  | steps => glue (steps.map (·.text.toList))

/-- **A tidy spelling**: no segment is idle, save the one that is left where nothing follows. -/
def IsTidy (p : Path) : Prop :=
  p.text = "" ∨ p.text = "/" ∨ ∀ segment ∈ (anatomy p.text.toList).2, isIdle segment = false

instance (p : Path) : Decidable p.IsTidy :=
  inferInstanceAs (Decidable (_ ∨ _ ∨ _))

/-- The texts of segments that are not idle are those of their steps. -/
theorem map_text_filterMap {segments : List (List Char)}
    (h : ∀ segment ∈ segments, isIdle segment = false) :
    (segments.filterMap Component.ofSegment?).map (·.text.toList) = segments := by
  induction segments with
  | nil => rfl
  | cons segment segments ih =>
      obtain ⟨hsegment, hrest⟩ := List.forall_mem_cons.mp h
      obtain ⟨step, hstep, htext, -⟩ := ofSegment?_of_not_idle hsegment
      rw [List.filterMap_cons_some hstep, List.map_cons, htext, ih hrest]

theorem spell_of_head_ne {steps : List Component} (h : steps.head? ≠ some .root) :
    spell steps = glue (steps.map (·.text.toList)) := by
  unfold spell
  split
  · exact absurd rfl h
  · rfl

/-- **A tidy path** is spelled as its steps say. -/
theorem IsTidy.text_eq_spell {p : Path} (h : p.IsTidy) : p.text.toList = spell p.components := by
  rcases h with hempty | hroot | hbusy
  · rw [components_eq_nil_iff.mpr hempty, hempty]
    rfl
  · rw [components_eq, hroot]
    rfl
  · have htexts := map_text_filterMap hbusy
    have hassembled := assemble_anatomy p.text.toList
    rw [components_eq]
    cases hlead : (anatomy p.text.toList).1 with
    | plain =>
        have hhead : ((anatomy p.text.toList).2.filterMap Component.ofSegment?).head? ≠
            some .root := by
          intro heq
          obtain ⟨segment, hsegment, hstep⟩ := List.mem_filterMap.mp (List.mem_of_head? heq)
          obtain ⟨step, hstep', -, hne⟩ := ofSegment?_of_not_idle (hbusy segment hsegment)
          exact hne (Option.some.inj (hstep'.symm.trans hstep))
        rw [hlead] at hassembled
        rw [Lead.components, List.nil_append, spell_of_head_ne hhead, htexts]
        exact hassembled.symm
    | root =>
        rw [hlead] at hassembled
        show _ = '/' :: glue (((anatomy p.text.toList).2.filterMap Component.ofSegment?).map _)
        rw [htexts]
        exact hassembled.symm
    | here =>
        rw [hlead] at hassembled
        show _ = glue (['.'] :: ((anatomy p.text.toList).2.filterMap Component.ofSegment?).map _)
        rw [htexts]
        exact hassembled.symm

/-- Two tidy paths with the same steps are one. -/
theorem IsTidy.eq_of_same {p q : Path} (hp : p.IsTidy) (hq : q.IsTidy) (h : p.Same q) : p = q := by
  have hsteps : p.components = q.components := h
  have htext : p.text = q.text := by
    rw [← String.toList_inj, hp.text_eq_spell, hq.text_eq_spell, hsteps]
  cases p
  cases q
  exact congrArg Path.mk htext

example : (Path.mk "../a/b.o").IsTidy ∧ ¬(Path.mk "a//b.o").IsTidy ∧ ¬(Path.mk "a/").IsTidy := by
  decide +kernel

end Path

namespace RootedPath

/-- The root itself is the only path without steps. -/
theorem isRootItself_iff_same {p : RootedPath} :
    p.isRootItself = true ↔ p.Same ⟨p.root, ⟨""⟩⟩ := by
  have hsteps : p.path.Same ⟨""⟩ ↔ p.path.components = [] := Iff.rfl
  unfold isRootItself Same
  rw [hsteps, Path.components_eq_nil_iff, String.isEmpty_iff]
  exact ⟨fun h => ⟨rfl, h⟩, fun h => h.2⟩

end RootedPath

end MakeGraph
