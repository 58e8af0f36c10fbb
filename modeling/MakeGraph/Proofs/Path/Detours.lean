import MakeGraph.Proofs.Path.Absolute
import MakeGraph.Proofs.Path.Ways

/-!
# `Proofs.Path.Detours` — what a way must hold to lead to a path

A path that is joined to a directory takes back some of its names and adds others. So what is left is a
beginning of the directory with steps of the path behind it (`branches_normalForm_join`), and every step
that the result does not share with the directory is one of the path (`Branches.down_subset`).

The text of a walk holds dots, slashes and the names that it goes down, and nothing else
(`mem_text_walk`).

## Contents

* `Branches`, `branches_normalForm_join` — where a path leads from a directory
* `Branches.down_subset` — the steps that it must have
* `mem_text_of_component`, `mem_text_walk` — the characters of paths and walks
-/

namespace MakeGraph

namespace Path

open RootedPath (dropCommon walk)

/-! ## Branches -/

/-- **Steps that branch off**: they begin as `names` do, and go on with some of `steps`. -/
def Branches (names steps result : List Component) : Prop :=
  ∃ front rest, result = front ++ rest ∧ front <+: names ∧ rest ⊆ steps

section Branches

variable {names steps result : List Component} {step : Component}

theorem Branches.push (h : Branches names steps result) (hstep : step ∈ steps) :
    Branches names steps (result ++ [step]) := by
  obtain ⟨front, rest, rfl, hfront, hrest⟩ := h
  refine ⟨front, rest ++ [step], List.append_assoc _ _ _, hfront, ?_⟩
  exact List.append_subset.mpr ⟨hrest, List.cons_subset.mpr ⟨hstep, List.nil_subset _⟩⟩

/-- What is taken back is a step that was added, or a name once all of these are gone. -/
theorem Branches.dropLast (h : Branches names steps result) : Branches names steps result.dropLast := by
  obtain ⟨front, rest, rfl, hfront, hrest⟩ := h
  by_cases hnil : rest = []
  · subst hnil
    rw [List.append_nil]
    exact ⟨front.dropLast, [], (List.append_nil _).symm, (List.dropLast_prefix front).trans hfront,
      List.nil_subset _⟩
  · rw [List.dropLast_append_of_ne_nil hnil]
    exact ⟨front, rest.dropLast, rfl, hfront, List.Subset.trans (List.dropLast_subset rest) hrest⟩

/-- One more step. -/
theorem Branches.advance {done : List Component} (h : Branches names steps done.reverse)
    (hstep : step ∈ steps) : Branches names steps (advance done step).reverse := by
  have hpush := h.push hstep
  rw [← List.reverse_cons] at hpush
  cases step with
  | root => exact ⟨[], [.root], rfl, List.nil_prefix, List.cons_subset.mpr ⟨hstep, List.nil_subset _⟩⟩
  | here => exact h
  | name text => exact hpush
  | up =>
      cases done with
      | nil => exact hpush
      | cons last before =>
          cases last with
          | name text =>
              have hback := h.dropLast
              rwa [List.reverse_cons, List.dropLast_concat] at hback
          | root =>
              cases before with
              | nil => exact h
              | cons other before => exact hpush
          | here => exact hpush
          | up => exact hpush

/-- **A path branches off** from a list of names, whatever it takes back. -/
theorem Branches.foldl_advance {more done : List Component} (h : Branches names steps done.reverse)
    (hmore : more ⊆ steps) : Branches names steps (more.foldl Path.advance done).reverse := by
  induction more generalizing done with
  | nil => exact h
  | cons step more ih =>
      obtain ⟨hstep, hrest⟩ := List.cons_subset.mp hmore
      exact ih (h.advance hstep) hrest

theorem dropCommon_append (front as bs : List Component) :
    dropCommon (front ++ as) (front ++ bs) = dropCommon as bs := by
  induction front with
  | nil => rfl
  | cons step front ih =>
      rw [List.cons_append, List.cons_append, dropCommon, if_pos rfl, ih]

/-- **A step that is not shared** with the names has been added. -/
theorem Branches.down_subset (h : Branches names steps result) :
    (dropCommon result names).1 ⊆ steps := by
  obtain ⟨front, rest, rfl, ⟨more, rfl⟩, hrest⟩ := h
  obtain ⟨common, hcommon, -⟩ := RootedPath.exists_common rest more
  rw [dropCommon_append]
  intro step hstep
  refine hrest ?_
  rw [hcommon]
  exact List.mem_append_right _ hstep

end Branches

/-- **A path that is joined to a directory** branches off from it. -/
theorem branches_normalForm_join {dir : Path} (h : dir.Descends) (way : Path) :
    Branches dir.moves way.components (dir.join way).normalForm := by
  have hmoves : way.moves ⊆ way.components := by
    rw [components_eq_moves]
    exact List.subset_append_right _ _
  cases habsolute : way.isAbsolute with
  | true =>
      -- an absolute path forgets the directory
      rw [join_eq_self habsolute]
      exact Branches.foldl_advance ⟨[], [], rfl, List.nil_prefix, List.nil_subset _⟩
        (List.Subset.refl _)
  | false =>
      rw [normalForm_of_relative (isAbsolute_join_of_relative h.1 habsolute), moves_join habsolute,
        List.foldl_append, foldl_advance_names h.isName, List.append_nil]
      refine Branches.foldl_advance ?_ hmoves
      rw [List.reverse_reverse]
      exact ⟨dir.moves, [], (List.append_nil _).symm, List.prefix_refl _, List.nil_subset _⟩

/-! ## The characters of a walk -/

theorem subset_of_mem_cut {cs segment : List Char} (h : segment ∈ cut cs) : segment ⊆ cs := by
  induction cs generalizing segment with
  | nil =>
      rw [List.mem_singleton.mp h]
      exact List.Subset.refl _
  | cons c cs ih =>
      have hlater : ∀ {other}, other ∈ cut cs → other ⊆ c :: cs := fun hother =>
        List.subset_cons_of_subset c (ih hother)
      rw [cut] at h
      split at h
      · rcases List.mem_cons.mp h with rfl | hrest
        · exact List.nil_subset _
        · exact hlater hrest
      · obtain ⟨first, rest, hcut⟩ := List.exists_cons_of_ne_nil (cut_ne_nil cs)
        rw [hcut] at h hlater
        rcases List.mem_cons.mp h with rfl | hrest
        · exact List.cons_subset.mpr ⟨List.mem_cons_self, hlater List.mem_cons_self⟩
        · exact hlater (List.mem_cons_of_mem _ hrest)

/-- A name in a path is part of its text. -/
theorem subset_text_of_name_mem {p : Path} {name : String} (h : .name name ∈ p.components) :
    name.toList ⊆ p.text.toList := by
  rw [components_eq_moves] at h
  rcases List.mem_append.mp h with hlead | hmove
  · cases hcases : (anatomy p.text.toList).1 <;> rw [hcases] at hlead <;> simp [Lead.components] at hlead
  · obtain ⟨segment, hsegment, hname⟩ := List.mem_filterMap.mp hmove
    rw [← (ofSegment?_eq_some hname).2.1] at hsegment
    exact subset_of_mem_cut hsegment

theorem mem_text_join {p q : Path} {c : Char} (h : c ∈ (p.join q).text.toList) :
    c ∈ p.text.toList ∨ c = '/' ∨ c ∈ q.text.toList := by
  unfold join at h
  split at h
  · exact .inr (.inr h)
  · split at h
    · rcases List.mem_append.mp (String.toList_append ▸ h) with h | h
      · exact .inl h
      · exact .inr (.inr h)
    · simp only [String.toList_append, List.mem_append] at h
      rcases h with (h | h) | h
      · exact .inl h
      · exact .inr (.inl (List.mem_singleton.mp h))
      · exact .inr (.inr h)

theorem mem_text_foldl_join {α : Type} (text : α → String) {steps : List α} {p : Path} {c : Char}
    (h : c ∈ (steps.foldl (fun dir step => dir.join ⟨text step⟩) p).text.toList) :
    c ∈ p.text.toList ∨ c = '/' ∨ ∃ step ∈ steps, c ∈ (text step).toList := by
  induction steps generalizing p with
  | nil => exact .inl h
  | cons step steps ih =>
      rcases ih h with h | h | ⟨other, hother, h⟩
      · rcases mem_text_join h with h | h | h
        · exact .inl h
        · exact .inr (.inl h)
        · exact .inr (.inr ⟨step, List.mem_cons_self, h⟩)
      · exact .inr (.inl h)
      · exact .inr (.inr ⟨other, List.mem_cons_of_mem _ hother, h⟩)

/-- **The text of a walk** holds dots and slashes besides the steps that it goes down. -/
theorem mem_text_walk {target start : List Component} {c : Char}
    (h : c ∈ (walk target start).text.toList) :
    c = '.' ∨ c = '/' ∨ ∃ step ∈ (dropCommon target start).1, c ∈ step.text.toList := by
  unfold walk at h
  dsimp only at h
  split at h
  · exact .inl (List.mem_singleton.mp h)
  · rcases mem_text_foldl_join _ h with h | h | h
    · rcases mem_text_foldl_join (fun _ => "..") h with h | h | ⟨step, -, h⟩
      · cases h
      · exact .inr (.inl h)
      · exact .inl (by simpa using h)
    · exact .inr (.inl h)
    · exact .inr (.inr h)

end Path

end MakeGraph
