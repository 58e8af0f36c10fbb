/-!
# `MakeGraph.Distinct` — the first of every kind

`distinct same` keeps the items of a list that are not the same as an earlier one, in their order.
Every item is the same as one that is kept (`exists_mem_distinct`), and nothing new comes in
(`mem_of_mem_distinct`). It agrees with the library's `List.eraseDupsBy`
(`distinct_eq_eraseDupsBy`). Where items are the same if they have the same key, their keys are the
distinct ones (`map_distinct`), and no key comes twice (`nodup_eraseDups`).
-/

namespace MakeGraph

/-- The items that are the same as none of `seen` and as no item before them. -/
def distinctFrom {α : Type} (same : α → α → Bool) : (seen : List α) → List α → List α
  | _, [] => []
  | seen, item :: items =>
      if seen.any (same item) then distinctFrom same seen items
      else item :: distinctFrom same (item :: seen) items

/-- The items that are the same as no item before them. -/
def distinct {α : Type} (same : α → α → Bool) (items : List α) : List α :=
  distinctFrom same [] items

variable {α : Type} {same : α → α → Bool}

theorem mem_of_mem_distinctFrom {seen items : List α} {x : α}
    (h : x ∈ distinctFrom same seen items) : x ∈ items := by
  induction items generalizing seen with
  | nil => simp [distinctFrom] at h
  | cons item items ih =>
    by_cases hs : seen.any (same item)
    · rw [distinctFrom, if_pos hs] at h
      exact List.mem_cons_of_mem _ (ih h)
    · rw [distinctFrom, if_neg hs] at h
      rcases List.mem_cons.1 h with rfl | h
      · exact List.mem_cons_self
      · exact List.mem_cons_of_mem _ (ih h)

theorem mem_of_mem_distinct {items : List α} {x : α} (h : x ∈ distinct same items) : x ∈ items :=
  mem_of_mem_distinctFrom h

theorem exists_mem_distinctFrom (refl : ∀ x, same x x = true) {seen items : List α} {x : α}
    (h : x ∈ items) : ∃ y, (y ∈ seen ∨ y ∈ distinctFrom same seen items) ∧ same x y = true := by
  induction items generalizing seen with
  | nil => exact absurd h (by simp)
  | cons item items ih =>
    by_cases hs : seen.any (same item)
    · rw [distinctFrom, if_pos hs]
      rcases List.mem_cons.1 h with rfl | h
      · obtain ⟨y, hy, hxy⟩ := List.any_eq_true.1 hs
        exact ⟨y, Or.inl hy, hxy⟩
      · exact ih h
    · rw [distinctFrom, if_neg hs]
      rcases List.mem_cons.1 h with rfl | h
      · exact ⟨x, Or.inr List.mem_cons_self, refl x⟩
      · obtain ⟨y, hy, hxy⟩ := @ih (item :: seen) h
        refine ⟨y, ?_, hxy⟩
        rcases hy with hy | hy
        · rcases List.mem_cons.1 hy with rfl | hy
          · exact Or.inr List.mem_cons_self
          · exact Or.inl hy
        · exact Or.inr (List.mem_cons_of_mem _ hy)

theorem exists_mem_distinct (refl : ∀ x, same x x = true) {items : List α} {x : α}
    (h : x ∈ items) : ∃ y ∈ distinct same items, same x y = true := by
  have found : ∃ y, (y ∈ [] ∨ y ∈ distinctFrom same [] items) ∧ same x y = true :=
    exists_mem_distinctFrom refl h
  obtain ⟨y, hy, hxy⟩ := found
  rcases hy with hy | hy
  · exact absurd hy (by simp)
  · exact ⟨y, hy, hxy⟩

/-- The library's loop keeps what it has seen in reverse. -/
theorem eraseDupsBy_loop_eq (same : α → α → Bool) (items seen : List α) :
    List.eraseDupsBy.loop same items seen = seen.reverse ++ distinctFrom same seen items := by
  induction items generalizing seen with
  | nil => simp [List.eraseDupsBy.loop, distinctFrom]
  | cons item items ih =>
    rw [List.eraseDupsBy.loop, distinctFrom]
    cases hs : seen.any (same item) with
    | true => exact ih seen
    | false => simp [ih]

theorem distinct_eq_eraseDupsBy (same : α → α → Bool) (items : List α) :
    distinct same items = items.eraseDupsBy same :=
  (eraseDupsBy_loop_eq same items []).symm

/-! ## Keys -/

/-- Items that are the same where their keys are equal are told apart by their keys. -/
theorem map_distinctFrom {β : Type} [BEq β] {key : α → β} {seen items : List α}
    (h : ∀ x ∈ items, ∀ y ∈ seen ++ items, same x y = (key x == key y)) :
    (distinctFrom same seen items).map key =
      distinctFrom (· == ·) (seen.map key) (items.map key) := by
  induction items generalizing seen with
  | nil => rfl
  | cons item items ih =>
    have hitem : (seen.map key).any (key item == ·) = seen.any (same item) := by
      rw [List.any_map, Bool.eq_iff_iff, List.any_eq_true, List.any_eq_true]
      refine exists_congr fun y => and_congr_right fun hy => ?_
      rw [h item List.mem_cons_self y (List.mem_append_left _ hy)]
      exact Iff.rfl
    have hrest : ∀ x ∈ items, ∀ y ∈ seen ++ items, same x y = (key x == key y) := by
      intro x hx y hy
      refine h x (List.mem_cons_of_mem _ hx) y ?_
      rcases List.mem_append.1 hy with hy | hy
      · exact List.mem_append_left _ hy
      · exact List.mem_append_right _ (List.mem_cons_of_mem _ hy)
    have hmore : ∀ x ∈ items, ∀ y ∈ (item :: seen) ++ items,
        same x y = (key x == key y) := by
      intro x hx y hy
      rcases List.mem_cons.1 hy with rfl | hy
      · exact h x (List.mem_cons_of_mem _ hx) y (List.mem_append_right _ List.mem_cons_self)
      · exact hrest x hx y hy
    rw [List.map_cons, distinctFrom, distinctFrom, hitem]
    by_cases hs : seen.any (same item)
    · rw [if_pos hs, if_pos hs]
      exact ih hrest
    · rw [if_neg hs, if_neg hs, List.map_cons, ih hmore]
      rfl

theorem map_distinct {β : Type} [BEq β] {key : α → β} {items : List α}
    (h : ∀ x ∈ items, ∀ y ∈ items, same x y = (key x == key y)) :
    (distinct same items).map key = (items.map key).eraseDups :=
  (map_distinctFrom h).trans (distinct_eq_eraseDupsBy _ _)

/-- No item is kept twice. -/
theorem nodup_eraseDups [BEq α] [LawfulBEq α] : ∀ items : List α, items.eraseDups.Nodup
  | [] => List.nodup_nil
  | item :: items => by
    have hshorter : (items.filter fun other => !other == item).length < items.length + 1 :=
      Nat.lt_succ_of_le (List.length_filter_le _ _)
    rw [List.eraseDups_cons, List.nodup_cons, List.mem_eraseDups]
    exact ⟨by simp, nodup_eraseDups _⟩
termination_by items => items.length

end MakeGraph
