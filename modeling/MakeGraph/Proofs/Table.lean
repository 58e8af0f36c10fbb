import MakeGraph.Table

/-!
# `Proofs.Table` — tables as finite maps

`find?`, `contains` and `keys` are three views of one table. `contains_iff` ties the second to the
third, and for a table that has every key once `find?_eq_some_iff` ties the first to the entries.
`append` puts a new entry behind all others and is seen through all three views; `insert` is
described by `keys_insert` and `mem_insert`.
-/

namespace MakeGraph.Table

variable {κ ν : Type} [DecidableEq κ]

/-! ## The views of a table -/

theorem mem_of_find? {t : Table κ ν} {key : κ} {value : ν} (h : t.find? key = some value) :
    (key, value) ∈ t := by
  induction t with
  | nil => exact absurd h (by simp [find?])
  | cons entry rest ih =>
      obtain ⟨k, v⟩ := entry
      by_cases hk : k = key
      · rw [find?, if_pos hk] at h
        rw [hk, Option.some.inj h]
        exact List.mem_cons_self
      · rw [find?, if_neg hk] at h
        exact List.mem_cons_of_mem _ (ih h)

theorem contains_iff {t : Table κ ν} {key : κ} : t.contains key = true ↔ key ∈ t.keys := by
  induction t with
  | nil => simp [contains, find?, keys]
  | cons entry rest ih =>
      obtain ⟨k, v⟩ := entry
      by_cases hk : k = key
      · simp [contains, find?, keys, hk]
      · have hne : ¬ key = k := fun h => hk h.symm
        simp only [contains, keys] at ih
        simp [contains, find?, keys, hk, hne, ih]

omit [DecidableEq κ] in
theorem mem_keys_of_mem {t : Table κ ν} {key : κ} {value : ν} (h : (key, value) ∈ t) :
    key ∈ t.keys :=
  List.mem_map.mpr ⟨(key, value), h, rfl⟩

/-- In a table that has every key once, looking up finds exactly the entries. -/
theorem find?_eq_some_iff {t : Table κ ν} (ht : t.keys.Nodup) {key : κ} {value : ν} :
    t.find? key = some value ↔ (key, value) ∈ t := by
  refine ⟨mem_of_find?, ?_⟩
  induction t with
  | nil => intro h; exact absurd h (by simp)
  | cons entry rest ih =>
      obtain ⟨k, v⟩ := entry
      have hnodup : k ∉ keys rest ∧ (keys rest).Nodup := List.nodup_cons.mp ht
      intro h
      rcases List.mem_cons.mp h with heq | hrest
      · rw [Prod.mk.injEq] at heq
        rw [find?, if_pos heq.1.symm, heq.2]
      · have hne : ¬ k = key := by
          rintro rfl
          exact hnodup.1 (mem_keys_of_mem hrest)
        rw [find?, if_neg hne]
        exact ih hnodup.2 hrest

/-! ## A new entry behind all others -/

omit [DecidableEq κ] in
theorem append_eq (t : Table κ ν) (key : κ) (value : ν) :
    t.append key value = t ++ [(key, value)] :=
  rfl

omit [DecidableEq κ] in
theorem keys_append (t : Table κ ν) (key : κ) (value : ν) :
    (t.append key value).keys = t.keys ++ [key] := by
  simp [append_eq, keys]

theorem find?_append (t : Table κ ν) (key key' : κ) (value : ν) :
    (t.append key value).find? key' =
      (t.find? key').or (if key = key' then some value else none) := by
  induction t with
  | nil => simp [append_eq, find?]
  | cons entry rest ih =>
      obtain ⟨k, v⟩ := entry
      rw [append_eq] at ih ⊢
      by_cases hk : k = key'
      · simp [find?, hk]
      · simp only [List.cons_append, find?, if_neg hk]
        exact ih

theorem contains_append (t : Table κ ν) (key key' : κ) (value : ν) :
    (t.append key value).contains key' = (t.contains key' || decide (key' = key)) := by
  rw [contains, find?_append, Option.isSome_or]
  by_cases h : key' = key
  · simp [h]
  · simp [h, Ne.symm h, contains]

omit [DecidableEq κ] in
/-- A new key behind the others leaves every key once. -/
theorem nodup_keys_append {t : Table κ ν} (ht : t.keys.Nodup) {key : κ} (hk : key ∉ t.keys)
    (value : ν) : (t.append key value).keys.Nodup := by
  rw [keys_append, List.nodup_append]
  refine ⟨ht, by simp, ?_⟩
  rintro a ha b hb rfl
  exact hk (List.mem_singleton.mp hb ▸ ha)

/-! ## Writing an entry in its place -/

theorem mem_insert {t : Table κ ν} {key : κ} {value : ν} {entry : κ × ν}
    (h : entry ∈ t.insert key value) : entry = (key, value) ∨ entry ∈ t := by
  induction t with
  | nil => exact Or.inl (List.mem_singleton.mp h)
  | cons first rest ih =>
      obtain ⟨k, v⟩ := first
      by_cases hk : k = key
      · rw [insert, if_pos hk] at h
        rcases List.mem_cons.mp h with rfl | hrest
        · exact Or.inl (by rw [hk])
        · exact Or.inr (List.mem_cons_of_mem _ hrest)
      · rw [insert, if_neg hk] at h
        rcases List.mem_cons.mp h with rfl | hrest
        · exact Or.inr List.mem_cons_self
        · exact (ih hrest).imp id (List.mem_cons_of_mem _)

/-- A new key is written behind all others. -/
theorem insert_of_not_mem {t : Table κ ν} {key : κ} (h : key ∉ t.keys) (value : ν) :
    t.insert key value = t ++ [(key, value)] := by
  induction t with
  | nil => rfl
  | cons entry rest ih =>
      obtain ⟨k, v⟩ := entry
      obtain ⟨hkey, hrest⟩ := not_or.mp (mt List.mem_cons.mpr h)
      rw [insert, if_neg (Ne.symm hkey), ih hrest]
      rfl

/-- Of two entries that are written for one key, the second one stays. -/
theorem insert_insert (t : Table κ ν) (key : κ) (value other : ν) :
    (t.insert key value).insert key other = t.insert key other := by
  induction t with
  | nil => simp [insert]
  | cons entry rest ih =>
      obtain ⟨k, v⟩ := entry
      by_cases hk : k = key
      · simp [insert, hk]
      · simp [insert, hk, ih]

/-- Writing an entry leaves every key once. -/
theorem nodup_keys_insert {t : Table κ ν} (ht : t.keys.Nodup) (key : κ) (value : ν) :
    (t.insert key value).keys.Nodup := by
  rw [keys_insert]
  split
  · exact ht
  · rename_i hc
    have hk : key ∉ t.keys := fun hmem => hc (contains_iff.mpr hmem)
    rw [← keys_append t key value]
    exact nodup_keys_append ht hk value

end MakeGraph.Table
