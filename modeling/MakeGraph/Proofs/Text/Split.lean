import Mathlib.Data.List.Basic

/-!
# `Proofs.Text.Split` — the parts of a text between separators
-/

namespace MakeGraph.Text

/-- What is in texts that are put together is in one of them or between them. -/
theorem mem_intercalate {separator : List Char} {words : List (List Char)} {c : Char}
    (h : c ∈ List.intercalate separator words) : c ∈ separator ∨ ∃ word ∈ words, c ∈ word := by
  induction words with
  | nil => exact absurd h List.not_mem_nil
  | cons word words ih =>
      cases words with
      | nil =>
          rw [List.intercalate_singleton] at h
          exact .inr ⟨word, List.mem_cons_self, h⟩
      | cons next words =>
          rw [List.intercalate_cons_cons, List.append_assoc, List.mem_append, List.mem_append] at h
          rcases h with h | h | h
          · exact .inr ⟨word, List.mem_cons_self, h⟩
          · exact .inl h
          · exact (ih h).imp_right fun ⟨found, hfound, hc⟩ =>
              ⟨found, List.mem_cons_of_mem word hfound, hc⟩

section Parts

variable {separator : Char} {text part : List Char}

/-- No part holds the separator. -/
theorem separator_not_mem_of_mem_splitOn (h : part ∈ text.splitOn separator) : separator ∉ part := by
  induction text generalizing part with
  | nil =>
      obtain rfl : part = [] := by simpa using h
      exact List.not_mem_nil
  | cons c text ih =>
      rw [List.splitOn_cons_eq_if_modifyHead] at h
      split at h
      · rcases List.mem_cons.mp h with rfl | hrest
        · exact List.not_mem_nil
        · exact ih hrest
      · next hc =>
          obtain ⟨first, rest, hparts⟩ := List.exists_cons_of_ne_nil (List.splitOn_ne_nil separator text)
          rw [hparts, List.modifyHead_cons] at h
          have hall : ∀ part ∈ first :: rest, separator ∉ part := by
            rw [← hparts]
            exact fun part hpart => ih hpart
          rcases List.mem_cons.mp h with rfl | hrest
          · intro hmem
            rcases List.mem_cons.mp hmem with hnew | hold
            · exact hc (by simp [← hnew])
            · exact hall first List.mem_cons_self hold
          · exact hall part (List.mem_cons_of_mem _ hrest)

/-- A part is made of the text. -/
theorem subset_of_mem_splitOn (h : part ∈ text.splitOn separator) : part ⊆ text := by
  have hsub : ∀ {parts : List (List Char)}, part ∈ parts → part ⊆ [separator].intercalate parts := by
    intro parts hpart
    induction parts with
    | nil => cases hpart
    | cons first parts ih =>
        cases parts with
        | nil =>
            rw [List.intercalate_singleton, List.mem_singleton.mp hpart]
            exact List.Subset.refl _
        | cons next parts =>
            rw [List.intercalate_cons_cons]
            rcases List.mem_cons.mp hpart with rfl | hrest
            · exact List.subset_append_of_subset_left _ (List.subset_append_left _ _)
            · exact List.subset_append_of_subset_right _ (ih hrest)
  have hwhole := hsub h
  rwa [List.intercalate_splitOn] at hwhole

end Parts

/-- The parts of a text between separators. -/
def splitAt (separator : Char) (text : String) : List String :=
  (text.toList.splitOn separator).map String.ofList

example : splitAt ':' "a::b" = ["a", "", "b"] := by decide

section Strings

variable {separator : Char} {text part : String}

theorem mem_splitAt (h : part ∈ splitAt separator text) :
    separator ∉ part.toList ∧ part.toList ⊆ text.toList := by
  obtain ⟨chars, hchars, rfl⟩ := List.mem_map.mp h
  rw [String.toList_ofList]
  exact ⟨separator_not_mem_of_mem_splitOn hchars, subset_of_mem_splitOn hchars⟩

/-- A text without separators is one part. -/
theorem splitAt_of_not_mem (h : separator ∉ text.toList) : splitAt separator text = [text] := by
  rw [splitAt, List.splitOn_eq_singleton h, List.map_singleton, String.ofList_toList]

/-- Parts without separators are found again. -/
theorem splitAt_intercalate {parts : List String} (hne : parts ≠ [])
    (h : ∀ part ∈ parts, separator ∉ part.toList) :
    splitAt separator (String.intercalate (String.singleton separator) parts) = parts := by
  have hchars : ∀ chars ∈ parts.map String.toList, separator ∉ chars := by
    intro chars hmem
    obtain ⟨part, hpart, rfl⟩ := List.mem_map.mp hmem
    exact h part hpart
  rw [splitAt, String.toList_intercalate, String.toList_singleton,
    List.splitOn_intercalate separator hchars (mt List.map_eq_nil_iff.mp hne), List.map_map]
  exact (List.map_congr_left fun part _ => String.ofList_toList).trans (List.map_id parts)

end Strings

end MakeGraph.Text
