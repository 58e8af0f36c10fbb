import MakeGraph.Text.Affix

/-!
# `Proofs.Text.Affix` — a beginning or an ending is taken off exactly when it is there
-/

namespace MakeGraph.Text

theorem dropLead?_eq_some_iff {lead text rest : String} :
    dropLead? lead text = some rest ↔ text = lead ++ rest := by
  unfold dropLead?
  rw [← String.toList_inj, String.toList_append]
  by_cases h : lead.toList.isPrefixOf text.toList = true
  · obtain ⟨cs, hcs⟩ := List.isPrefixOf_iff_prefix.mp h
    rw [if_pos h, Option.some.injEq, ← hcs, List.drop_left, List.append_cancel_left_eq,
      ← String.toList_inj, String.toList_ofList]
  · rw [if_neg h]
    refine ⟨fun hnone => (by cases hnone), fun heq => ?_⟩
    exact absurd (List.isPrefixOf_iff_prefix.mpr ⟨_, heq.symm⟩) h

theorem dropTail?_eq_some_iff {tail text front : String} :
    dropTail? tail text = some front ↔ text = front ++ tail := by
  unfold dropTail?
  rw [← String.toList_inj, String.toList_append]
  by_cases h : tail.toList.isSuffixOf text.toList = true
  · obtain ⟨cs, hcs⟩ := List.isSuffixOf_iff_suffix.mp h
    have hlength : text.toList.length - tail.toList.length = cs.length := by
      rw [← hcs, List.length_append, Nat.add_sub_cancel]
    rw [if_pos h, Option.some.injEq, hlength, ← hcs, List.take_left, List.append_cancel_right_eq,
      ← String.toList_inj, String.toList_ofList]
  · rw [if_neg h]
    refine ⟨fun hnone => (by cases hnone), fun heq => ?_⟩
    exact absurd (List.isSuffixOf_iff_suffix.mpr ⟨_, heq.symm⟩) h

end MakeGraph.Text
