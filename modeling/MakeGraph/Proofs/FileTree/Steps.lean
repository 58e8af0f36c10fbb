import MakeGraph.Proofs.FileTree.Routes

/-!
# `Proofs.FileTree.Steps` — the way that a path describes

The `steps` of a path are its segments without those that lead nowhere. The steps of its parents are
the first of its own (`steps_of_mem_ancestors`), however the path is spelled. If no step leads up,
then the place of a path is its steps (`reach_eq_steps`), so places lie below each other as paths
do.
-/

namespace MakeGraph

namespace Path

/-- The segments of a path without those that stay where they are. -/
def steps (p : Path) : List String :=
  p.segments.filter (· ≠ ".")

/-! ## Idle segments -/

/-- The texts of the segments that are not idle. -/
def busy (segments : List (List Char)) : List String :=
  (segments.filter (!isIdle ·)).map String.ofList

theorem steps_eq_busy (p : Path) : p.steps = busy (cut p.text.toList) := by
  have hdot : ∀ segment : List Char, String.ofList segment = "." ↔ segment = ['.'] := by
    intro segment
    rw [← String.toList_inj, String.toList_ofList]
    rfl
  rw [steps, segments, List.filter_map, List.filter_filter, busy]
  congr 1
  refine List.filter_congr fun segment _ => ?_
  by_cases hempty : segment = []
  · simp [isIdle, hempty]
  · simp [isIdle, hempty, hdot]

theorem busy_append (front back : List (List Char)) :
    busy (front ++ back) = busy front ++ busy back := by
  simp [busy]

theorem busy_of_idle {segment : List Char} (h : isIdle segment = true)
    (segments : List (List Char)) : busy (segment :: segments) = busy segments := by
  simp [busy, h]

/-- Idle segments at the end do not count. -/
theorem busy_trimEnd (segments : List (List Char)) : busy (trimEnd segments) = busy segments := by
  have hreverse : ∀ segments : List (List Char),
      busy (segments.dropWhile isIdle).reverse = busy segments.reverse := by
    intro segments
    induction segments with
    | nil => rfl
    | cons segment segments ih =>
        by_cases hidle : isIdle segment = true
        · rw [List.dropWhile_cons_of_pos hidle, ih, List.reverse_cons, busy_append,
            busy_of_idle hidle]
          exact (List.append_nil _).symm
        · rw [List.dropWhile_cons_of_neg hidle]
  rw [trimEnd, hreverse, List.reverse_reverse]

/-- What a path begins with does not count. -/
theorem busy_anatomy (cs : List Char) : busy (anatomy cs).2 = busy (cut cs) := by
  unfold anatomy
  split
  · rw [cut, if_pos rfl, busy_of_idle (by decide)]
  · split
    · rename_i rest hcut
      rw [hcut, busy_of_idle (by decide)]
    · rfl

/-! ## Putting segments together -/

theorem slash_notMem_cut {cs segment : List Char} (h : segment ∈ cut cs) : '/' ∉ segment := by
  induction cs generalizing segment with
  | nil =>
      rw [List.mem_singleton.mp h]
      exact List.not_mem_nil
  | cons c cs ih =>
      by_cases hc : c = '/'
      · rw [cut, if_pos hc] at h
        rcases List.mem_cons.mp h with rfl | hrest
        · exact List.not_mem_nil
        · exact ih hrest
      · rw [cut, if_neg hc] at h
        cases hcut : cut cs with
        | nil => exact absurd hcut (cut_ne_nil cs)
        | cons first rest =>
            rw [hcut] at h ih
            rcases List.mem_cons.mp h with rfl | hrest
            · have hfirst := ih List.mem_cons_self
              exact fun hmem => (List.mem_cons.mp hmem).elim (fun heq => hc heq.symm) hfirst
            · exact ih (List.mem_cons_of_mem _ hrest)

theorem cut_glue {segments : List (List Char)} (hne : segments ≠ [])
    (h : ∀ segment ∈ segments, '/' ∉ segment) : cut (glue segments) = segments := by
  induction segments with
  | nil => exact absurd rfl hne
  | cons segment rest ih =>
      obtain ⟨hsegment, hrest⟩ := List.forall_mem_cons.mp h
      cases rest with
      | nil => exact cut_of_notMem hsegment
      | cons next rest =>
          have hglue : glue (segment :: next :: rest) = segment ++ '/' :: glue (next :: rest) := rfl
          rw [hglue, cut_slash, cut_of_notMem hsegment, ih (List.cons_ne_nil _ _) hrest]
          rfl

/-- Segments that are put together, behind whatever lead, are cut as they were. -/
theorem busy_cut_assemble (lead : Lead) {segments : List (List Char)}
    (h : ∀ segment ∈ segments, '/' ∉ segment) :
    busy (cut (assemble lead segments)) = busy segments := by
  have hglue : busy (cut (glue segments)) = busy segments := by
    by_cases hne : segments = []
    · rw [hne]
      rfl
    · rw [cut_glue hne h]
  cases lead with
  | plain => exact hglue
  | root =>
      rw [assemble, cut, if_pos rfl, busy_of_idle (by decide), hglue]
  | here =>
      have hall : ∀ segment ∈ ['.'] :: segments, '/' ∉ segment :=
        List.forall_mem_cons.mpr ⟨by decide, h⟩
      rw [assemble, cut_glue (List.cons_ne_nil _ _) hall, busy_of_idle (by decide)]

/-! ## Parents -/

theorem slash_notMem_anatomy {cs segment : List Char} (h : segment ∈ (anatomy cs).2) :
    '/' ∉ segment := by
  unfold anatomy at h
  split at h
  · exact slash_notMem_cut h
  · split at h
    · rename_i rest hcut
      exact slash_notMem_cut (hcut ▸ List.mem_cons_of_mem _ h)
    · exact slash_notMem_cut h

theorem mem_of_mem_trimEnd {segments : List (List Char)} {segment : List Char}
    (h : segment ∈ trimEnd segments) : segment ∈ segments := by
  rw [trimEnd, List.mem_reverse] at h
  exact List.mem_reverse.mp ((List.dropWhile_sublist _).mem h)

/-- **The steps of the parent** of a path are the first of its own. -/
theorem steps_parent (p : Path) : p.parent.steps <+: p.steps := by
  have hsteps : p.steps = busy (trimEnd (anatomy p.text.toList).2) := by
    rw [busy_trimEnd, busy_anatomy, steps_eq_busy]
  have hslash : ∀ segment ∈ (anatomy p.text.toList).2, '/' ∉ segment :=
    fun segment h => slash_notMem_anatomy h
  unfold parent
  cases hanatomy : anatomy p.text.toList with
  | mk lead segments =>
      rw [hanatomy] at hsteps hslash
      simp only
      split
      · rw [steps_eq_busy]
        exact List.nil_prefix
      · have hkept : ∀ segment ∈ trimEnd (trimEnd segments).dropLast, '/' ∉ segment := by
          intro segment hmem
          have hdrop := mem_of_mem_trimEnd hmem
          exact hslash segment (mem_of_mem_trimEnd (List.dropLast_subset _ hdrop))
        rw [steps_eq_busy, String.toList_ofList, busy_cut_assemble lead hkept, busy_trimEnd, hsteps]
        exact ((List.dropLast_prefix _).filter _).map _

theorem steps_of_mem_ancestors {p above : Path} (h : above ∈ p.ancestors) :
    above.steps <+: p.steps := by
  have hparents : ∀ (n : Nat) (q : Path), above ∈ parents n q → above.steps <+: q.steps := by
    intro n
    induction n with
    | zero => intro q h; cases h
    | succ n ih =>
        intro q h
        rcases List.mem_cons.mp h with rfl | h
        · exact List.prefix_rfl
        · exact (ih q.parent h).trans (steps_parent q)
  exact hparents _ p h

/-- The steps of a file below a directory are those of the directory, and its name. -/
theorem steps_join (dir : Path) {name : String} (h : IsFileName name) :
    (dir.join ⟨name⟩).steps = dir.steps ++ [name] := by
  simp [steps, segments_join dir h, h.2.2.2.1]

end Path

/-! ## Places -/

namespace FileTree

open Outcome

variable {tree : FileTree}

/-- A step that does not lead up stays, or leads to the name that it tells. -/
theorem step_eq_append {place next : Place} {segment : String} (hup : segment ≠ "..")
    (h : tree.step place segment = .ok next) : next = place ++ [segment].filter (· ≠ ".") := by
  unfold step at h
  split at h
  · cases h
  · cases h
  · by_cases hhere : segment = "."
    · rw [if_pos hhere] at h
      cases h
      simp [hhere]
    · rw [if_neg hhere, if_neg hup] at h
      split at h
      · cases h
      · cases h
        simp [hhere]

/-- **The place of a path** that never leads up is its steps. -/
theorem reach_eq_steps {p : Path} {place : Place} (hup : ".." ∉ p.steps)
    (h : tree.reach p = .ok place) : place = p.steps := by
  have hwalk : ∀ (segments : List String) (start last : Place), ".." ∉ segments →
      segments.foldlM tree.step start = .ok last → last = start ++ segments.filter (· ≠ ".") := by
    intro segments
    induction segments with
    | nil =>
        intro start last _ h
        cases h
        exact (List.append_nil _).symm
    | cons segment segments ih =>
        intro start last hup h
        rw [List.mem_cons, not_or] at hup
        rw [List.foldlM_cons, bind_eq_ok_iff] at h
        obtain ⟨next, hnext, hrest⟩ := h
        have hstep := step_eq_append (fun heq => hup.1 heq.symm) hnext
        rw [ih next last hup.2 hrest, hstep, List.append_assoc, ← List.filter_append,
          List.singleton_append]
  have hsegments : ".." ∉ p.segments := fun hmem =>
    hup (List.mem_filter.mpr ⟨hmem, by decide⟩)
  exact hwalk p.segments [] place hsegments (reach_eq_ok_iff.mp h).2

/-- A directory whose path passes through the place of a file in it leads up somewhere. -/
theorem up_mem_steps {dir above : Path} {name : String} (hname : Path.IsFileName name)
    (habove : above ∈ dir.ancestors) {place : Place} (hreach : tree.reach above = .ok place)
    (hfile : tree.reach (dir.join ⟨name⟩) = .ok place) : ".." ∈ dir.steps := by
  refine Decidable.byContradiction fun hup => ?_
  have hfront := Path.steps_of_mem_ancestors habove
  have hfileUp : ".." ∉ (dir.join ⟨name⟩).steps := by
    rw [Path.steps_join dir hname]
    intro hmem
    rcases List.mem_append.mp hmem with hdir | hlast
    · exact hup hdir
    · exact hname.2.2.2.2 (List.mem_singleton.mp hlast).symm
  have hplace := reach_eq_steps (fun hmem => hup (hfront.subset hmem)) hreach
  have hfilePlace := reach_eq_steps hfileUp hfile
  rw [Path.steps_join dir hname, hplace] at hfilePlace
  -- the steps of the file are more than those of anything above it
  have hlength := hfront.length_le
  rw [hfilePlace, List.length_append, List.length_singleton] at hlength
  omega

end FileTree

end MakeGraph
