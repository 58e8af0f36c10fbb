import MakeGraph.Proofs.FileTree.Steps
import MakeGraph.Proofs.Path.Spelling

/-!
# `Proofs.Path.Moves` — the steps of a path that is put together or taken apart

A path goes from where it begins by its `moves`: a name or `..` for every segment that is not idle. What
it begins with (`Lead`) is all that its components have besides (`components_eq_moves`). Joining two
paths puts their moves one after the other (`moves_join`), the parent of a path is without its last
component (`components_parent`), and with its last name the parent is the path again
(`same_join_fileName`), however it is spelled.

## Contents

* `moves`, `components_eq_moves` — components and moves
* `moves_join`, `components_join` — putting together
* `components_parent`, `same_join_fileName` — taking apart
-/

namespace MakeGraph

namespace Path

/-! ## Moves -/

/-- The steps of a path behind what it begins with. -/
def moves (p : Path) : List Component :=
  (cut p.text.toList).filterMap Component.ofSegment?

/-- The component of a segment that is not idle. -/
def Component.ofName (name : String) : Component :=
  if name = ".." then .up else .name name

/-- Which segments count, and in what order, is the same for components and for steps. -/
theorem filterMap_ofSegment?_eq_busy (segments : List (List Char)) :
    segments.filterMap Component.ofSegment? = (busy segments).map Component.ofName := by
  have hup : ∀ segment : List Char, String.ofList segment = ".." ↔ segment = ['.', '.'] := by
    intro segment
    rw [← String.toList_inj, String.toList_ofList]
    rfl
  induction segments with
  | nil => rfl
  | cons segment segments ih =>
      by_cases hidle : isIdle segment = true
      · have hnone : Component.ofSegment? segment = none := if_pos hidle
        rw [List.filterMap_cons_none hnone, busy_of_idle hidle, ih]
      · have hsome : Component.ofSegment? segment = some (Component.ofName (String.ofList segment)) := by
          simp only [Component.ofSegment?, Component.ofName, if_neg hidle, hup]
          split <;> rfl
        rw [List.filterMap_cons_some hsome, ih]
        simp [busy, hidle]

/-- **The components of a path** are what it begins with, and its moves. -/
theorem components_eq_moves (p : Path) :
    p.components = (anatomy p.text.toList).1.components ++ p.moves := by
  rw [components_eq, moves, filterMap_ofSegment?_eq_busy, filterMap_ofSegment?_eq_busy, busy_anatomy]

theorem ofSegment?_eq_some {segment : List Char} {step : Component}
    (h : Component.ofSegment? segment = some step) :
    isIdle segment = false ∧ step.text.toList = segment ∧ step ≠ .root ∧ step ≠ .here := by
  unfold Component.ofSegment? at h
  split at h
  · cases h
  · next hbusy =>
      have hbusy : isIdle segment = false := Bool.eq_false_iff.mpr hbusy
      split at h
      · next hup =>
          obtain rfl := Option.some.inj h
          exact ⟨hbusy, hup.symm, by simp, by simp⟩
      · obtain rfl := Option.some.inj h
        exact ⟨hbusy, String.toList_ofList, by simp, by simp⟩

/-- A move is no lead. -/
theorem ne_of_mem_moves {p : Path} {step : Component} (h : step ∈ p.moves) :
    step ≠ .root ∧ step ≠ .here := by
  obtain ⟨segment, -, hstep⟩ := List.mem_filterMap.mp h
  exact (ofSegment?_eq_some hstep).2.2

/-! ## What a path begins with -/

/-- A text begins with a slash, or with a dot where its first segment is one. -/
theorem lead_eq (cs : List Char) :
    (anatomy cs).1 = if cs.head? = some '/' then .root
      else if (cut cs).head? = some ['.'] then .here else .plain := by
  unfold anatomy
  split
  · rfl
  · next hne =>
      have hhead : cs.head? ≠ some '/' := by
        intro hhead
        obtain ⟨rest, hrest⟩ := List.head?_eq_some_iff.mp hhead
        exact hne rest hrest
      rw [if_neg hhead]
      split
      · next rest hcut => rw [hcut, List.head?_cons, if_pos rfl]
      · next hdot =>
          rw [if_neg]
          intro hfirst
          obtain ⟨rest, hrest⟩ := List.head?_eq_some_iff.mp hfirst
          exact hdot rest hrest

/-- What is behind a slash does not matter for what a text begins with. -/
theorem lead_append_slash {front : List Char} (hne : front ≠ []) (back : List Char) :
    (anatomy (front ++ '/' :: back)).1 = (anatomy front).1 := by
  have hchars : (front ++ '/' :: back).head? = front.head? := by
    rw [List.head?_append, List.head?_eq_some_head hne, Option.some_or]
  have hsegments : (cut (front ++ '/' :: back)).head? = (cut front).head? := by
    rw [cut_slash, List.head?_append, List.head?_eq_some_head (cut_ne_nil front), Option.some_or]
  rw [lead_eq, lead_eq, hchars, hsegments]

/-- **A relative path** begins with a dot or not, and the dot is no move. -/
theorem components_of_relative {p : Path} (h : p.isAbsolute = false) :
    p.components = p.moves ∧ .here ∉ p.components ∨
      p.components = .here :: p.moves ∧ .here ∈ p.components := by
  have hhead : p.text.toList.head? ≠ some '/' := of_decide_eq_false h
  rw [components_eq_moves, lead_eq, if_neg hhead]
  split
  · exact .inr ⟨rfl, List.mem_cons_self⟩
  · exact .inl ⟨rfl, fun hmem => (ne_of_mem_moves hmem).2 rfl⟩

/-- **A move alone** is a relative path with this one component. -/
theorem components_of_move {p : Path} {step : Component} (h : step ∈ p.moves) :
    isAbsolute ⟨step.text⟩ = false ∧ components ⟨step.text⟩ = [step] ∧
      moves ⟨step.text⟩ = [step] := by
  obtain ⟨segment, hsegment, hstep⟩ := List.mem_filterMap.mp h
  obtain ⟨hbusy, htext, -, -⟩ := ofSegment?_eq_some hstep
  have hslash : '/' ∉ segment := slash_notMem_cut hsegment
  have hhead : segment.head? ≠ some '/' := fun hhead => hslash (List.mem_of_mem_head? hhead)
  have hdot : ¬ [segment].head? = some ['.'] := by
    intro hdot
    rw [Option.some.inj hdot] at hbusy
    cases hbusy
  have hmoves : moves ⟨step.text⟩ = [step] := by
    rw [moves, htext, cut_of_notMem hslash, List.filterMap_cons_some hstep, List.filterMap_nil]
  refine ⟨by simpa [isAbsolute, htext] using hhead, ?_, hmoves⟩
  rw [components_eq_moves, hmoves, htext, lead_eq, cut_of_notMem hslash, if_neg hhead, if_neg hdot]
  rfl

/-! ## Putting together -/

section Join

variable {p q : Path}

theorem join_empty (h : p.text = "") : p.join q = q := by
  unfold join
  split
  · rfl
  · rw [h]
    exact congrArg Path.mk String.empty_append

/-- The text of a relative path below a path: a slash is put in between where one is missing. -/
theorem exists_join_slash (hp : p.text ≠ "") (hq : q.isAbsolute = false) :
    ∃ front, (p.join q).text.toList = front ++ '/' :: q.text.toList ∧
      (p.text.toList = front ∨ p.text.toList = front ++ ['/']) := by
  have hempty : p.text.isEmpty = false := by
    rw [Bool.eq_false_iff]
    exact fun h => hp (String.isEmpty_iff.mp h)
  have hrelative : ¬ q.isAbsolute = true := Bool.eq_false_iff.mp hq
  unfold join
  rw [if_neg hrelative, hempty, Bool.false_or]
  by_cases hslash : p.text.toList.getLast? = some '/'
  · obtain ⟨front, hfront⟩ := List.getLast?_eq_some_iff.mp hslash
    refine ⟨front, ?_, .inr hfront⟩
    rw [if_pos (decide_eq_true hslash), String.toList_append, hfront, List.append_assoc]
    rfl
  · refine ⟨p.text.toList, ?_, .inl rfl⟩
    rw [if_neg (by simpa using hslash), String.toList_append, String.toList_append,
      List.append_assoc]
    rfl

/-- A slash at the end is no move. -/
theorem moves_of_front {front : List Char}
    (h : p.text.toList = front ∨ p.text.toList = front ++ ['/']) :
    p.moves = (cut front).filterMap Component.ofSegment? := by
  unfold moves
  rcases h with h | h
  · rw [h]
  · rw [h, cut_slash, List.filterMap_append]
    exact List.append_nil _

/-- **The moves of a joined path** are those of its two parts. -/
theorem moves_join (hq : q.isAbsolute = false) : (p.join q).moves = p.moves ++ q.moves := by
  by_cases hp : p.text = ""
  · rw [join_empty hp, moves, moves, hp]
    rfl
  · obtain ⟨front, htext, hfront⟩ := exists_join_slash hp hq
    rw [moves_of_front hfront, moves, htext, cut_slash, List.filterMap_append]
    rfl

/-- A joined path begins as its first part does. -/
theorem lead_join (hp : p.text ≠ "") (hq : q.isAbsolute = false) :
    (anatomy (p.join q).text.toList).1 = (anatomy p.text.toList).1 := by
  obtain ⟨front, htext, hfront⟩ := exists_join_slash hp hq
  rw [htext]
  rcases hfront with hfront | hfront
  · have hne : front ≠ [] := fun hnil =>
      hp (String.toList_eq_nil_iff.mp (hfront.trans hnil))
    rw [hfront, lead_append_slash hne]
  · rw [hfront]
    by_cases hne : front = []
    · rw [hne]
      rfl
    · rw [lead_append_slash hne, lead_append_slash hne]

/-- **The components of a joined path**: its second part adds its moves to those of a path that is not
    empty. -/
theorem components_join (hp : p.text ≠ "") (hq : q.isAbsolute = false) :
    (p.join q).components = p.components ++ q.moves := by
  rw [components_eq_moves, components_eq_moves, lead_join hp hq, moves_join hq, List.append_assoc]

/-- What goes below a relative path is relative. -/
theorem isAbsolute_join_of_relative (hp : p.isAbsolute = false) (hq : q.isAbsolute = false) :
    (p.join q).isAbsolute = false := by
  by_cases hempty : p.text = ""
  · rwa [join_empty hempty]
  · have hlead := lead_join hempty hq
    rw [lead_eq, lead_eq, if_neg (of_decide_eq_false hp)] at hlead
    refine decide_eq_false fun hhead => ?_
    rw [if_pos hhead] at hlead
    split at hlead <;> cases hlead

end Join

/-! ## Taking apart -/

theorem trimEnd_isPrefix (segments : List (List Char)) : trimEnd segments <+: segments := by
  have hsuffix : segments.reverse.dropWhile isIdle <:+ segments.reverse :=
    List.dropWhile_suffix isIdle
  have hprefix := List.reverse_prefix.mpr hsuffix
  rwa [List.reverse_reverse] at hprefix

/-- The last segment that is left is a step. -/
theorem exists_trimEnd_eq {segments : List (List Char)} (hne : trimEnd segments ≠ []) :
    ∃ front segment, trimEnd segments = front ++ [segment] ∧ isIdle segment = false := by
  unfold trimEnd at hne ⊢
  have hdrop : segments.reverse.dropWhile isIdle ≠ [] := fun hnil => hne (by rw [hnil]; rfl)
  have hidle := List.head_dropWhile_not isIdle hdrop
  obtain ⟨segment, rest, hcons⟩ := List.exists_cons_of_ne_nil hdrop
  simp only [hcons, List.head_cons] at hidle
  exact ⟨rest.reverse, segment, by rw [hcons, List.reverse_cons], hidle⟩

theorem glue_isPrefix {kept segments : List (List Char)} (h : kept <+: segments) :
    glue kept <+: glue segments := by
  induction kept generalizing segments with
  | nil => exact List.nil_prefix
  | cons segment kept ih =>
      obtain ⟨rest, rfl, hrest⟩ := List.cons_prefix_iff.mp h
      cases kept with
      | nil =>
          cases rest with
          | nil => exact List.prefix_rfl
          | cons next rest => exact List.prefix_append segment _
      | cons next kept =>
          have hne : rest ≠ [] := fun hnil => by simp [hnil] at hrest
          rw [glue_cons hne, glue_cons (List.cons_ne_nil next kept)]
          have htail := ih hrest
          exact List.prefix_append_right_inj segment |>.mpr ((List.prefix_cons_inj '/').mpr htail)

/-- The first segments of a text, put together behind its lead, have this lead. -/
theorem lead_assemble {cs : List Char} {kept : List (List Char)} (h : kept <+: (anatomy cs).2) :
    (anatomy (assemble (anatomy cs).1 kept)).1 = (anatomy cs).1 := by
  have hslash : ∀ segment ∈ (anatomy cs).2, '/' ∉ segment := fun segment => slash_notMem_anatomy
  have hkept : ∀ segment ∈ kept, '/' ∉ segment := fun segment hmem =>
    hslash segment (h.subset hmem)
  have hwhole := assemble_anatomy cs
  cases hlead : (anatomy cs).1 with
  | root => rfl
  | here =>
      have hcut : cut (glue (['.'] :: kept)) = ['.'] :: kept :=
        cut_glue (List.cons_ne_nil _ _) (List.forall_mem_cons.mpr ⟨by decide, hkept⟩)
      have hhead : (glue (['.'] :: kept)).head? ≠ some '/' := by
        cases kept with
        | nil => decide
        | cons segment kept => exact fun heq => absurd (Option.some.inj heq) (by decide)
      rw [assemble, lead_eq, hcut, if_neg hhead]
      rfl
  | plain =>
      rw [hlead, assemble] at hwhole
      rw [lead_eq] at hlead
      split at hlead
      · cases hlead
      next hhead =>
      split at hlead
      · cases hlead
      next hdot =>
      -- what is kept begins as the whole text does, if there is anything left of it
      cases kept with
      | nil => rfl
      | cons segment kept =>
          have hcut : cut (glue (segment :: kept)) = segment :: kept :=
            cut_glue (List.cons_ne_nil _ _) hkept
          obtain ⟨rest, hrest, -⟩ := List.cons_prefix_iff.mp h
          have hfirst : (cut cs).head? = some segment := by
            have hsegments := cut_glue (hrest ▸ List.cons_ne_nil segment rest) hslash
            rw [hwhole] at hsegments
            rw [hsegments, hrest, List.head?_cons]
          have hslashed : (glue (segment :: kept)).head? ≠ some '/' := by
            intro hslashed
            obtain ⟨tail, htail⟩ := hwhole ▸ glue_isPrefix h
            rw [← htail, List.head?_append, hslashed, Option.some_or] at hhead
            exact hhead rfl
          rw [hfirst] at hdot
          rw [assemble, lead_eq, hcut, List.head?_cons, if_neg hslashed, if_neg hdot]

/-- **The parent of a path** is without its last component. -/
theorem components_parent (p : Path) : p.parent.components = p.components.dropLast := by
  have hsteps : p.components = (anatomy p.text.toList).1.components ++
      (trimEnd (anatomy p.text.toList).2).filterMap Component.ofSegment? := by
    rw [components_eq, filterMap_ofSegment?_eq_busy, filterMap_ofSegment?_eq_busy, busy_trimEnd]
  unfold parent
  dsimp only
  split
  · next hnone =>
      rw [hsteps, hnone]
      cases (anatomy p.text.toList).1 <;> rfl
  · next hsome =>
      obtain ⟨front, segment, hkept, hbusy⟩ := exists_trimEnd_eq hsome
      obtain ⟨step, hstep, -⟩ := ofSegment?_of_not_idle hbusy
      have hfirst : trimEnd (trimEnd (anatomy p.text.toList).2).dropLast <+:
          (anatomy p.text.toList).2 :=
        (trimEnd_isPrefix _).trans ((List.dropLast_prefix _).trans (trimEnd_isPrefix _))
      have hslash : ∀ segment ∈ trimEnd (trimEnd (anatomy p.text.toList).2).dropLast,
          '/' ∉ segment := fun segment hmem => slash_notMem_anatomy (hfirst.subset hmem)
      rw [components_eq_moves, moves, String.toList_ofList, lead_assemble hfirst,
        filterMap_ofSegment?_eq_busy, busy_cut_assemble _ hslash, busy_trimEnd, hsteps, hkept,
        List.dropLast_concat, ← filterMap_ofSegment?_eq_busy, List.filterMap_append,
        List.filterMap_cons_some hstep, List.filterMap_nil, ← List.append_assoc,
        List.dropLast_concat]

/-- A file name is the last component. -/
theorem components_of_fileName? {p : Path} {name : String} (h : p.fileName? = some name) :
    p.components = p.parent.components ++ [.name name] := by
  unfold fileName? at h
  split at h
  · next last hlast =>
      obtain rfl := Option.some.inj h
      obtain ⟨front, hfront⟩ := List.getLast?_eq_some_iff.mp hlast
      rw [components_parent, hfront, List.dropLast_concat]
  · cases h

/-- A file name is a move. -/
theorem name_mem_moves {p : Path} {name : String} (h : p.fileName? = some name) :
    .name name ∈ p.moves := by
  have hmem : .name name ∈ p.components := by
    rw [components_of_fileName? h]
    exact List.mem_append_right _ List.mem_cons_self
  rw [components_eq_moves] at hmem
  rcases List.mem_append.mp hmem with hlead | hmove
  · cases hcases : (anatomy p.text.toList).1 <;> simp [hcases, Lead.components] at hlead
  · exact hmove

/-- **A file below a directory** has the components of the directory and its name. -/
theorem components_join_name {p : Path} {name : String} (h : .name name ∈ p.moves) (dir : Path) :
    (dir.join ⟨name⟩).components = dir.components ++ [.name name] := by
  obtain ⟨hrelative, halone, hmoves⟩ := components_of_move h
  by_cases hempty : dir.text = ""
  · rw [join_empty hempty, components_eq_nil_iff.mpr hempty]
    exact halone
  · have hjoin : (dir.join ⟨name⟩).components = dir.components ++ moves ⟨name⟩ :=
      components_join hempty hrelative
    rw [hjoin]
    exact congrArg (dir.components ++ ·) hmoves

/-- **A path is its directory with its name**, however the directory is spelled. -/
theorem same_join_fileName {p dir : Path} {name : String} (h : p.fileName? = some name)
    (hdir : p.parent.Same dir) : p.Same (dir.join ⟨name⟩) := by
  show p.components = (dir.join ⟨name⟩).components
  rw [components_join_name (name_mem_moves h), components_of_fileName? h]
  exact congrArg (· ++ [Component.name name]) hdir

/-- A file name has no slash. -/
theorem slash_notMem_fileName {p : Path} {name : String} (h : p.fileName? = some name) :
    '/' ∉ name.toList := by
  obtain ⟨segment, hsegment, hstep⟩ := List.mem_filterMap.mp (name_mem_moves h)
  have htext : name.toList = segment := (ofSegment?_eq_some hstep).2.1
  rw [htext]
  exact slash_notMem_cut hsegment

end Path

end MakeGraph
