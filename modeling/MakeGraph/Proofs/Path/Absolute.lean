import MakeGraph.Path.Basic

/-!
# `Proofs.Path.Absolute` — paths that begin at the root

What goes below an absolute path is absolute (`isAbsolute_join`). So a path as it is seen from an
absolute directory is absolute (`isAbsolute_of_absolute?`), and from then on it means the same from
everywhere (`join_eq_self`).
-/

namespace MakeGraph.Path

theorem join_eq_self {p q : Path} (h : q.isAbsolute = true) : p.join q = q := by
  rw [join, if_pos h]

theorem ne_empty_of_isAbsolute {p : Path} (h : p.isAbsolute = true) : p.text ≠ "" := by
  intro hempty
  rw [isAbsolute, hempty] at h
  cases h

/-- **What goes below an absolute path** is absolute. -/
theorem isAbsolute_join {p : Path} (h : p.isAbsolute = true) (q : Path) :
    (p.join q).isAbsolute = true := by
  have hlonger : ∀ more : String, isAbsolute ⟨p.text ++ more⟩ = true := by
    intro more
    have hhead : p.text.toList.head? = some '/' := of_decide_eq_true h
    have hmore : (p.text ++ more).toList.head? = some '/' := by
      rw [String.toList_append, List.head?_append, hhead]
      rfl
    exact decide_eq_true hmore
  unfold join
  split
  · assumption
  split
  · exact hlonger q.text
  · rw [String.append_assoc]
    exact hlonger ("/" ++ q.text)

theorem isAbsolute_foldl_join {p : Path} (h : p.isAbsolute = true) (steps : List Component) :
    (steps.foldl (fun dir step => dir.join ⟨step.text⟩) p).isAbsolute = true := by
  induction steps generalizing p with
  | nil => exact h
  | cons step steps ih => exact ih (isAbsolute_join h ⟨step.text⟩)

/-- The first step of an absolute path is the root. -/
theorem components_of_isAbsolute {p : Path} (h : p.isAbsolute = true) :
    ∃ steps, p.components = .root :: steps := by
  have hhead : p.text.toList.head? = some '/' := of_decide_eq_true h
  obtain ⟨rest, hrest⟩ := List.head?_eq_some_iff.mp hhead
  refine ⟨(cut rest).filterMap Component.ofSegment?, ?_⟩
  rw [components, hrest]
  rfl

/-- **A path as seen from an absolute directory** is absolute. -/
theorem isAbsolute_of_absolute? {cwd p q : Path} (hcwd : cwd.isAbsolute = true)
    (h : cwd.absolute? p = some q) : q.isAbsolute = true := by
  have hend : ∀ {walked : Path} {slash : Prop} [Decidable slash], walked.isAbsolute = true →
      (if slash then walked.join ⟨""⟩ else walked).isAbsolute = true := by
    intro walked slash _ hwalked
    split
    · exact isAbsolute_join hwalked _
    · exact hwalked
  unfold absolute? at h
  split at h
  · cases h
  obtain rfl := Option.some.inj h
  refine hend ?_
  cases hp : p.isAbsolute with
  | false => exact isAbsolute_foldl_join hcwd _
  | true =>
      obtain ⟨steps, hsteps⟩ := components_of_isAbsolute hp
      simp only [hsteps]
      generalize (['/', '/'].isPrefixOf p.text.toList &&
        !(['/', '/', '/'].isPrefixOf p.text.toList)) = twoSlashes
      cases twoSlashes with
      | true =>
          have hstart : isAbsolute ⟨"//"⟩ = true := by decide
          exact isAbsolute_foldl_join hstart steps
      | false =>
          -- the walk begins with the step to the root
          have hroot : (join ⟨""⟩ ⟨"/"⟩).isAbsolute = true := by decide
          exact isAbsolute_foldl_join hroot steps

end MakeGraph.Path
