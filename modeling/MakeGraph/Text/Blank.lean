/-!
# `MakeGraph.Text.Blank` — the characters that separate words

The blanks of this library are the twenty-five characters of Unicode's `White_Space` property.
`isBlank` decides the property; every blank of core's narrower `Char.isWhitespace` is among them
(`isBlank_of_isWhitespace`).
-/

namespace MakeGraph.Text

/-- A blank is a character of Unicode's `White_Space` property. -/
def isBlank (c : Char) : Bool :=
  let n := c.toNat
  (0x09 ≤ n && n ≤ 0x0D) || n == 0x20 || n == 0x85 || n == 0xA0 || n == 0x1680 ||
    (0x2000 ≤ n && n ≤ 0x200A) || n == 0x2028 || n == 0x2029 || n == 0x202F || n == 0x205F ||
    n == 0x3000

/-- The blanks that core knows are blanks here too. -/
theorem isBlank_of_isWhitespace {c : Char} (h : c.isWhitespace = true) : isBlank c = true := by
  simp only [Char.isWhitespace, Bool.or_eq_true, decide_eq_true_eq] at h
  rcases h with ((rfl | rfl) | rfl) | rfl <;> decide

example : isBlank '\u00a0' = true ∧ isBlank '\u2003' = true ∧ isBlank '\u200b' = false := by decide

end MakeGraph.Text
