/-!
# `MakeGraph.Number.Binary64` — double-precision magnitudes in exact arithmetic

A `Binary64` is a finite, non-negative double-precision number: `mantissa · 2 ^ exponent`. Products
and quotients are taken exactly and rounded once, to the nearest number and on a tie to the one with
an even mantissa (`ofRatio?`).
-/

namespace MakeGraph

/-- A finite, non-negative double-precision number `mantissa · 2 ^ exponent`. -/
structure Binary64 where
  /-- Below `2 ^ 53`. -/
  mantissa : Nat
  /-- At least `-1074`, and only that for mantissas below `2 ^ 52`. -/
  exponent : Int
deriving DecidableEq, Repr, Inhabited

namespace Binary64

/-- The least exponent. -/
def minExponent : Int := -1074

/-- The greatest exponent. -/
def maxExponent : Int := 971

/-- The least mantissa of a number that is not among the smallest: `2 ^ 52`. -/
def minNormal : Nat := 0x10000000000000

/-- Zero. -/
def zero : Binary64 :=
  ⟨0, minExponent⟩

/-- A ratio multiplied by a power of two, as a ratio. -/
def scaleRatio (num den : Nat) (e : Int) : Nat × Nat :=
  match e with
  | .ofNat n => (num * Nat.pow 2 n, den)
  | .negSucc n => (num, den * Nat.pow 2 (n + 1))

/-- A quotient rounded to the nearest integer, a tie to the even one. -/
def roundQuotient (num den : Nat) : Nat :=
  let q := num / den
  let r := num % den
  if 2 * r > den || (2 * r = den && q % 2 = 1) then q + 1 else q

/-- The number nearest to a ratio; none when it lies beyond the finite ones. -/
def ofRatio? (num den : Nat) : Option Binary64 :=
  if num = 0 then some zero
  else
    let guess := max ((Nat.log2 num : Int) - Nat.log2 den - 52) minExponent
    let (n, d) := scaleRatio num den (-guess)
    let e := if n / d < minNormal && guess > minExponent then guess - 1 else guess
    let (n, d) := scaleRatio num den (-e)
    let q := roundQuotient n d
    let rounded : Binary64 := if q = 2 * minNormal then ⟨minNormal, e + 1⟩ else ⟨q, e⟩
    if rounded.exponent > maxExponent then none else some rounded

/-- The product, rounded. -/
def mul? (a b : Binary64) : Option Binary64 :=
  let (n, d) := scaleRatio (a.mantissa * b.mantissa) 1 (a.exponent + b.exponent)
  ofRatio? n d

/-- The quotient, rounded. -/
def div? (a b : Binary64) : Option Binary64 :=
  let (n, d) := scaleRatio a.mantissa b.mantissa (a.exponent - b.exponent)
  ofRatio? n d

/-- The number nearest to a power of ten. -/
def powTen? (n : Nat) : Option Binary64 :=
  ofRatio? (Nat.pow 10 n) 1

example : ofRatio? 3 2 = some ⟨3 * 2 ^ 51, -52⟩ := by decide +kernel
example : powTen? 309 = none ∧ powTen? 0 = some ⟨2 ^ 52, -52⟩ := by decide +kernel

end Binary64

end MakeGraph
