import MakeGraph.Number.Binary64

/-!
# `MakeGraph.Number.Shortest` — the shortest decimal that reads back

`Binary64.shortest` finds the decimal with the fewest digits among those that round to a given
double, and among these the one nearest to it. On the grid of decimals with `n` digits only the two
neighbours of the value can be nearest, so these are tried for `n = 1, 2, …, 17`.

`Binary64.text` writes that decimal: by position if it is neither very small nor very large, else
with a power of ten.
-/

namespace MakeGraph

/-- The decimal `digits · 10 ^ exponent`. -/
structure Decimal where
  /-- The digits as one number. -/
  digits : Nat
  /-- The power of ten that they count. -/
  exponent : Int
deriving DecidableEq, Repr

namespace Decimal

/-- The decimal without zeros at the end of its digits. -/
def trim : Nat → Decimal → Decimal
  | 0, x => x
  | fuel + 1, x =>
      if x.digits ≠ 0 ∧ x.digits % 10 = 0 then trim fuel ⟨x.digits / 10, x.exponent + 1⟩ else x

/-- How many digits stand before the point; below zero, how many zeros stand right behind it. -/
def pointPlace (x : Decimal) : Int :=
  ((toString x.digits).length : Int) + x.exponent

/-- A decimal written by position, with a point and at least one digit after it. -/
def positional (x : Decimal) : String :=
  match x.exponent with
  | .ofNat n => toString (x.digits * Nat.pow 10 n) ++ ".0"
  | .negSucc n =>
      let places := n + 1
      let digits := toString x.digits
      let padded := String.ofList (List.replicate (places + 1 - digits.length) '0') ++ digits
      let cs := padded.toList
      String.ofList (cs.take (cs.length - places)) ++ "." ++
        String.ofList (cs.drop (cs.length - places))

/-- A power of ten behind a digit, always with a sign. -/
def powerText (e : Int) : String :=
  if 0 ≤ e then "e+" ++ toString e else "e" ++ toString e

/-- A decimal written as its first digit, the others after a point, and a power of ten. -/
def scientific (x : Decimal) : String :=
  let power := powerText (x.pointPlace - 1)
  match (toString x.digits).toList with
  | first :: second :: rest =>
      String.singleton first ++ "." ++ String.ofList (second :: rest) ++ power
  | digits => String.ofList digits ++ power

/-- The text of a decimal: by position from a hundred-thousandth up to sixteen digits before the
point, and with a power of ten beyond. -/
def text (x : Decimal) : String :=
  if -5 < x.pointPlace ∧ x.pointPlace ≤ 16 then x.positional else x.scientific

end Decimal

namespace Binary64

/-- How many places after the point come before and with the first digit of `num / den < 1`. -/
def leadingPlaces (den : Nat) : Nat → Nat → Nat
  | 0, _ => 0
  | fuel + 1, num => if den ≤ num then 0 else leadingPlaces den fuel (num * 10) + 1

/-- The greatest `p` with `10 ^ p ≤ num / den`. -/
def decimalExponent (num den : Nat) : Int :=
  if den ≤ num then ((toString (num / den)).length : Int) - 1
  else -(leadingPlaces den 400 num : Int)

/-- The interval of ratios that round to a number, in units of a quarter of its last place: the
lower end, the number and the upper end. The ends belong to it when the mantissa is even. -/
def interval (x : Binary64) : Nat × Nat × Nat :=
  let v := 4 * x.mantissa
  let below := if x.mantissa = minNormal ∧ x.exponent > minExponent then 1 else 2
  (v - below, v, v + 2)

/-- The nearer of the two neighbours of a number on the grid with `n` digits, if either rounds to
the number; on a tie the one with an even last digit. -/
def onGrid? (x : Binary64) (n : Nat) : Option Decimal :=
  let (low, value, high) := x.interval
  let unit := x.exponent - 2
  let (vn, vd) := scaleRatio value 1 unit
  let e := decimalExponent vn vd - (n : Int) + 1
  -- everything below is counted in quarter places and grid steps over one denominator
  let (step, scale) : Nat × Nat := match e with
    | .ofNat k => (Nat.pow 10 k, 1)
    | .negSucc k => (1, Nat.pow 10 (k + 1))
  let (place, whole) := scaleRatio 1 1 unit
  let step := step * whole
  let spot := fun quarters => quarters * place * scale
  let inside := fun point =>
    if x.mantissa % 2 = 0 then spot low ≤ point && point ≤ spot high
    else spot low < point && point < spot high
  let q := spot value / step
  let lower := q * step
  let upper := (q + 1) * step
  match inside lower, inside upper with
  | true, true =>
      let below := spot value - lower
      let above := upper - spot value
      if below < above ∨ (below = above ∧ q % 2 = 0) then some ⟨q, e⟩ else some ⟨q + 1, e⟩
  | true, false => some ⟨q, e⟩
  | false, true => some ⟨q + 1, e⟩
  | false, false => none

/-- The shortest decimal that rounds to a number. -/
def shortest (x : Binary64) : Decimal :=
  if x.mantissa = 0 then ⟨0, 0⟩
  else
    match (List.range' 1 17).findSome? x.onGrid? with
    | some decimal => decimal.trim 20
    | none => ⟨0, 0⟩

/-- The text of a number. -/
def text (x : Binary64) : String :=
  x.shortest.text

end Binary64

example : (Binary64.ofRatio? 3 2).map (·.text) = some "1.5" := by decide +kernel
example : (Binary64.ofRatio? 1 10).map (·.text) = some "0.1" := by decide +kernel
example : (Binary64.ofRatio? (10 ^ 15) 1).map (·.text) = some "1000000000000000.0" := by
  decide +kernel
example : (Binary64.ofRatio? (10 ^ 16) 1).map (·.text) = some "1e+16" := by decide +kernel
example : (Binary64.ofRatio? 123 (10 ^ 9)).map (·.text) = some "1.23e-7" := by decide +kernel

end MakeGraph
