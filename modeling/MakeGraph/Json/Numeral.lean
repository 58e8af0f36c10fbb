import MakeGraph.Json.Basic

/-!
# `MakeGraph.Json.Numeral` — from the digits of a numeral to a number

A `Numeral` is a number as it is spelled: sign, digits before and after the point, exponent.
`Numeral.value?` is the number that it stands for:

* without point and exponent, a number of 64 bits (unsigned, or signed below zero) is kept exactly;
* any other is a double. As many leading digits as fit into 64 bits are taken as one whole number,
  rounded to a double, and multiplied or divided once by the double nearest to a power of ten.
  Beyond the largest double there is no value.
-/

namespace MakeGraph.Json

/-- A number as it is spelled, its digits as numbers from 0 to 9. -/
structure Numeral where
  /-- Whether a minus sign comes first. -/
  negative : Bool := false
  /-- The digits before the point. -/
  whole : List Nat := []
  /-- The digits after the point, if there is one. -/
  fraction : Option (List Nat) := none
  /-- Whether the exponent is below zero, and its digits, if there is one. -/
  exponent : Option (Bool × List Nat) := none
deriving DecidableEq, Repr

namespace Numeral

/-- The greatest unsigned number of 64 bits. -/
def maxWord : Nat := 0xFFFFFFFFFFFFFFFF

/-- The magnitude of the least signed number of 64 bits. -/
def maxBelowZero : Nat := 0x8000000000000000

/-- The greatest exponent that is read as a number. -/
def maxExponent : Nat := 0x7FFFFFFF

/-- Takes digits into `n` while the result fits into 64 bits, and returns the digits left over. -/
def takeDigits : Nat → List Nat → Nat × List Nat
  | n, [] => (n, [])
  | n, d :: ds => if n * 10 + d ≤ maxWord then takeDigits (n * 10 + d) ds else (n, d :: ds)

/-- The value of digits. -/
def ofDigits (ds : List Nat) : Nat :=
  ds.foldl (fun n d => n * 10 + d) 0

/-- Divides by `10 ^ n`: as long as `n` is beyond the table of powers, by the largest of them. -/
def divideBy (x : Binary64) (n : Nat) : Option Binary64 :=
  if n ≤ 308 then (Binary64.powTen? n).bind x.div?
  else if x.mantissa = 0 then some x
  else (Binary64.powTen? 308).bind x.div? |>.bind (divideBy · (n - 308))
termination_by n

/-- The double `n · 10 ^ e`, or none beyond the largest. -/
def scale? (n : Nat) (e : Int) : Option Binary64 := do
  let x ← Binary64.ofRatio? n 1
  match e with
  | .negSucc k => divideBy x (k + 1)
  | .ofNat k =>
      if k ≤ 308 then (Binary64.powTen? k).bind x.mul?
      else if x.mantissa = 0 then some x
      else none

/-- The double that a numeral stands for. -/
def double? (x : Numeral) : Option Binary64 :=
  let (n, left) := takeDigits 0 x.whole
  let (n, shift) :=
    match x.fraction with
    | none => (n, (left.length : Int))
    | some digits =>
        let (n, unread) := takeDigits n digits
        (n, (left.length : Int) - ((digits.length : Int) - unread.length))
  match x.exponent with
  | none => scale? n shift
  | some (below, digits) =>
      let e := ofDigits digits
      if e ≤ maxExponent then scale? n (if below then shift - e else shift + e)
      else if n = 0 ∨ below then some .zero
      else none

/-- The number that a numeral stands for; there is none beyond the largest double. -/
def value? (x : Numeral) : Option Number :=
  let exact := x.fraction.isNone && x.exponent.isNone
  let n := ofDigits x.whole
  if exact && !x.negative && n ≤ maxWord then some (.natural n)
  else if exact && x.negative && 0 < n && n ≤ maxBelowZero then some (.negative n)
  else x.double?.map (.double x.negative ·)

end Numeral

example : (Numeral.value? { whole := [1], fraction := some [5] }).map (·.text) = some "1.5" := by
  decide +kernel
example : Numeral.value? { whole := [1], exponent := some (false, [9, 9, 9]) } = none := by
  decide +kernel
example : (Numeral.value? { negative := true, whole := [0] }).map (·.text) = some "-0.0" := by
  decide +kernel

end MakeGraph.Json
