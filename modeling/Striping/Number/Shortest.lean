import Striping.Number.Binary

/-!
# The shortest decimal that reads back

A finite binary number is written with the fewest decimal digits that still round to
it, and of those with the ones nearest to it.

* `RoundingInterval`: the numbers that round to a given binary number.
* `RoundingInterval.onGrid?`: the better of the two neighbours of the number on a
  decimal grid, if one of them lies in the interval.
* `shortest`: the first hit on ever finer grids. If any point of a grid lies in the
  interval, so does a neighbour of the number on that grid, so no shorter decimal
  reads back.
-/

namespace Striping

/-- The decimal number `digits * 10 ^ exponent`. -/
structure Decimal where
  /-- The digits, as one number. -/
  digits : Nat
  /-- The power of ten of the last digit. -/
  exponent : Int
deriving DecidableEq, Repr

/-- The numbers that round to `value / unit`, all three bounds in the same `unit`. -/
structure RoundingInterval where
  /-- The lower end. -/
  low : Nat
  /-- The number itself. -/
  value : Nat
  /-- The upper end. -/
  high : Nat
  /-- The common denominator. -/
  unit : Nat
  /-- Both ends belong to the interval. -/
  closed : Bool
deriving Repr

namespace RoundingInterval

/-- The interval of `significand * 2 ^ exponent`. Its ends lie half way to the next
numbers; they round to it when its significand is even. -/
def ofBinary (significand : Nat) (exponent : Int) (wide : Bool) : RoundingInterval :=
  let up := Nat.pow 2 (exponent - 2).toNat
  { low := (4 * significand - if wide then 2 else 1) * up
    value := 4 * significand * up
    high := (4 * significand + 2) * up
    unit := Nat.pow 2 (2 - exponent).toNat
    closed := significand % 2 == 0 }

/-- The power of ten of the leading digit of the number. -/
def leadingExponent (i : RoundingInterval) : Int :=
  let d : Int := (Nat.toDigits 10 i.value).length - (Nat.toDigits 10 i.unit).length
  if i.unit * Nat.pow 10 d.toNat ≤ i.value * Nat.pow 10 (-d).toNat then d else d - 1

/-- The better neighbour of the number among the multiples of `10 ^ k`, if one of the
two lies in the interval. Of two equally near the upper one is taken. -/
def onGrid? (i : RoundingInterval) (k : Int) : Option Nat :=
  let scale := Nat.pow 10 (-k).toNat
  let step := i.unit * Nat.pow 10 k.toNat
  let below := i.value * scale / step
  let rest := i.value * scale % step
  let lowHit := if i.closed then i.low * scale ≤ below * step else i.low * scale < below * step
  let highHit :=
    if i.closed then (below + 1) * step ≤ i.high * scale else (below + 1) * step < i.high * scale
  if highHit ∧ (¬lowHit ∨ step ≤ 2 * rest) then some (below + 1)
  else if lowHit then some below
  else none

/-- The first hit on the grids from `10 ^ k` down, at most `tries` of them. -/
def search (i : RoundingInterval) : Nat → Int → Decimal
  | 0, k => ⟨i.value * Nat.pow 10 (-k).toNat / (i.unit * Nat.pow 10 k.toNat), k⟩
  | tries + 1, k =>
    match i.onGrid? k with
    | some digits => ⟨digits, k⟩
    | none => i.search tries (k - 1)

end RoundingInterval

/-- The decimal without zeros at its end; `tries` bounds their number. -/
def Decimal.dropZeros (d : Decimal) : Nat → Decimal
  | 0 => d
  | tries + 1 =>
    if d.digits % 10 = 0 then Decimal.dropZeros ⟨d.digits / 10, d.exponent + 1⟩ tries else d

/-- The shortest decimal that rounds to the nonzero number `significand * 2 ^ exponent`.
Seventeen digits are enough for 64-bit numbers. -/
def shortest (significand : Nat) (exponent : Int) (wide : Bool) : Decimal :=
  let i := RoundingInterval.ofBinary significand exponent wide
  (i.search 17 i.leadingExponent).dropZeros 17

end Striping
