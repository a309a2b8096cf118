import Striping.Number.Shortest

/-!
# Floating-point text

How records show floating-point members: the shortest digits that read back, always
with a fraction or an exponent so that the text is not mistaken for an integer.

* `DecimalText.positional`, `DecimalText.scientific`: the two layouts of a decimal.
* `Binary32.render`, `Binary64.render`.
-/

namespace Striping

namespace DecimalText

/-- The least power of ten of a leading digit that is written positionally. -/
def leastPositional : Int := -4

/-- The greatest power of ten of a leading digit that is written positionally. -/
def greatestPositional : Int := 15

/-- Digits, a point, and at least one more digit. -/
def positional (digits : List Char) (exponent : Int) : String :=
  if 0 ≤ exponent then
    String.ofList (digits ++ List.replicate exponent.toNat '0' ++ ['.', '0'])
  else
    let places := (-exponent).toNat
    let padded := List.replicate (places + 1 - digits.length) '0' ++ digits
    let whole := padded.length - places
    String.ofList (padded.take whole ++ '.' :: padded.drop whole)

/-- One digit, the others behind a point, and the power of ten of the first. -/
def scientific (digits : List Char) (leading : Int) : String :=
  let fraction := if digits.length ≤ 1 then [] else '.' :: digits.drop 1
  String.ofList (digits.take 1 ++ fraction ++ ['e']) ++ toString leading

/-- The text of a nonzero decimal without zeros at its end. -/
def render (d : Decimal) : String :=
  let digits := Nat.toDigits 10 d.digits
  let leading := d.exponent + digits.length - 1
  if leastPositional ≤ leading ∧ leading ≤ greatestPositional then positional digits d.exponent
  else scientific digits leading

end DecimalText

/-- The text of a number. -/
def Reading.render : Reading → String
  | .nan => "NaN"
  | .infinite negative => if negative then "-inf" else "inf"
  | .finite negative significand exponent wide =>
    let magnitude :=
      if significand = 0 then "0.0" else DecimalText.render (shortest significand exponent wide)
    if negative then "-" ++ magnitude else magnitude

/-- The text of the number the word stands for. -/
def Binary32.render (x : Binary32) : String := x.read.render

/-- The text of the number the word stands for. -/
def Binary64.render (x : Binary64) : String := x.read.render

end Striping
