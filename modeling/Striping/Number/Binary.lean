/-!
# Binary floating-point words

Floating-point leaves are kept as the words that store them, so that a value read
back is the value written down to the last bit, NaN payloads included.

* `Binary32`, `Binary64`: a stored word. `=` compares words; `==` compares numbers,
  so NaN differs from itself and the two zeros agree.
* `BinaryFormat.read`: the number a word stands for.
-/

namespace Striping

/-- The field widths of a binary interchange format. -/
structure BinaryFormat where
  /-- Bits of the trailing significand. -/
  fractionBits : Nat
  /-- Bits of the biased exponent. -/
  exponentBits : Nat
deriving DecidableEq, Repr

/-- What a floating-point word stands for. -/
inductive Reading where
  /-- Not a number. -/
  | nan
  /-- An infinity. -/
  | infinite (negative : Bool)
  /-- The number `significand * 2 ^ exponent`, or its negation. `wide` tells that the
  next number below is as far away as the next one above. -/
  | finite (negative : Bool) (significand : Nat) (exponent : Int) (wide : Bool)
deriving DecidableEq, Repr

namespace BinaryFormat

/-- The 32-bit format. -/
def single : BinaryFormat := ⟨23, 8⟩

/-- The 64-bit format. -/
def double : BinaryFormat := ⟨52, 11⟩

/-- The word without its sign bit. -/
def magnitude (f : BinaryFormat) (word : Nat) : Nat :=
  word % Nat.pow 2 (f.fractionBits + f.exponentBits)

/-- The sign bit. -/
def isNegative (f : BinaryFormat) (word : Nat) : Bool :=
  word / Nat.pow 2 (f.fractionBits + f.exponentBits) % 2 == 1

/-- The magnitude of an infinity; greater magnitudes are NaN. -/
def infinity (f : BinaryFormat) : Nat := (Nat.pow 2 f.exponentBits - 1) * Nat.pow 2 f.fractionBits

/-- Holds of the words that are not a number. -/
def isNaN (f : BinaryFormat) (word : Nat) : Bool := f.infinity < f.magnitude word

/-- The exponent of the last place of the subnormal numbers. -/
def leastExponent (f : BinaryFormat) : Int :=
  2 - (Nat.pow 2 (f.exponentBits - 1) : Nat) - (f.fractionBits : Int)

/-- The number a word stands for. -/
def read (f : BinaryFormat) (word : Nat) : Reading :=
  let m := f.magnitude word
  let sign := f.isNegative word
  let hidden := Nat.pow 2 f.fractionBits
  let fraction := m % hidden
  let biased := m / hidden
  if f.isNaN word then .nan
  else if m = f.infinity then .infinite sign
  else if biased = 0 then .finite sign fraction f.leastExponent true
  else .finite sign (hidden + fraction) (f.leastExponent + (biased - 1 : Nat))
    (fraction != 0 || biased == 1)

/-- Equality of numbers: NaN equals nothing and the zeros are equal. -/
def sameNumber (f : BinaryFormat) (a b : Nat) : Bool :=
  !f.isNaN a && !f.isNaN b && (a == b || (f.magnitude a == 0 && f.magnitude b == 0))

end BinaryFormat

/-- A 32-bit floating-point word. -/
structure Binary32 where
  /-- The stored word. -/
  bits : UInt32
deriving DecidableEq, Repr, Inhabited

/-- A 64-bit floating-point word. -/
structure Binary64 where
  /-- The stored word. -/
  bits : UInt64
deriving DecidableEq, Repr, Inhabited

instance : BEq Binary32 := ⟨fun x y => BinaryFormat.single.sameNumber x.bits.toNat y.bits.toNat⟩

instance : BEq Binary64 := ⟨fun x y => BinaryFormat.double.sameNumber x.bits.toNat y.bits.toNat⟩

/-- The number the word stands for. -/
def Binary32.read (x : Binary32) : Reading := BinaryFormat.single.read x.bits.toNat

/-- The number the word stands for. -/
def Binary64.read (x : Binary64) : Reading := BinaryFormat.double.read x.bits.toNat

end Striping
