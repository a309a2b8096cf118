import Striping.Error

/-!
# Leaf conversions

How leaf values are stored and read back.

* `LeafType.toPhysical`: the stored form. Unsigned 32- and 64-bit integers keep their
  bit pattern, narrower integers their number, text its UTF-8 bytes.
* `LeafType.ofPhysical`: the value that has a given stored form, if there is one.
-/

namespace Striping.LeafType

/-- The stored form of a value. -/
def toPhysical : (t : LeafType) → t.Value → t.Physical
  | bool, (v : Bool) => v
  | int8, (v : Int8) => v.toInt32
  | int16, (v : Int16) => v.toInt32
  | int32, (v : Int32) => v
  | int64, (v : Int64) => v
  | uint8, (v : UInt8) => Int32.ofNat v.toNat
  | uint16, (v : UInt16) => Int32.ofNat v.toNat
  | uint32, (v : UInt32) => v.toInt32
  | uint64, (v : UInt64) => v.toInt64
  | float32, (v : Binary32) => v
  | float64, (v : Binary64) => v
  | text, (v : String) => v.toUTF8
  | bytes, (v : ByteArray) => v
  | sharedBytes, (v : ByteArray) => v
  | cell, (v : Cell) => v

/-- The number, if it lies between `low` and `high`. -/
def narrow (t : LeafType) (low high : Int) (n : Int32) : Except Error Int :=
  if n.toInt < low then .error (.conversion t.title (.tooSmall n.toInt))
  else if high < n.toInt then .error (.conversion t.title (.tooLarge n.toInt))
  else .ok n.toInt

/-- The text that bytes encode. -/
def textOf (bytes : ByteArray) : Except Error String :=
  match Text.decode bytes with
  | .ok s => .ok s
  | .error fault => .error (.conversion "String" (.notText fault))

/-- The value with the given stored form. -/
def ofPhysical : (t : LeafType) → t.Physical → Except Error t.Value
  | bool, (p : Bool) => .ok p
  | int8, (p : Int32) => (narrow int8 (-128) 127 p).map Int8.ofInt
  | int16, (p : Int32) => (narrow int16 (-32768) 32767 p).map Int16.ofInt
  | int32, (p : Int32) => .ok p
  | int64, (p : Int64) => .ok p
  | uint8, (p : Int32) => (narrow uint8 0 255 p).map UInt8.ofInt
  | uint16, (p : Int32) => (narrow uint16 0 65535 p).map UInt16.ofInt
  | uint32, (p : Int32) => .ok p.toUInt32
  | uint64, (p : Int64) => .ok p.toUInt64
  | float32, (p : Binary32) => .ok p
  | float64, (p : Binary64) => .ok p
  | text, (p : ByteArray) => textOf p
  | bytes, (p : ByteArray) => .ok p
  | sharedBytes, (p : ByteArray) => .ok p
  | cell, (p : Cell) => .ok p

end Striping.LeafType
