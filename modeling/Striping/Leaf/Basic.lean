import Striping.Physical.Cell

/-!
# Leaf types

The types of leaf values and the type each is stored as.

* `LeafType`: the closed list of leaf types.
* `LeafType.Value`, `LeafType.Physical`: the values of a leaf type and their stored
  form.
* `LeafType.fits`: whether a leaf type may live in a column of a storage type.
-/

namespace Striping

/-- A type of leaf values. -/
inductive LeafType where
  /-- Truth values. -/
  | bool
  /-- Signed 8-bit integers. -/
  | int8
  /-- Signed 16-bit integers. -/
  | int16
  /-- Signed 32-bit integers. -/
  | int32
  /-- Signed 64-bit integers. -/
  | int64
  /-- Unsigned 8-bit integers. -/
  | uint8
  /-- Unsigned 16-bit integers. -/
  | uint16
  /-- Unsigned 32-bit integers. -/
  | uint32
  /-- Unsigned 64-bit integers. -/
  | uint64
  /-- 32-bit floating-point numbers. -/
  | float32
  /-- 64-bit floating-point numbers. -/
  | float64
  /-- Text. -/
  | text
  /-- Byte strings that are copied into the batch they are written with. -/
  | bytes
  /-- Byte strings that are handed on without a copy. -/
  | sharedBytes
  /-- Stored values of any type. -/
  | cell
deriving DecidableEq, Repr

namespace LeafType

/-- The values of a leaf type. -/
def Value : LeafType → Type
  | bool => Bool
  | int8 => Int8
  | int16 => Int16
  | int32 => Int32
  | int64 => Int64
  | uint8 => UInt8
  | uint16 => UInt16
  | uint32 => UInt32
  | uint64 => UInt64
  | float32 => Binary32
  | float64 => Binary64
  | text => String
  | bytes | sharedBytes => ByteArray
  | cell => Cell

/-- The stored form of the values of a leaf type. -/
def Physical : LeafType → Type
  | bool => Bool
  | int8 | int16 | int32 | uint8 | uint16 | uint32 => Int32
  | int64 | uint64 => Int64
  | float32 => Binary32
  | float64 => Binary64
  | text | bytes | sharedBytes => ByteArray
  | cell => Cell

/-- What an empty slot holds: false, zero, no bytes. -/
def blank : (t : LeafType) → t.Physical
  | bool => false
  | int8 | int16 | int32 | uint8 | uint16 | uint32 => (0 : Int32)
  | int64 | uint64 => (0 : Int64)
  | float32 => (⟨0⟩ : Binary32)
  | float64 => (⟨0⟩ : Binary64)
  | text | bytes | sharedBytes => ByteArray.empty
  | cell => Cell.boolean false

instance (t : LeafType) : Inhabited t.Physical := ⟨t.blank⟩

/-- Equality of leaf values, floating-point numbers compared as numbers. -/
def same : (t : LeafType) → t.Value → t.Value → Bool
  | bool, (a : Bool), b => a == b
  | int8, (a : Int8), b => a == b
  | int16, (a : Int16), b => a == b
  | int32, (a : Int32), b => a == b
  | int64, (a : Int64), b => a == b
  | uint8, (a : UInt8), b => a == b
  | uint16, (a : UInt16), b => a == b
  | uint32, (a : UInt32), b => a == b
  | uint64, (a : UInt64), b => a == b
  | float32, (a : Binary32), b => a == b
  | float64, (a : Binary64), b => a == b
  | text, (a : String), b => a == b
  | bytes, (a : ByteArray), b | sharedBytes, (a : ByteArray), b => a == b
  | cell, (a : Cell), b => a == b

instance (t : LeafType) : BEq t.Value := ⟨t.same⟩

/-- The storage type of a leaf type; none if each value brings its own. -/
def physicalType? : LeafType → Option PhysicalType
  | bool => some .boolean
  | int8 | int16 | int32 | uint8 | uint16 | uint32 => some .int32
  | int64 | uint64 => some .int64
  | float32 => some .float
  | float64 => some .double
  | text | bytes | sharedBytes => some .byteArray
  | cell => none

/-- Holds of the leaf types whose stored form is the value itself. Flat required
columns of such a type are read in bulk. -/
def isDirect : LeafType → Bool
  | bool | int32 | int64 | float32 | float64 | sharedBytes | cell => true
  | _ => false

/-- Whether values of a leaf type may be stored in a column of a storage type. -/
def fits (t : LeafType) (p : PhysicalType) : Bool :=
  match t.physicalType? with
  | some q => q == p
  | none => true

/-- The name of a leaf type in messages. That of `cell` is never shown, since stored
values of any type fit every column. -/
def title : LeafType → String
  | bool => "bool"
  | int8 => "i8"
  | int16 => "i16"
  | int32 => "i32"
  | int64 => "i64"
  | uint8 => "u8"
  | uint16 => "u16"
  | uint32 => "u32"
  | uint64 => "u64"
  | float32 => "f32"
  | float64 => "f64"
  | text => "alloc::string::String"
  | bytes => "alloc::vec::Vec<u8>"
  | sharedBytes => "bytes::bytes::Bytes"
  | cell => "Cell"

end LeafType

end Striping
