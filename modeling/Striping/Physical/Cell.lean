import Striping.Number.Binary

/-!
# Physical values

What a column stores.

* `PhysicalType`: the storage types.
* `Cell`: a stored value together with its type.
-/

namespace Striping

/-- A storage type. -/
inductive PhysicalType where
  /-- Truth values. -/
  | boolean
  /-- Signed 32-bit integers. -/
  | int32
  /-- Signed 64-bit integers. -/
  | int64
  /-- 32-bit floating-point numbers. -/
  | float
  /-- 64-bit floating-point numbers. -/
  | double
  /-- Byte strings. -/
  | byteArray
deriving DecidableEq, Repr

/-- The spelling of a storage type. -/
def PhysicalType.label : PhysicalType → String
  | .boolean => "Boolean"
  | .int32 => "Int32"
  | .int64 => "Int64"
  | .float => "Float"
  | .double => "Double"
  | .byteArray => "ByteArray"

/-- A stored value that carries its type. -/
inductive Cell where
  /-- A truth value. -/
  | boolean (value : Bool)
  /-- A signed 32-bit integer. -/
  | int32 (value : Int32)
  /-- A signed 64-bit integer. -/
  | int64 (value : Int64)
  /-- A 32-bit floating-point number. -/
  | float (value : Binary32)
  /-- A 64-bit floating-point number. -/
  | double (value : Binary64)
  /-- A byte string. -/
  | byteArray (value : ByteArray)

namespace Cell

instance : Inhabited Cell := ⟨boolean false⟩

/-- The storage type of a value. -/
def physicalType : Cell → PhysicalType
  | boolean _ => .boolean
  | int32 _ => .int32
  | int64 _ => .int64
  | float _ => .float
  | double _ => .double
  | byteArray _ => .byteArray

/-- Equality of values of one type, floating-point numbers compared as numbers. -/
protected def beq : Cell → Cell → Bool
  | boolean a, boolean b => a == b
  | int32 a, int32 b => a == b
  | int64 a, int64 b => a == b
  | float a, float b => a == b
  | double a, double b => a == b
  | byteArray a, byteArray b => a == b
  | _, _ => false

instance : BEq Cell := ⟨Cell.beq⟩

end Cell

end Striping
