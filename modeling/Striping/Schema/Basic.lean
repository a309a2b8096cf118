import Striping.Column.Frame
import Striping.Physical.Cell

/-!
# Schemas

* `DataType`, `Field`: the types of record members, which nest through lists, maps and
  structs.
* `Schema`: the fields of the records of a table.
* `Field.leafCount`: the number of leaf columns below a field.
-/

namespace Striping

/-- The type of a leaf member. -/
inductive Primitive where
  /-- Truth values. -/
  | boolean
  /-- Signed 32-bit integers. -/
  | int32
  /-- Signed 64-bit integers. -/
  | int64
  /-- 32-bit floating-point numbers. -/
  | float
  /-- 64-bit floating-point numbers. -/
  | double
  /-- Text. -/
  | string
  /-- Byte strings. -/
  | binary
deriving DecidableEq, Repr

namespace Primitive

/-- The spelling of a leaf type. -/
def label : Primitive → String
  | boolean => "Boolean"
  | int32 => "Int32"
  | int64 => "Int64"
  | float => "Float"
  | double => "Double"
  | string => "String"
  | binary => "Binary"

/-- What a column of the leaf type stores. -/
def physicalType : Primitive → PhysicalType
  | boolean => .boolean
  | int32 => .int32
  | int64 => .int64
  | float => .float
  | double => .double
  | string | binary => .byteArray

end Primitive

mutual

/-- The type of a member. -/
inductive DataType where
  /-- A leaf. -/
  | primitive (leaf : Primitive)
  /-- A list of elements. -/
  | list (element : Field)
  /-- Entries of a key and a value. -/
  | map (key value : Field)
  /-- A struct. -/
  | struct (fields : List Field)

/-- A named member of a record or struct. For lists and maps, being optional is said of
the list and not of its elements. -/
inductive Field where
  /-- The field with a name and a type. -/
  | mk (name : String) (type : DataType) (optional : Bool)

end

namespace DataType

/-- The spelling of the outermost form of a type. -/
def label : DataType → String
  | primitive leaf => leaf.label
  | list _ => "List"
  | map _ _ => "Map"
  | struct _ => "Struct"

/-- Holds of lists and maps. -/
def isRepeated : DataType → Bool
  | list _ | map _ _ => true
  | primitive _ | struct _ => false

/-- What a column of the type stores, if the type is a leaf. -/
def physicalType? : DataType → Option PhysicalType
  | primitive leaf => some leaf.physicalType
  | list _ | map _ _ | struct _ => none

end DataType

namespace Field

/-- The name. -/
def name : Field → String
  | mk name _ _ => name

/-- The type. -/
def type : Field → DataType
  | mk _ type _ => type

/-- Whether the member may be absent. -/
def isOptional : Field → Bool
  | mk _ _ optional => optional

/-- How often the member occurs. -/
def repetition (f : Field) : Repetition := if f.isOptional then .optional else .required

/-- The field of a name, the first of several. -/
def find? (fields : List Field) (name : String) : Option Field := fields.find? (·.name == name)

/-- The fields directly below a field. -/
def children (f : Field) : List Field :=
  match f.type with
  | .primitive _ => []
  | .list element => [element]
  | .map key value => [key, value]
  | .struct fields => fields

end Field

mutual

/-- The number of leaf columns below a field. -/
def Field.leafCount : Field → Nat
  | .mk _ type _ => type.leafCount

/-- The number of leaf columns of a type. -/
def DataType.leafCount : DataType → Nat
  | .primitive _ => 1
  | .list element => element.leafCount
  | .map key value => key.leafCount + value.leafCount
  | .struct fields => Field.leafCounts fields

/-- The number of leaf columns below several fields. -/
def Field.leafCounts : List Field → Nat
  | [] => 0
  | f :: rest => f.leafCount + Field.leafCounts rest

end

/-- The fields of the records of a table. -/
structure Schema where
  /-- The name of the table. -/
  name : String
  /-- The members of a record. -/
  fields : List Field

/-- Holds of a schema without fields. -/
def Schema.isEmpty (s : Schema) : Bool := s.fields.isEmpty

end Striping
