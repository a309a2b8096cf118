import Striping.Schema.Basic

/-!
# Record values

* `Value`: a member of a record. A record is a struct whose members are the fields of the
  schema.
* `Value.get?`: the member of a name, the first of several.
* `Value.matchesType`: whether a value has the outermost form of a type; null has every
  form.
-/

namespace Striping

/-- A member of a record. -/
inductive Value where
  /-- Absent. -/
  | null
  /-- A truth value. -/
  | boolean (value : Bool)
  /-- A signed 32-bit integer. -/
  | int32 (value : Int32)
  /-- A signed 64-bit integer. -/
  | int64 (value : Int64)
  /-- A 32-bit floating-point number. -/
  | float (value : Binary32)
  /-- A 64-bit floating-point number. -/
  | double (value : Binary64)
  /-- Text. -/
  | string (value : String)
  /-- A byte string. -/
  | binary (value : ByteArray)
  /-- A list, possibly empty. -/
  | list (items : List Value)
  /-- Entries of a key and a value, in the order they were put in. -/
  | map (entries : List (Value × Value))
  /-- Named members. -/
  | struct (members : List (String × Value))
deriving Inhabited

namespace Value

/-- Holds of null. -/
def isNull : Value → Bool
  | null => true
  | _ => false

/-- The member of a name among named members, the first of several. -/
def find? (members : List (String × Value)) (name : String) : Option Value :=
  (members.find? (·.1 == name)).map (·.2)

/-- The member of a name, if the value is a struct and has it. -/
def get? (v : Value) (name : String) : Option Value :=
  match v with
  | struct members => find? members name
  | _ => none

/-- Whether a value has the outermost form of a type. -/
def matchesType : Value → DataType → Bool
  | null, _ => true
  | boolean _, .primitive .boolean => true
  | int32 _, .primitive .int32 => true
  | int64 _, .primitive .int64 => true
  | float _, .primitive .float => true
  | double _, .primitive .double => true
  | string _, .primitive .string => true
  | binary _, .primitive .binary => true
  | list _, .list _ => true
  | map _, .map _ _ => true
  | struct _, .struct _ => true
  | _, _ => false

/-- The stored form of a leaf value. -/
def toCell? : Value → Option Cell
  | boolean v => some (.boolean v)
  | int32 v => some (.int32 v)
  | int64 v => some (.int64 v)
  | float v => some (.float v)
  | double v => some (.double v)
  | string v => some (.byteArray v.toUTF8)
  | binary v => some (.byteArray v)
  | null | list _ | map _ | struct _ => none

mutual

/-- Equality of values, floating-point numbers compared as numbers. -/
protected def beq : Value → Value → Bool
  | null, null => true
  | boolean a, boolean b => a == b
  | int32 a, int32 b => a == b
  | int64 a, int64 b => a == b
  | float a, float b => a == b
  | double a, double b => a == b
  | string a, string b => a == b
  | binary a, binary b => a == b
  | list as, list bs => beqItems as bs
  | map as, map bs => beqEntries as bs
  | struct as, struct bs => beqMembers as bs
  | _, _ => false

/-- Equality of the items of lists. -/
def beqItems : List Value → List Value → Bool
  | [], [] => true
  | a :: as, b :: bs => a.beq b && beqItems as bs
  | _, _ => false

/-- Equality of the entries of maps. -/
def beqEntries : List (Value × Value) → List (Value × Value) → Bool
  | [], [] => true
  | (k, a) :: as, (l, b) :: bs => k.beq l && a.beq b && beqEntries as bs
  | _, _ => false

/-- Equality of the members of structs. -/
def beqMembers : List (String × Value) → List (String × Value) → Bool
  | [], [] => true
  | (m, a) :: as, (n, b) :: bs => m == n && a.beq b && beqMembers as bs
  | _, _ => false

end

instance : BEq Value := ⟨Value.beq⟩

end Value

end Striping
