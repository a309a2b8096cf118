import Striping.Record.Value

/-!
# Building records

* `ToValue`: what can stand for a value: leaves, options, lists, and values themselves.
* `RecordBuilder`: collects the members of a struct in order.
-/

namespace Striping

/-- Types whose elements stand for values. -/
class ToValue (α : Type) where
  /-- The value an element stands for. -/
  toValue : α → Value

export ToValue (toValue)

instance : ToValue Value := ⟨id⟩
instance : ToValue Bool := ⟨.boolean⟩
instance : ToValue Int32 := ⟨.int32⟩
instance : ToValue Int64 := ⟨.int64⟩
instance : ToValue Binary32 := ⟨.float⟩
instance : ToValue Binary64 := ⟨.double⟩
instance : ToValue String := ⟨.string⟩
instance : ToValue ByteArray := ⟨.binary⟩

/-- Nothing stands for null. -/
instance {α : Type} [ToValue α] : ToValue (Option α) := ⟨fun a => (a.map toValue).getD .null⟩

instance {α : Type} [ToValue α] : ToValue (List α) := ⟨fun as => .list (as.map toValue)⟩

/-- The members of a struct, collected in order. -/
structure RecordBuilder where
  /-- The members so far. -/
  members : List (String × Value) := []

namespace RecordBuilder

variable {α β : Type}

/-- Adds a member. -/
def field [ToValue α] (b : RecordBuilder) (name : String) (value : α) : RecordBuilder :=
  ⟨b.members ++ [(name, toValue value)]⟩

/-- Adds a list. -/
def repeated [ToValue α] (b : RecordBuilder) (name : String) (values : List α) : RecordBuilder :=
  b.field name values

/-- Adds a map. -/
def map [ToValue α] [ToValue β] (b : RecordBuilder) (name : String) (entries : List (α × β)) :
    RecordBuilder :=
  b.field name (Value.map (entries.map fun (k, v) => (toValue k, toValue v)))

/-- Adds a null. -/
def null (b : RecordBuilder) (name : String) : RecordBuilder := b.field name Value.null

/-- The struct of the collected members. -/
def build (b : RecordBuilder) : Value := .struct b.members

end RecordBuilder

end Striping
