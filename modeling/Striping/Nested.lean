import Striping.Leaf.Basic
import Striping.Shape.Basic

/-!
# Nested values of one column

A column sees the slice of a record along its own path. A struct therefore has one
member here, the one on the way to the leaf.

* `Nested`: the values of a column.
* `Nested.beq`: equality up to an equality of the leaf values.
-/

namespace Striping

/-- A value at some depth of one column. -/
inductive Nested (α : Type) where
  /-- Absent at this depth. -/
  | null
  /-- A leaf value. -/
  | scalar (value : α)
  /-- A list, possibly empty. -/
  | list (items : List (Nested α))
  /-- A struct with its member on the way to the leaf. -/
  | struct (member : Nested α)
deriving Inhabited

namespace Nested

variable {α : Type}

/-- The value of an optional leaf. -/
def ofOption : Option α → Nested α
  | none => null
  | some a => scalar a

/-- Holds of null. -/
def isNull : Nested α → Bool
  | null => true
  | _ => false

/-- The leaf value of a scalar. -/
def scalar? : Nested α → Option α
  | scalar a => some a
  | _ => none

/-- The outermost form of a value. -/
def variant : Nested α → Variant
  | null => .null
  | scalar _ => .scalar
  | list _ => .list
  | struct _ => .struct

mutual

/-- Equality up to an equality of the leaf values. -/
def beqBy (same : α → α → Bool) : Nested α → Nested α → Bool
  | null, null => true
  | scalar a, scalar b => same a b
  | list as, list bs => beqAllBy same as bs
  | struct a, struct b => a.beqBy same b
  | _, _ => false

/-- Equality of lists up to an equality of the leaf values. -/
def beqAllBy (same : α → α → Bool) : List (Nested α) → List (Nested α) → Bool
  | [], [] => true
  | a :: as, b :: bs => a.beqBy same b && beqAllBy same as bs
  | _, _ => false

end

instance [BEq α] : BEq (Nested α) := ⟨beqBy (· == ·)⟩

end Nested

end Striping
