import Striping.Shape.Node

/-!
# Column shapes

* `ColumnShape`: a column together with a shape that fits its frames.
* `ColumnShape.make`, `ColumnShape.infer`: for a given shape, and for the canonical one.
-/

namespace Striping

/-- A column and a shape that follows its frames. -/
structure ColumnShape where
  /-- The column. -/
  column : Column
  /-- The shape of its values. -/
  shape : Shape
  /-- The shape with the levels of the column. -/
  root : Node
  /-- The levels are those of the frames. -/
  root_eq : Node.build column.frames.length shape column.frames 0 0 = .ok root
deriving DecidableEq

namespace ColumnShape

/-- Matches a shape against the frames of a column. -/
def make (column : Column) (shape : Shape) : Except Error ColumnShape :=
  match h : Node.build column.frames.length shape column.frames 0 0 with
  | .error fault => .error (.unsupportedShape column.name fault)
  | .ok root =>
    if root.valueLevel = column.bounds.definition then .ok ⟨column, shape, root, h⟩
    else .error (.unsupportedShape column.name
      (.leafLevel root.valueLevel column.bounds.definition))

/-- The column with the canonical shape of its frames. -/
def infer (column : Column) : Except Error ColumnShape := make column (.infer column.frames)

/-- Holds if the rows of the column are its leaf values. -/
def isRootLeaf (s : ColumnShape) : Bool := s.root.isLeaf

end ColumnShape

end Striping
