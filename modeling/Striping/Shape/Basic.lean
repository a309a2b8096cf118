import Striping.Column.Frame

/-!
# Shapes

The nesting of the values of one column, without levels.

* `Shape`: scalars, structs around the member on the way to the leaf, and lists.
* `Shape.infer`: the canonical shape of a list of frames.
-/

namespace Striping

/-- The nesting of the values of one column. -/
inductive Shape where
  /-- A leaf value. -/
  | scalar
  /-- A struct, of which the column sees one member. -/
  | struct (member : Shape)
  /-- A list or a map, of which the column sees the elements. -/
  | list (element : Shape)
deriving DecidableEq, Repr

namespace Shape

/-- The canonical shape of a column. A list or map group makes a list and takes the
frame below it along; every other group makes a struct. -/
def infer : List Frame → Shape
  | [] => scalar
  | [frame] =>
    match frame.kind with
    | .primitive => scalar
    | .list | .map => list scalar
    | .group => struct scalar
  | frame :: next :: below =>
    match frame.kind with
    | .primitive => scalar
    | .list | .map => list (infer below)
    | .group => struct (infer (next :: below))

/-- The spelling of a shape. -/
def render : Shape → String
  | scalar => "scalar"
  | struct member => "struct<" ++ member.render ++ ">"
  | list element => "list<" ++ element.render ++ ">"

instance : ToString Shape := ⟨render⟩

end Shape

/-- The outermost form of a value. -/
inductive Variant where
  /-- Absent. -/
  | null
  /-- A leaf value. -/
  | scalar
  /-- A list. -/
  | list
  /-- A struct. -/
  | struct
deriving DecidableEq, Repr

/-- The spelling of a variant. -/
def Variant.label : Variant → String
  | .null => "null"
  | .scalar => "scalar"
  | .list => "list"
  | .struct => "struct"

end Striping
