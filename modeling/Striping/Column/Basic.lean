import Striping.Column.Bounds
import Striping.Path

/-!
# Columns

* `Column`: what is known of a leaf column before any value is written or read: where
  it is, how it nests, and what it stores.
* `Column.make`: checks the frames.
-/

namespace Striping

/-- A leaf column of a schema. -/
structure Column where
  /-- The names from the schema root to the leaf. -/
  path : Path
  /-- The nodes from the schema root to the leaf. -/
  frames : List Frame
  /-- What the column stores. -/
  physicalType : PhysicalType
  /-- The greatest levels. -/
  bounds : LevelBounds
  /-- The bounds are those of the frames. -/
  bounds_eq : LevelBounds.ofFrames frames = .ok bounds
deriving DecidableEq

namespace Column

/-- The name of the column in messages. -/
def name (c : Column) : String := c.path.render

/-- The column with the given frames, which have to end in their only leaf. -/
def make (path : Path) (frames : List Frame) (physicalType : PhysicalType) :
    Except Error Column :=
  match h : LevelBounds.ofFrames frames with
  | .ok bounds => .ok ⟨path, frames, physicalType, bounds, h⟩
  | .error fault => .error (.unsupportedShape path.render fault)

/-- What the frame at a depth adds to the definition level; nothing behind the leaf. -/
def definitionStep (c : Column) (depth : Nat) : Level :=
  (c.frames[depth]?.map Frame.definitionStep).getD 0

/-- What the frame at a depth adds to the repetition level; nothing behind the leaf. -/
def repetitionStep (c : Column) (depth : Nat) : Level :=
  (c.frames[depth]?.map Frame.repetitionStep).getD 0

/-- One line about the column. -/
def render (c : Column) : String :=
  s!"{c.name} {c.physicalType.label} " ++
    s!"(max def: {c.bounds.definition}, max rep: {c.bounds.repetition})"

instance : ToString Column := ⟨render⟩

end Column

end Striping
