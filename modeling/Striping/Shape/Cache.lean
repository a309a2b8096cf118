import Striping.Outcome
import Striping.Shape.Column

/-!
# The shape cache

Shapes are built once for each column and then shared.

* `SharedShape`: a shape and the number of the build that made it, by which two requests
  are seen to share one build.
* `ShapeCache.getOrBuild`: the shape of a column. A shape is reused only if the columns
  are equal, not only their paths.
-/

namespace Striping

/-- A shape that may be shared by several requests. -/
structure SharedShape where
  /-- The shape. -/
  shape : ColumnShape
  /-- How many shapes the cache had built before. -/
  build : Nat
deriving DecidableEq

/-- The shapes built last, one for each path. -/
structure ShapeCache where
  /-- The shapes by path. -/
  entries : List (Path × SharedShape) := []
  /-- The number of shapes built so far. -/
  builds : Nat := 0

namespace ShapeCache

/-- The cache without shapes. -/
def empty : ShapeCache := {}

/-- The shape built last for a path. -/
def find? (c : ShapeCache) (p : Path) : Option SharedShape := c.entries.lookup p

/-- The number of paths with a shape. -/
def size (c : ShapeCache) : Nat := c.entries.length

/-- Keeps a new shape in the place of the one with the same path. -/
def insert (c : ShapeCache) (shape : ColumnShape) : SharedShape × ShapeCache :=
  let shared : SharedShape := ⟨shape, c.builds⟩
  let path := shape.column.path
  let others := c.entries.filter fun entry => entry.1 ≠ path
  (shared, { entries := (path, shared) :: others, builds := c.builds + 1 })

/-- Builds the shape of a column and keeps it. A failure changes nothing. -/
def build (c : ShapeCache) (column : Column) : Outcome ShapeCache SharedShape :=
  match ColumnShape.infer column with
  | .ok shape =>
    let (shared, c) := c.insert shape
    (.ok shared, c)
  | .error e => (.error e, c)

/-- The shape of a column, from the cache if it was built for an equal column. -/
def getOrBuild (c : ShapeCache) (column : Column) : Outcome ShapeCache SharedShape :=
  match c.find? column.path with
  | some shared => if shared.shape.column = column then (.ok shared, c) else c.build column
  | none => c.build column

end ShapeCache

end Striping
