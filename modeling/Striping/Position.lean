import Striping.Level

/-!
# Positions

A column is a sequence of positions. Each has its levels, and a value if its definition
level is the greatest one of the column.

* `Position`: a position.
* `Position.place`: deals values out to the positions that are present.
-/

namespace Striping

/-- One position of a column. -/
structure Position (P : Type) where
  /-- The levels. -/
  levels : Levels
  /-- The value of a present position. -/
  value : Option P
deriving DecidableEq, Repr

/-- Gives the values, in order, to the positions at the level `present`. -/
def Position.place {P : Type} (present : Level) : List Levels → List P → List (Position P)
  | [], _ => []
  | levels :: rest, values =>
    if levels.definition = present then
      ⟨levels, values.head?⟩ :: place present rest values.tail
    else ⟨levels, none⟩ :: place present rest values

end Striping
