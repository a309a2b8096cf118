/-!
# Levels

Every position of a column carries two levels. The definition level counts the
optional and repeated frames of the column that are present there, the repetition
level tells which list goes on: 0 starts a new row.

* `Level`: a signed 16-bit word, as it is stored.
* `Level.add?`: the sum, if it is a level again.
* `Levels`: the two levels of a position.
-/

namespace Striping

/-- A definition or repetition level. -/
abbrev Level := Int16

/-- The sum of two levels, or nothing if it does not fit. -/
def Level.add? (a b : Level) : Option Level :=
  let sum := a.toInt + b.toInt
  if -32768 ≤ sum ∧ sum ≤ 32767 then some (a + b) else none

/-- The definition and repetition level of one position. -/
structure Levels where
  /-- How many optional and repeated frames are present. -/
  definition : Level
  /-- Which list goes on; 0 starts a new row. -/
  repetition : Level
deriving DecidableEq, Repr, Inhabited

end Striping
