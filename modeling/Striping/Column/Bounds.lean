import Striping.Error

/-!
# Level bounds

The greatest levels of a column follow from its frames.

* `LevelBounds.enter?`: the bounds one frame further down. Only the definition level is
  checked; the repetition level is never the greater one.
* `LevelBounds.ofFrames`: the bounds of a column, whose frames have to end in their only
  leaf.
-/

namespace Striping

/-- The greatest levels of a column. -/
structure LevelBounds where
  /-- The greatest definition level, that of a present leaf. -/
  definition : Level
  /-- The greatest repetition level, that of the innermost list. -/
  repetition : Level
deriving DecidableEq, Repr, Inhabited

namespace LevelBounds

/-- The bounds one frame further down, if the definition level still fits. -/
def enter? (b : LevelBounds) (f : Frame) : Option LevelBounds :=
  match Level.add? b.definition f.definitionStep with
  | some definition => some ⟨definition, b.repetition + f.repetitionStep⟩
  | none => none

/-- The bounds below all the frames, outermost first. -/
def sum? (frames : List Frame) : Option LevelBounds := frames.foldlM enter? ⟨0, 0⟩

/-- The bounds of a column with these frames. -/
def ofFrames (frames : List Frame) : Except ShapeFault LevelBounds :=
  match frames.getLast? with
  | none => .error .noFrames
  | some last =>
    if last.kind = .primitive then
      match frames.dropLast.findIdx? (·.kind = .primitive) with
      | some depth => .error (.earlyLeaf depth)
      | none =>
        match sum? frames with
        | some bounds => .ok bounds
        | none => .error .levelOverflow
    else .error (.lastNotLeaf last)

/-- Whether a column with these bounds stores definition levels. -/
def storesDefinitions (b : LevelBounds) : Bool := 0 < b.definition

/-- Whether a column with these bounds stores repetition levels. -/
def storesRepetitions (b : LevelBounds) : Bool := 0 < b.repetition

/-- Whether both levels lie within the bounds. -/
def contains (b : LevelBounds) (l : Levels) : Bool :=
  0 ≤ l.definition && l.definition ≤ b.definition &&
    0 ≤ l.repetition && l.repetition ≤ b.repetition

end LevelBounds

end Striping
