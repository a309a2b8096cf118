import Striping.Column.Bounds
import Striping.Physical.Contract
import Striping.Position

/-!
# Cursors

A cursor walks over the positions of one column. It asks the reader for a batch at a
time and checks what it is told before anything relies on it.

* `Cursor.refill`: asks for the next batch.
* `Cursor.peek`, `Cursor.advance`: the levels at the current position, and the step to
  the next one.
* `Cursor.takeValue`, `Cursor.takeRun`: take one value, or a run of positions of a
  column without levels.
* `Cursor.next`: takes the current position as a whole.

The buffers keep what an earlier batch left in them. A reader that promises more than it
delivers makes this visible; a value that was taken leaves a blank behind.
-/

namespace Striping

/-- The place reached in a column. -/
structure Cursor (ρ P : Type) where
  /-- The reader. -/
  reader : ρ
  /-- The name of the column in messages. -/
  column : String
  /-- The greatest levels. -/
  bounds : LevelBounds
  /-- The number of positions asked for at a time. -/
  batchSize : Nat
  /-- The buffer of definition levels, as far as it was ever touched. -/
  definitions : Array Level := #[]
  /-- The buffer of repetition levels, as far as it was ever touched. -/
  repetitions : Array Level := #[]
  /-- The buffer of values, as far as it was ever touched. -/
  values : Array P := #[]
  /-- Positions of the current batch. -/
  levelsRead : Nat := 0
  /-- Values of the current batch. -/
  valuesRead : Nat := 0
  /-- Positions of the current batch that were consumed. -/
  levelIndex : Nat := 0
  /-- Values of the current batch that were taken. -/
  valueIndex : Nat := 0
  /-- The reader has nothing more. -/
  exhausted : Bool := false

namespace Cursor

variable {ρ P : Type}

/-- A cursor in front of the first position. -/
def make (reader : ρ) (column : String) (bounds : LevelBounds) (batchSize : Nat) :
    Except Error (Cursor ρ P) :=
  if batchSize = 0 then .error (.invalidArgument .batchSize)
  else .ok { reader, column, bounds, batchSize }

/-- A buffer of `size` slots after new entries were put at its start. -/
def overlay {α : Type} (size : Nat) (buffer entries : Array α) : Array α :=
  entries.extract 0 size ++ buffer.extract (min size entries.size) buffer.size

/-- The failure to read the column, seen at some levels. -/
def corrupt (c : Cursor ρ P) (levels : Levels) (fault : StreamFault) : Error :=
  .corruptStream c.column levels fault

/-- The failure to read the column, seen between two batches. -/
def corruptBatch (c : Cursor ρ P) (fault : StreamFault) : Error :=
  c.corrupt ⟨c.bounds.definition, 0⟩ fault

/-- What the reader is asked for. -/
def request (c : Cursor ρ P) : Request where
  positions := c.batchSize
  definitions := c.bounds.storesDefinitions
  repetitions := c.bounds.storesRepetitions
  values := c.batchSize

/-- The buffers after an answer of the reader. -/
def load (c : Cursor ρ P) (a : Answer P) : Cursor ρ P :=
  { c with
    definitions :=
      if c.bounds.storesDefinitions then overlay c.batchSize c.definitions a.definitions
      else c.definitions
    repetitions :=
      if c.bounds.storesRepetitions then overlay c.batchSize c.repetitions a.repetitions
      else c.repetitions
    values := overlay c.batchSize c.values a.values }

/-- The levels in the buffers at the current position. -/
def levels (c : Cursor ρ P) : Levels where
  definition :=
    if c.bounds.storesDefinitions then c.definitions.getD c.levelIndex 0 else c.bounds.definition
  repetition := if c.bounds.storesRepetitions then c.repetitions.getD c.levelIndex 0 else 0

/-- Consumes the current position. -/
def advance (c : Cursor ρ P) : Cursor ρ P := { c with levelIndex := c.levelIndex + 1 }

/-- Takes the next value of the current batch. -/
def takeValue [Inhabited P] (c : Cursor ρ P) (levels : Levels) : Outcome (Cursor ρ P) P :=
  if c.valueIndex < c.valuesRead then
    (.ok (c.values.getD c.valueIndex default), { c with
      values := c.values.setIfInBounds c.valueIndex default
      valueIndex := c.valueIndex + 1 })
  else (.error (c.corrupt levels .missingValue), c)

variable [ColumnReader ρ P]

/-- A bound of the positions that are still to come. -/
def left (c : Cursor ρ P) : Nat := (c.levelsRead - c.levelIndex) + ColumnReader.supply c.reader

/-- Asks for the next batch and tells whether there is one. All values of the last batch
must have been taken. Counts that cannot be true are refused before they are used. -/
def refill (c : Cursor ρ P) : Outcome (Cursor ρ P) Bool :=
  if c.exhausted then (.ok false, c)
  else if c.valueIndex < c.valuesRead then
    (.error (c.corruptBatch (.spareValues (c.valuesRead - c.valueIndex))), c)
  else
    match ColumnReader.readBatch c.reader c.request with
    | (.error e, reader) => (.error e, { c with reader := reader })
    | (.ok a, reader) =>
      let c := { c.load a with reader := reader }
      if c.batchSize < a.levelsRead ∨ a.levelsRead < a.valuesRead then
        (.error (c.corruptBatch (.badCounts a.valuesRead a.levelsRead c.batchSize)), c)
      else
        (.ok (a.levelsRead ≠ 0), { c with
          levelsRead := a.levelsRead
          valuesRead := a.valuesRead
          levelIndex := 0
          valueIndex := 0
          exhausted := a.levelsRead = 0 })

/-- Makes sure that there is a current position and tells whether there is one. -/
def ready (c : Cursor ρ P) : Outcome (Cursor ρ P) Bool :=
  if c.levelIndex = c.levelsRead then c.refill else (.ok true, c)

/-- The levels at the current position, or nothing at the end of the column. -/
def peek (c : Cursor ρ P) : Outcome (Cursor ρ P) (Option Levels) :=
  match c.ready with
  | (.error e, c) => (.error e, c)
  | (.ok false, c) => (.ok none, c)
  | (.ok true, c) =>
    if c.bounds.contains c.levels then (.ok (some c.levels), c)
    else (.error (c.corrupt c.levels (.outOfBounds c.bounds.definition c.bounds.repetition)), c)

/-- Holds at the end of the column. -/
def isExhausted (c : Cursor ρ P) : Outcome (Cursor ρ P) Bool :=
  Outcome.map Option.isNone c.peek

/-- The current position, which is consumed with its value; nothing at the end of the
column. -/
def next [Inhabited P] (c : Cursor ρ P) : Outcome (Cursor ρ P) (Option (Position P)) :=
  match c.peek with
  | (.error e, c) => (.error e, c)
  | (.ok none, c) => (.ok none, c)
  | (.ok (some levels), c) =>
    if levels.definition = c.bounds.definition then
      match c.takeValue levels with
      | (.error e, c) => (.error e, c)
      | (.ok value, c) => (.ok (some ⟨levels, some value⟩), c.advance)
    else (.ok (some ⟨levels, none⟩), c.advance)

/-- Takes up to `most` positions of the current batch, or of the next one, from a column
that stores no levels. No positions are taken only at the end of the column. -/
def takeRun [Inhabited P] (c : Cursor ρ P) (most : Nat) : Outcome (Cursor ρ P) (List P) :=
  match c.ready with
  | (.error e, c) => (.error e, c)
  | (.ok false, c) => (.ok [], c)
  | (.ok true, c) =>
    let n := min most (c.levelsRead - c.levelIndex)
    if c.valuesRead < c.valueIndex + n then (.error (c.corruptBatch .missingValue), c)
    else
      let places := List.range' c.valueIndex n
      (.ok (places.map fun i => c.values.getD i default), { c with
        values := places.foldl (fun values i => values.setIfInBounds i default) c.values
        levelIndex := c.levelIndex + n
        valueIndex := c.valueIndex + n })

end Cursor

end Striping
