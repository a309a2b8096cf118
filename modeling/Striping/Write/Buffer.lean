import Striping.Column.Bounds
import Striping.Physical.Contract
import Striping.Position
import Striping.Write.Lane

/-!
# Write buffers

A write buffer of fixed capacity stands in front of a column writer. It is written
through whenever it has no room for what comes next.

* `WriteBuffer.reserve`: makes room.
* `WriteBuffer.fill`, `WriteBuffer.advance`: writing into the slots behind the buffered
  positions, and committing them.
* `WriteBuffer.append`: reserves room for positions, writes and commits them.
* `WriteBuffer.flush`, `WriteBuffer.discard`: the two ways to empty the buffer. A flush
  that fails keeps it as it is.
-/

namespace Striping

/-- Positions on their way to a column writer. -/
structure WriteBuffer (ω P : Type) where
  /-- The writer. -/
  writer : ω
  /-- The greatest number of buffered positions. -/
  capacity : Nat
  /-- The definition levels, if the column stores them. -/
  definitions : Option (Lane Level)
  /-- The repetition levels, if the column stores them. -/
  repetitions : Option (Lane Level)
  /-- The values. -/
  values : Lane P
  /-- The number of buffered positions. -/
  buffered : Nat := 0
  /-- The number of batches the writer took. -/
  flushes : Nat := 0
  /-- There is room for a position. -/
  capacity_pos : 0 < capacity

namespace WriteBuffer

variable {ω P : Type}

/-- An empty buffer in front of a writer. -/
def make (writer : ω) (bounds : LevelBounds) (capacity : Nat) :
    Except Error (WriteBuffer ω P) :=
  if h : 0 < capacity then
    .ok {
      writer := writer
      capacity := capacity
      definitions := if bounds.storesDefinitions then some {} else none
      repetitions := if bounds.storesRepetitions then some {} else none
      values := {}
      capacity_pos := h }
  else .error (.invalidArgument .capacity)

/-- The buffered positions as a batch. -/
def batch (b : WriteBuffer ω P) : Batch P where
  definitions := b.definitions.map Lane.filled
  repetitions := b.repetitions.map Lane.filled
  values := b.values.filled

/-- Writes into the slots behind the buffered positions. Levels that the column does not
store are dropped. -/
def fill (b : WriteBuffer ω P) (definitions repetitions : List Level) (values : List P) :
    WriteBuffer ω P :=
  { b with
    definitions := b.definitions.map (·.overlay definitions)
    repetitions := b.repetitions.map (·.overlay repetitions)
    values := b.values.overlay values }

variable [Inhabited P]

/-- Commits the next slots, some of them without a value. -/
def advance (b : WriteBuffer ω P) (positions values : Nat) : WriteBuffer ω P :=
  { b with
    definitions := b.definitions.map (·.commit positions)
    repetitions := b.repetitions.map (·.commit positions)
    values := b.values.commit values
    buffered := b.buffered + positions }

/-- Drops the buffered positions. Their values are released. -/
def discard (b : WriteBuffer ω P) : WriteBuffer ω P :=
  { b with
    definitions := b.definitions.map Lane.release
    repetitions := b.repetitions.map Lane.release
    values := b.values.clear
    buffered := 0 }

variable [ColumnWriter ω P]

/-- Writes the buffered positions through, if there are any. -/
def flush (b : WriteBuffer ω P) : Outcome (WriteBuffer ω P) Unit :=
  if b.buffered = 0 then (.ok (), b)
  else
    match ColumnWriter.writeBatch b.writer b.batch with
    | (.ok (), writer) =>
      (.ok (), { b.discard with writer := writer, flushes := b.flushes + 1 })
    | (.error e, writer) => (.error e, { b with writer := writer })

/-- Makes room for `n` positions. -/
def reserve (b : WriteBuffer ω P) (n : Nat) : Outcome (WriteBuffer ω P) Unit :=
  if b.capacity < n then (.error (.invalidArgument (.slots n b.capacity)), b)
  else if b.capacity < b.buffered + n then b.flush
  else (.ok (), b)

/-- Writes positions into the slots and commits them. -/
def put (b : WriteBuffer ω P) (positions : List (Position P)) : WriteBuffer ω P :=
  let values := positions.filterMap (·.value)
  (b.fill (positions.map (·.levels.definition)) (positions.map (·.levels.repetition))
    values).advance positions.length values.length

/-- Buffers some positions side by side. -/
def append (b : WriteBuffer ω P) (positions : List (Position P)) :
    Outcome (WriteBuffer ω P) Unit :=
  match b.reserve positions.length with
  | (.ok (), b) => (.ok (), b.put positions)
  | (.error e, b) => (.error e, b)

/-- Buffers one position. -/
def push (b : WriteBuffer ω P) (p : Position P) : Outcome (WriteBuffer ω P) Unit := b.append [p]

end WriteBuffer

end Striping
