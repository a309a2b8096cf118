import Striping.Options.Basic
import Striping.Shape.Column
import Striping.Write.Buffer
import Striping.Write.Shred

/-!
# Shredders

A shredder writes batches of rows to one column. A batch is checked as a whole before
the first position is buffered, and written through at its end.

* `Shredder.write`: writes a batch. After a failure of the writer the column may hold a
  part of it, so the shredder refuses all further work.
* `Shredder.writeRun`: columns without nesting are written in runs of the capacity of the
  buffer.
* `Shredder.close`: gives the writer back.
-/

namespace Striping

/-- Cuts a list into runs of `n` elements, the last one possibly shorter. -/
def chunks {α : Type} (n : Nat) (as : List α) : List (List α) :=
  go as.length as
where
  /-- At most `count` runs. -/
  go : Nat → List α → List (List α)
    | 0, _ => []
    | count + 1, as => if as.isEmpty then [] else as.take n :: go count (as.drop n)

/-- Writes rows to one column. -/
structure Shredder (t : LeafType) (ω : Type) where
  /-- The column and its shape. -/
  shape : ColumnShape
  /-- The buffer in front of the writer. -/
  buffer : WriteBuffer ω t.Physical
  /-- The number of rows written. -/
  rowsWritten : Nat := 0
  /-- A write failed. -/
  failed : Bool := false

namespace Shredder

variable {t : LeafType} {ω : Type}

/-- A shredder for the column of a shape. -/
def ofShape (shape : ColumnShape) (writer : ω) (options : Options) :
    Except Error (Shredder t ω) := do
  options.validate
  unless t.fits shape.column.physicalType do
    throw (.unsupportedShape shape.column.name (.cannotStore t shape.column.physicalType))
  let buffer ← WriteBuffer.make writer shape.column.bounds options.bufferLength
  return { shape, buffer }

/-- A shredder for a column with its canonical shape. -/
def ofColumn (column : Column) (writer : ω) (options : Options) : Except Error (Shredder t ω) := do
  ofShape (← ColumnShape.infer column) writer options

/-- The name of the column in messages. -/
def column (s : Shredder t ω) : String := s.shape.column.name

/-- Holds until a write fails. -/
def isUsable (s : Shredder t ω) : Bool := !s.failed

/-- Fails after a failed write. -/
def checkUsable (s : Shredder t ω) : Except Error Unit :=
  if s.failed then .error (.writerFailed s.column) else .ok ()

/-- Checks that every row has the nesting of the column. -/
def validate (s : Shredder t ω) (rows : List (Nested t.Value)) : Except Error Unit :=
  rows.forM (s.shape.root.validate s.column)

/-- The position of a row of a column without nesting. -/
def leafPosition (nullLevel : Option Level) (valueLevel : Level) :
    Nested t.Value → Position t.Physical
  | .scalar value => ⟨⟨valueLevel, 0⟩, some (t.toPhysical value)⟩
  | _ => ⟨⟨nullLevel.getD valueLevel, 0⟩, none⟩

variable [ColumnWriter ω t.Physical]

/-- Buffers rows of a column without nesting, in runs of the capacity of the buffer. -/
def writeRun (nullLevel : Option Level) (valueLevel : Level) (b : WriteBuffer ω t.Physical)
    (rows : List (Nested t.Value)) : Outcome (WriteBuffer ω t.Physical) Unit :=
  Outcome.forEach (fun b run => b.append (run.map (leafPosition nullLevel valueLevel))) b
    (chunks b.capacity rows)

/-- Buffers the positions of one row. -/
def writeRow (column : String) (root : Node) (b : WriteBuffer ω t.Physical)
    (row : Nested t.Value) : Outcome (WriteBuffer ω t.Physical) Unit :=
  match root.shred t column row 0 with
  | .ok positions => Outcome.forEach WriteBuffer.push b positions
  | .error e => (.error e, b)

/-- Buffers rows. -/
def writeRows (column : String) (root : Node) (b : WriteBuffer ω t.Physical)
    (rows : List (Nested t.Value)) : Outcome (WriteBuffer ω t.Physical) Unit :=
  match root with
  | .leaf nullLevel valueLevel => writeRun nullLevel valueLevel b rows
  | root => Outcome.forEach (writeRow column root) b rows

/-- Buffers rows and writes them through. -/
def emit (s : Shredder t ω) (rows : List (Nested t.Value)) :
    Outcome (WriteBuffer ω t.Physical) Unit :=
  match writeRows s.column s.shape.root s.buffer rows with
  | (.ok (), b) => b.flush
  | (.error e, b) => (.error e, b)

/-- Writes a batch of rows and gives their number. -/
def write (s : Shredder t ω) (rows : List (Nested t.Value)) : Outcome (Shredder t ω) Nat :=
  match (do s.checkUsable; s.validate rows : Except Error Unit) with
  | .error e => (.error e, s)
  | .ok () =>
    match s.emit rows with
    | (.ok (), b) =>
      (.ok rows.length, { s with buffer := b, rowsWritten := s.rowsWritten + rows.length })
    | (.error e, b) => (.error e, { s with buffer := b.discard, failed := true })

/-- Writes through what is buffered and ends the work of the shredder. -/
def close (s : Shredder t ω) : Outcome (Shredder t ω) Unit :=
  match s.checkUsable with
  | .error e => (.error e, s)
  | .ok () => s.buffer.flush.within fun b => { s with buffer := b }

/-- The writer behind the buffer. -/
def writer (s : Shredder t ω) : ω := s.buffer.writer

/-- Changes the writer behind the buffer. -/
def mapWriter (s : Shredder t ω) (f : ω → ω) : Shredder t ω :=
  { s with buffer := { s.buffer with writer := f s.buffer.writer } }

end Shredder

end Striping
