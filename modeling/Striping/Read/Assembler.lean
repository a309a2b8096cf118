import Striping.Options.Basic
import Striping.Read.Assemble
import Striping.Shape.Column

/-!
# Assemblers

An assembler reads the rows of one column.

* `Assembler.readRow`: the next row.
* `Assembler.readBatch`, `Assembler.readAll`: up to so many rows, or exactly so many.
* `Assembler.readRun`: columns of required leaves whose stored form is the value itself
  are read in bulk, without looking at levels.
* `Assembler.collect`: all rows that are left.
-/

namespace Striping

/-- Reads the rows of one column. -/
structure Assembler (t : LeafType) (ρ : Type) where
  /-- The column and its shape. -/
  shape : ColumnShape
  /-- The place reached in the column. -/
  cursor : Cursor ρ t.Physical
  /-- The number of rows read. -/
  rowsRead : Nat := 0

namespace Assembler

variable {t : LeafType} {ρ : Type}

/-- An assembler for the column of a shape. -/
def ofShape (shape : ColumnShape) (reader : ρ) (options : Options) :
    Except Error (Assembler t ρ) := do
  options.validate
  unless t.fits shape.column.physicalType do
    throw (.unsupportedShape shape.column.name (.cannotRead t shape.column.physicalType))
  let cursor ← Cursor.make reader shape.column.name shape.column.bounds options.bufferLength
  return { shape, cursor }

/-- An assembler for a column with its canonical shape. -/
def ofColumn (column : Column) (reader : ρ) (options : Options) :
    Except Error (Assembler t ρ) := do
  ofShape (← ColumnShape.infer column) reader options

/-- Whether rows are read in bulk. -/
def isDirect (a : Assembler t ρ) : Bool :=
  t.isDirect &&
    match a.shape.root with
    | .leaf none _ => true
    | _ => false

/-- The assembler after its cursor moved. -/
def withCursor (a : Assembler t ρ) (c : Cursor ρ t.Physical) : Assembler t ρ :=
  { a with cursor := c }

/-- Changes the reader behind the cursor. -/
def mapReader (a : Assembler t ρ) (f : ρ → ρ) : Assembler t ρ :=
  a.withCursor { a.cursor with reader := f a.cursor.reader }

variable [ColumnReader ρ t.Physical]

/-- Whether there is another row. -/
def hasNext (a : Assembler t ρ) : Outcome (Assembler t ρ) Bool :=
  (Outcome.map Option.isSome a.cursor.peek).within a.withCursor

/-- The next row, or nothing at the end of the column. -/
def readRow (a : Assembler t ρ) : Outcome (Assembler t ρ) (Option (Nested t.Value)) :=
  match a.cursor.peek with
  | (.error e, c) => (.error e, a.withCursor c)
  | (.ok none, c) => (.ok none, a.withCursor c)
  | (.ok (some levels), c) =>
    if levels.repetition ≠ 0 then (.error (c.corrupt levels .rowStart), a.withCursor c)
    else
      match a.shape.root.assemble t c with
      | (.error e, c) => (.error e, a.withCursor c)
      | (.ok row, c) => (.ok (some row), { a with cursor := c, rowsRead := a.rowsRead + 1 })

/-- Up to so many rows, one by one. -/
def readRows : Nat → Assembler t ρ → Outcome (Assembler t ρ) (List (Nested t.Value))
  | 0, a => (.ok [], a)
  | most + 1, a =>
    match a.readRow with
    | (.error e, a) => (.error e, a)
    | (.ok none, a) => (.ok [], a)
    | (.ok (some row), a) => Outcome.map (row :: ·) (readRows most a)

/-- Up to `most` stored values of a column without levels, in at most `runs` runs. Every
run but the last takes a value, so as many runs as values are enough. -/
def readRun : Nat → Nat → Cursor ρ t.Physical → Outcome (Cursor ρ t.Physical) (List t.Physical)
  | 0, _, c => (.ok [], c)
  | runs + 1, most, c =>
    if most = 0 then (.ok [], c)
    else
      match c.takeRun most with
      | (.error e, c) => (.error e, c)
      | (.ok [], c) => (.ok [], c)
      | (.ok (value :: values), c) =>
        Outcome.map ((value :: values) ++ ·) (readRun runs (most - (values.length + 1)) c)

/-- Up to so many rows in bulk. What was taken before a failure is lost. -/
def readDirect (a : Assembler t ρ) (most : Nat) :
    Outcome (Assembler t ρ) (List (Nested t.Value)) :=
  match readRun most most a.cursor with
  | (.error e, c) => (.error e, a.withCursor c)
  | (.ok physical, c) =>
    match physical.mapM t.ofPhysical with
    | .error e => (.error e, a.withCursor c)
    | .ok values =>
      (.ok (values.map .scalar), { a with cursor := c, rowsRead := a.rowsRead + values.length })

/-- Up to so many rows. -/
def readBatch (a : Assembler t ρ) (most : Nat) :
    Outcome (Assembler t ρ) (List (Nested t.Value)) :=
  if a.isDirect then a.readDirect most else a.readRows most

/-- Exactly so many rows. When there are fewer they are lost. -/
def readAll (a : Assembler t ρ) (count : Nat) :
    Outcome (Assembler t ρ) (List (Nested t.Value)) :=
  match a.readBatch count with
  | (.error e, a) => (.error e, a)
  | (.ok rows, a) =>
    if rows.length < count then
      (.error (.invalidArgument (.rows a.shape.column.name rows.length count)), a)
    else (.ok rows, a)

/-- All rows that are left, one by one. A row consumes a position, so the positions left
bound their number. -/
def collect (a : Assembler t ρ) : Outcome (Assembler t ρ) (List (Nested t.Value)) :=
  a.readRows (a.cursor.left + 1)

end Assembler

end Striping
