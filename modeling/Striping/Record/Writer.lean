import Striping.Record.Columns
import Striping.Record.Projection
import Striping.Write.Shredder

/-!
# Writing records

A record writer shreds records into all columns of a schema.

* `RecordWriter.write`: writes a batch of records to all columns or to none. Only a
  failure of the physical layer can leave a part of it behind; then the writer refuses
  all further work.
* `RecordWriter.close`.
-/

namespace Striping

/-- Writes records to the columns of a schema. -/
structure RecordWriter (ω : Type) where
  /-- The schema. -/
  schema : Schema
  /-- The columns, in the order of the schema. -/
  columns : List (Shredder .cell ω)
  /-- The number of records written. -/
  recordsWritten : Nat := 0
  /-- The column at which a write failed. -/
  failedColumn : Option String := none

namespace RecordWriter

variable {ω : Type}

/-- A record writer with a column writer for each leaf column, in the order of the
schema. -/
def ofSchema (schema : Schema) (writers : List ω) (cache : ShapeCache) (options : Options) :
    Outcome ShapeCache (RecordWriter ω) :=
  match schema.columns with
  | .error e => (.error e, cache)
  | .ok columns =>
    if writers.length ≠ columns.length then
      (.error (.invalidArgument (.writerCount writers.length columns.length schema.name)), cache)
    else
      Outcome.map (fun shredders => { schema := schema, columns := shredders })
        (cache.openEach (fun shape writer => Shredder.ofShape shape writer options)
          (columns.zip writers))

/-- Fails after a failed write. -/
def checkUsable (w : RecordWriter ω) : Except Error Unit :=
  match w.failedColumn with
  | some column => .error (.writerFailed column)
  | none => .ok ()

/-- What each column sees of the records. -/
def project (w : RecordWriter ω) (records : List Value) :
    Except Error (List (List (Nested Cell))) :=
  w.columns.mapM fun s =>
    records.mapM fun record => projectRecord w.schema.fields record s.shape.column.path

/-- Checks that each column can take its rows. -/
def validateColumns : List (Shredder .cell ω) → List (List (Nested Cell)) → Except Error Unit
  | s :: rest, rows :: more =>
    match s.validate rows with
    | .error e => .error e
    | .ok () => validateColumns rest more
  | _, _ => .ok ()

/-- Everything that is checked before a batch is written; gives the rows of each column. -/
def prepare (w : RecordWriter ω) (records : List Value) :
    Except Error (List (List (Nested Cell))) := do
  w.checkUsable
  records.forM (Value.checkRecord w.schema.fields)
  let rows ← w.project records
  validateColumns w.columns rows
  return rows

variable [ColumnWriter ω Cell]

/-- Writes its rows to each column, up to the first that fails. -/
def writeColumns :
    List (Shredder .cell ω) → List (List (Nested Cell)) →
      Option (String × Error) × List (Shredder .cell ω)
  | s :: rest, rows :: more =>
    match s.write rows with
    | (.error e, s) => (some (s.column, e), s :: rest)
    | (.ok _, s) =>
      let (failure, rest) := writeColumns rest more
      (failure, s :: rest)
  | columns, _ => (none, columns)

/-- Writes a batch of records and gives their number. -/
def write (w : RecordWriter ω) (records : List Value) : Outcome (RecordWriter ω) Nat :=
  match w.prepare records with
  | .error e => (.error e, w)
  | .ok rows =>
    match writeColumns w.columns rows with
    | (some (column, e), columns) =>
      (.error e, { w with columns := columns, failedColumn := some column })
    | (none, columns) =>
      (.ok records.length, { w with
        columns := columns
        recordsWritten := w.recordsWritten + records.length })

/-- Ends the work of all columns. -/
def close (w : RecordWriter ω) : Outcome (RecordWriter ω) Unit :=
  match w.checkUsable with
  | .error e => (.error e, w)
  | .ok () =>
    (Outcome.map (fun _ => ()) (Outcome.mapEach Shredder.close w.columns)).within
      fun columns => { w with columns := columns }

end RecordWriter

end Striping
