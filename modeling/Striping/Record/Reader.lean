import Striping.Read.Assembler
import Striping.Record.Columns
import Striping.Record.Merge

/-!
# Reading records

A record reader assembles all columns of a schema and merges their rows.

* `RecordReader.read`: up to so many records. The columns are read one after the other,
  and have to deliver equally many rows.
-/

namespace Striping

/-- Reads records from the columns of a schema. -/
structure RecordReader (ρ : Type) where
  /-- The schema. -/
  schema : Schema
  /-- The columns, in the order of the schema. -/
  columns : List (Assembler .cell ρ)
  /-- The number of records read. -/
  recordsRead : Nat := 0

namespace RecordReader

variable {ρ : Type}

/-- A record reader with a column reader for each leaf column, in the order of the
schema. -/
def ofSchema (schema : Schema) (readers : List ρ) (cache : ShapeCache) (options : Options) :
    Outcome ShapeCache (RecordReader ρ) :=
  match schema.columns with
  | .error e => (.error e, cache)
  | .ok columns =>
    if readers.length ≠ columns.length then
      (.error (.invalidArgument (.readerCount readers.length columns.length schema.name)), cache)
    else
      Outcome.map (fun assemblers => { schema := schema, columns := assemblers })
        (cache.openEach (fun shape reader => Assembler.ofShape shape reader options)
          (columns.zip readers))

/-- The records with the given rows of all columns. `names` are those of the columns. -/
def mergeBatches (fields : List Field) (names : List String) (batches : List (List (Nested Cell))) :
    Except Error (List Value) :=
  let rows := (batches.head?.map List.length).getD 0
  match (names.zip batches).find? fun (_, batch) => batch.length ≠ rows with
  | some (name, batch) => .error (.corruptStream name ⟨0, 0⟩ (.unevenRows batch.length rows))
  | none => (rowsOf rows batches).mapM (mergeRecord fields)

variable [ColumnReader ρ Cell]

/-- Whether there is another record, by the first column. -/
def hasNext (r : RecordReader ρ) : Outcome (RecordReader ρ) Bool :=
  match r.columns with
  | [] => (.ok false, r)
  | first :: rest =>
    Outcome.within (Assembler.hasNext first) fun first => { r with columns := first :: rest }

/-- Up to so many records. -/
def read (r : RecordReader ρ) (most : Nat) : Outcome (RecordReader ρ) (List Value) :=
  match Outcome.mapEach (Assembler.readBatch · most) r.columns with
  | (.error e, columns) => (.error e, { r with columns := columns })
  | (.ok batches, columns) =>
    match mergeBatches r.schema.fields (columns.map (·.shape.column.name)) batches with
    | .error e => (.error e, { r with columns := columns })
    | .ok records =>
      (.ok records, { r with columns := columns, recordsRead := r.recordsRead + records.length })

end RecordReader

end Striping
