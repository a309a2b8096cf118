import Striping.Physical.Faulty
import Striping.Physical.RowGroup
import Striping.Record.Reader
import Striping.Record.Writer

/-!
# Sessions

A session is a row group with at most one record writer and one record reader open on it.
Both work on the stripes of the row group: what the one writes the other can read, and
the places reached by reading belong to the stripes.

* `Session.openWriter`, `Session.openReader`, and the steps of an open writer or reader.
* `Handle`: a stripe in the hands of a writer or reader, some of whose calls may fail.
-/

namespace Striping

/-- A stripe in the hands of a writer or reader. -/
abbrev Handle := Faulty (Stripe Cell)

/-- A row group and what is open on it. -/
structure Session where
  /-- The row group. -/
  group : RowGroup Cell
  /-- The shapes of the columns opened so far. -/
  cache : ShapeCache := {}
  /-- The open writer. -/
  writer : Option (RecordWriter Handle) := none
  /-- The open reader. -/
  reader : Option (RecordReader Handle) := none

namespace Session

/-- A session on the empty row group of a schema. -/
def ofSchema (schema : Schema) : Except Error Session := do
  return { group := .ofColumns (← schema.columns) }

/-- Handles to the first `count` stripes. `failures` lists columns and the numbers of the
calls on them that fail with the given error. -/
def handles (s : Session) (count : Nat) (failures : List (Nat × Nat)) (error : Error) :
    List Handle :=
  (s.group.stripes.take count).zipIdx.map fun (stripe, i) =>
    { inner := stripe
      failures := failures.filterMap fun (column, call) => if column = i then some call else none
      error := error }

/-- Opens a writer in the place of the one before, which is gone also if this fails. -/
def openWriter (s : Session) (schema : Schema) (handles : List Handle) (options : Options) :
    Outcome Session Unit :=
  match RecordWriter.ofSchema schema handles s.cache options with
  | (.ok w, cache) => (.ok (), { s with cache := cache, writer := some w })
  | (.error e, cache) => (.error e, { s with cache := cache, writer := none })

/-- Opens a reader in the place of the one before, which is gone also if this fails. -/
def openReader (s : Session) (schema : Schema) (handles : List Handle) (options : Options) :
    Outcome Session Unit :=
  match RecordReader.ofSchema schema handles s.cache options with
  | (.ok r, cache) => (.ok (), { s with cache := cache, reader := some r })
  | (.error e, cache) => (.error e, { s with cache := cache, reader := none })

/-- The handle of a stripe as the row group has it. -/
def refresh (stripe : Stripe Cell) (h : Handle) : Handle := { h with inner := stripe }

/-- The row group after its first stripes went through the hands of a writer or reader. -/
def restore (s : Session) (handles : List Handle) : RowGroup Cell :=
  { s.group with
    stripes := handles.map (·.inner) ++ s.group.stripes.drop handles.length }

/-- A step of the open writer, if there is one. -/
def withWriter {α : Type} (s : Session)
    (step : RecordWriter Handle → Outcome (RecordWriter Handle) α) : Option (Outcome Session α) :=
  s.writer.map fun w =>
    let columns := List.zipWith (fun c stripe => c.mapWriter (refresh stripe)) w.columns
      s.group.stripes
    (step { w with columns := columns }).within fun w =>
      { s with group := s.restore (w.columns.map Shredder.writer), writer := some w }

/-- A step of the open reader, if there is one. -/
def withReader {α : Type} (s : Session)
    (step : RecordReader Handle → Outcome (RecordReader Handle) α) : Option (Outcome Session α) :=
  s.reader.map fun r =>
    let columns := List.zipWith (fun c stripe => c.mapReader (refresh stripe)) r.columns
      s.group.stripes
    (step { r with columns := columns }).within fun r =>
      { s with group := s.restore (r.columns.map (·.cursor.reader)), reader := some r }

/-- Writes records with the open writer. -/
def write (s : Session) (records : List Value) : Option (Outcome Session Nat) :=
  s.withWriter fun w => w.write records

/-- Closes the open writer and gives the number of its columns. -/
def closeWriter (s : Session) : Option (Outcome Session Nat) :=
  (s.withWriter fun w => Outcome.map (fun _ => w.columns.length) w.close).map fun o =>
    o.within fun s => { s with writer := none }

/-- Reads up to so many records with the open reader. -/
def read (s : Session) (most : Nat) : Option (Outcome Session (List Value)) :=
  s.withReader fun r => r.read most

/-- Whether the open reader has another record. -/
def hasNext (s : Session) : Option (Outcome Session Bool) := s.withReader RecordReader.hasNext

/-- Closes the open reader and gives the number of its columns. -/
def closeReader (s : Session) : Option (Nat × Session) :=
  s.reader.map fun r => (r.columns.length, { s with reader := none })

/-- Rewinds every stripe. -/
def rewind (s : Session) : Session := { s with group := s.group.rewind }

/-- Replaces a stripe, if there is one with that index. -/
def setStripe (s : Session) (i : Nat) (stripe : Stripe Cell) : Option Session :=
  if i < s.group.stripes.length then some { s with group := s.group.set i stripe } else none

end Session

end Striping
