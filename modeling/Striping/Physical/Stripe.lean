import Striping.Column.Basic
import Striping.Physical.Contract
import Striping.Position

/-!
# Stripes

A stripe is a column kept in memory. It is a writer and a reader at once: batches are
appended at its end, and reads go on where the last one stopped.

* `Stripe`, `Stripe.write`, `Stripe.read`.
* `Stripe.positions`: the stored positions, each with its value.
-/

namespace Striping

/-- A column in memory. -/
structure Stripe (P : Type) where
  /-- The greatest levels; levels that are always 0 are not stored. -/
  bounds : LevelBounds
  /-- The definition levels. -/
  definitions : Array Level := #[]
  /-- The repetition levels. -/
  repetitions : Array Level := #[]
  /-- The values of the present positions. -/
  values : Array P := #[]
  /-- The number of batches written. -/
  writes : Nat := 0
  /-- The number of positions read since the last rewind. -/
  levelsRead : Nat := 0
  /-- The number of values read since the last rewind. -/
  valuesRead : Nat := 0

namespace Stripe

variable {P : Type}

/-- The empty stripe of a column. -/
def ofColumn (c : Column) : Stripe P := { bounds := c.bounds }

/-- The number of stored positions. -/
def size (s : Stripe P) : Nat :=
  if s.bounds.storesDefinitions then s.definitions.size else s.values.size

/-- Holds once a batch was written. -/
def isInitialized (s : Stripe P) : Bool := 0 < s.writes

/-- The levels of the position at an index. Levels that are not stored are those of a
present position of the first list. -/
def levelsAt (s : Stripe P) (i : Nat) : Levels :=
  ⟨s.definitions.getD i s.bounds.definition, s.repetitions.getD i 0⟩

/-- The stored positions. -/
def positions (s : Stripe P) : List (Position P) :=
  Position.place s.bounds.definition ((List.range s.size).map s.levelsAt) s.values.toList

/-- The stripe with its first position next to be read. -/
def rewind (s : Stripe P) : Stripe P := { s with levelsRead := 0, valuesRead := 0 }

/-- How many of the levels call for a value. -/
def countPresent (s : Stripe P) (definitions : Array Level) : Nat :=
  definitions.countP (· == s.bounds.definition)

/-- Why a batch cannot be appended, if it cannot. -/
def refusal? (s : Stripe P) (b : Batch P) : Option ArgumentFault :=
  if b.definitions.isSome != s.bounds.storesDefinitions ∨
      b.repetitions.isSome != s.bounds.storesRepetitions then
    some (.levelKinds s.bounds.storesDefinitions s.bounds.storesRepetitions)
  else
    match b.definitions with
    | none => none
    | some definitions =>
      let repetitions := (b.repetitions.map Array.size).getD definitions.size
      if repetitions ≠ definitions.size then
        some (.levelCounts repetitions definitions.size)
      else if s.countPresent definitions ≠ b.values.size then
        some (.valueCount b.values.size (s.countPresent definitions))
      else none

/-- Appends a batch. -/
def write (s : Stripe P) (b : Batch P) : Outcome (Stripe P) Unit :=
  match s.refusal? b with
  | some fault => (.error (.invalidArgument fault), s)
  | none =>
    (.ok (), { s with
      definitions := s.definitions ++ b.definitions.getD #[]
      repetitions := s.repetitions ++ b.repetitions.getD #[]
      values := s.values ++ b.values
      writes := s.writes + 1 })

/-- The levels of one kind from `start` on, if there are `n` of them. -/
def slice? (levels : Array Level) (start n : Nat) : Option (Array Level) :=
  if start + n ≤ levels.size then some (levels.extract start (start + n)) else none

/-- The number of positions that answer a request. -/
def due (s : Stripe P) (q : Request) : Nat := min (min q.positions (s.size - s.levelsRead)) q.values

/-- What is read next. Where values are missing at the end, there are fewer of them than
positions that call for one. -/
def answer (s : Stripe P) (q : Request) : Except Error (Answer P) :=
  match if q.definitions then slice? s.definitions s.levelsRead (s.due q) else some #[] with
  | none => .error (.invalidArgument .noDefinitions)
  | some definitions =>
    match if q.repetitions then slice? s.repetitions s.levelsRead (s.due q) else some #[] with
    | none => .error (.invalidArgument .noRepetitions)
    | some repetitions =>
      let present := if q.definitions then s.countPresent definitions else s.due q
      let count := min present (s.values.size - s.valuesRead)
      .ok {
        definitions := definitions
        repetitions := repetitions
        values := s.values.extract s.valuesRead (s.valuesRead + count)
        valuesRead := count
        levelsRead := s.due q }

/-- Reads the next positions. -/
def read (s : Stripe P) (q : Request) : Outcome (Stripe P) (Answer P) :=
  match s.answer q with
  | .ok a =>
    (.ok a, { s with
      levelsRead := s.levelsRead + a.levelsRead
      valuesRead := s.valuesRead + a.valuesRead })
  | .error e => (.error e, s)

theorem levelsRead_of_answer {s : Stripe P} {q : Request} {a : Answer P}
    (h : s.answer q = .ok a) : a.levelsRead = s.due q := by
  unfold answer at h
  split at h
  · cases h
  · split at h
    · cases h
    · cases h; rfl

theorem due_le (s : Stripe P) (q : Request) : s.due q ≤ s.size - s.levelsRead := by
  unfold due; omega

instance : ColumnWriter (Stripe P) P := ⟨write⟩

instance : ColumnReader (Stripe P) P where
  readBatch := read
  supply s := s.size - s.levelsRead
  supply_readBatch_ok s q a h := by
    unfold read at h ⊢
    cases ha : s.answer q with
    | error e => simp [ha] at h
    | ok b =>
      simp only [ha, Except.ok.injEq] at h ⊢
      subst h
      have := levelsRead_of_answer ha
      have := s.due_le q
      simp only [size] at *
      omega
  supply_readBatch_error s q e h := by
    unfold read at h ⊢
    cases ha : s.answer q with
    | error e => simp
    | ok b => simp [ha] at h

end Stripe

end Striping
