import Striping.Outcome

/-!
# The contract with the physical layer

Encoding and storage are the business of a physical layer, which takes and gives flat
batches of levels and values.

* `Batch`, `ColumnWriter`: what a writer is handed, and the writers.
* `Request`, `Answer`, `ColumnReader`: what a reader is asked for, what it answers, and
  the readers. A reader is bound to run dry: `ColumnReader.supply` bounds the positions
  it still has.
-/

namespace Striping

/-- Levels and values on their way into a column. -/
structure Batch (P : Type) where
  /-- The definition levels, if the column stores them. -/
  definitions : Option (Array Level)
  /-- The repetition levels, if the column stores them. -/
  repetitions : Option (Array Level)
  /-- The values of the present positions. -/
  values : Array P
deriving DecidableEq

/-- Writers of one column with values of type `P`. -/
class ColumnWriter (ω : Type) (P : outParam Type) where
  /-- Appends a batch to the column. -/
  writeBatch : ω → Batch P → Outcome ω Unit

/-- What a reader is asked for. -/
structure Request where
  /-- The greatest number of positions. -/
  positions : Nat
  /-- The caller takes definition levels. -/
  definitions : Bool
  /-- The caller takes repetition levels. -/
  repetitions : Bool
  /-- The greatest number of values. -/
  values : Nat
deriving DecidableEq, Repr

/-- What a reader puts at the start of the caller's buffers, and how much of it the
reader says is meant. -/
structure Answer (P : Type) where
  /-- Definition levels. -/
  definitions : Array Level := #[]
  /-- Repetition levels. -/
  repetitions : Array Level := #[]
  /-- Values. -/
  values : Array P := #[]
  /-- The number of values of the batch. -/
  valuesRead : Nat
  /-- The number of positions of the batch. -/
  levelsRead : Nat

/-- Readers of one column with values of type `P`. They may report any counts, levels and values
and may fail and go on, but all the positions that a reader ever reports are finitely many. A reader
that goes on for ever is none of them. -/
class ColumnReader (ρ : Type) (P : outParam Type) where
  /-- Reads the next positions. -/
  readBatch : ρ → Request → Outcome ρ (Answer P)
  /-- A bound of the positions that all further answers can hold together. -/
  supply : ρ → Nat
  /-- Positions that were delivered leave the supply. -/
  supply_readBatch_ok : ∀ (r : ρ) (q : Request) (a : Answer P),
    (readBatch r q).1 = .ok a → supply (readBatch r q).2 + a.levelsRead ≤ supply r
  /-- A failed read leaves the supply or lessens it. -/
  supply_readBatch_error : ∀ (r : ρ) (q : Request) (e : Error),
    (readBatch r q).1 = .error e → supply (readBatch r q).2 ≤ supply r

end Striping
