import Striping.Physical.Contract

/-!
# Readers and writers that fail, and writers that are watched

* `Faulty`: a reader or writer with calls that fail without reaching it.
* `Recorded`: a writer together with the batches it took.
-/

namespace Striping

/-- A reader or writer some of whose calls fail. -/
structure Faulty (χ : Type) where
  /-- What the other calls reach. -/
  inner : χ
  /-- The numbers of the calls that fail, from 1. -/
  failures : List Nat
  /-- How they fail. -/
  error : Error
  /-- The number of calls so far, failed ones included. -/
  calls : Nat := 0

namespace Faulty

variable {χ P α : Type}

/-- Counts a call and lets it through or fails. -/
def call (f : Faulty χ) (step : χ → Outcome χ α) : Outcome (Faulty χ) α :=
  if f.calls + 1 ∈ f.failures then (.error f.error, { f with calls := f.calls + 1 })
  else (step f.inner).within fun inner => { f with inner := inner, calls := f.calls + 1 }

instance [ColumnWriter χ P] : ColumnWriter (Faulty χ) P where
  writeBatch f b := f.call (ColumnWriter.writeBatch · b)

instance [ColumnReader χ P] : ColumnReader (Faulty χ) P where
  readBatch f q := f.call (ColumnReader.readBatch · q)
  supply f := ColumnReader.supply f.inner
  supply_readBatch_ok f q a h := by
    by_cases hc : f.calls + 1 ∈ f.failures
    · simp [call, hc] at h
    · simp only [call, hc, if_false] at h ⊢
      exact ColumnReader.supply_readBatch_ok f.inner q a h
  supply_readBatch_error f q e h := by
    by_cases hc : f.calls + 1 ∈ f.failures
    · exact Nat.le_of_eq (by simp [call, hc])
    · simp only [call, hc, if_false] at h ⊢
      exact ColumnReader.supply_readBatch_error f.inner q e h

end Faulty

/-- A writer and the batches it took. -/
structure Recorded (ω P : Type) where
  /-- The writer. -/
  inner : ω
  /-- The batches, in order. -/
  batches : Array (Batch P) := #[]

instance {ω P : Type} [ColumnWriter ω P] : ColumnWriter (Recorded ω P) P where
  writeBatch r b :=
    match ColumnWriter.writeBatch r.inner b with
    | (.ok (), inner) => (.ok (), { inner := inner, batches := r.batches.push b })
    | (.error e, inner) => (.error e, { r with inner := inner })

end Striping
