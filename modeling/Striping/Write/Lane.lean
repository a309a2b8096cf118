/-!
# Lanes

A lane is one of the arrays of a write buffer, seen as its committed entries and the
slots behind them. Slots keep what was last left in them, so an entry that is committed
without being written is an old one.

* `Lane.slots`: what the next slots hold; a slot that was never touched is blank.
* `Lane.overlay`, `Lane.commit`: writing into the slots, and committing them.
* `Lane.release`, `Lane.clear`: giving all committed entries up, with their slots left
  as they are or made blank.
-/

namespace Striping

/-- Committed entries and the slots behind them. -/
structure Lane (α : Type) where
  /-- The committed entries. -/
  filled : Array α := #[]
  /-- What the slots behind hold, as far as they were ever touched. -/
  stale : List α := []

namespace Lane

variable {α : Type}

/-- The content of the next `n` slots. -/
def slots [Inhabited α] (l : Lane α) (n : Nat) : List α := (l.stale.take n).rightpad n default

/-- Writes into the first slots. -/
def overlay (l : Lane α) (entries : List α) : Lane α :=
  { l with stale := entries ++ l.stale.drop entries.length }

/-- Commits the next `n` slots as they are. -/
def commit [Inhabited α] (l : Lane α) (n : Nat) : Lane α :=
  { filled := l.filled ++ (l.slots n).toArray, stale := l.stale.drop n }

/-- Turns the committed entries into slots that keep them. -/
def release (l : Lane α) : Lane α := { stale := l.filled.toList ++ l.stale }

/-- Turns the committed entries into blank slots. -/
def clear [Inhabited α] (l : Lane α) : Lane α :=
  { stale := List.replicate l.filled.size default ++ l.stale }

end Lane

end Striping
