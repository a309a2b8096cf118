import Striping.Physical.Contract

/-!
# Scripted readers

A reader whose answers are given in advance, whatever it is asked for. Its counts need
not fit its levels and values.

* `Script`: the answers still to come; behind the last one the column is at its end.
-/

namespace Striping

/-- The answers a reader will give, one for each read. -/
structure Script (P : Type) where
  /-- The answers still to come. -/
  answers : List (Except Error (Answer P))

namespace Script

variable {P : Type}

/-- Gives the next answer. -/
def read (s : Script P) (_ : Request) : Outcome (Script P) (Answer P) :=
  match s.answers with
  | [] => (.ok { valuesRead := 0, levelsRead := 0 }, s)
  | answer :: rest => (answer, ⟨rest⟩)

/-- The number of positions of an answer. -/
def count : Except Error (Answer P) → Nat
  | .ok a => a.levelsRead
  | .error _ => 0

/-- The number of positions of several answers. -/
def total : List (Except Error (Answer P)) → Nat
  | [] => 0
  | answer :: rest => count answer + total rest

instance : ColumnReader (Script P) P where
  readBatch := read
  supply s := total s.answers
  supply_readBatch_ok s q a h := by
    obtain ⟨_ | ⟨answer, rest⟩⟩ := s
    · simp only [read, Except.ok.injEq] at h
      subst h
      simp [read]
    · simp only [read] at h
      subst h
      simp [read, total, count, Nat.add_comm]
  supply_readBatch_error s q e h := by
    obtain ⟨_ | ⟨answer, rest⟩⟩ := s
    · simp [read] at h
    · simp [read, total]

end Script

end Striping
