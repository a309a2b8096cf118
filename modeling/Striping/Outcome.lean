import Striping.Error

/-!
# Steps that leave a state behind

Readers and writers go on after a failure, so a step that fails still has a state.

* `Outcome`: the answer of a step together with the state after it.
* `Outcome.forEach`, `Outcome.mapEach`: a step for each element, up to the first that
  fails.
-/

namespace Striping

/-- The answer of a step and the state it leaves behind, also when it fails. -/
abbrev Outcome (σ α : Type) := Except Error α × σ

namespace Outcome

variable {σ τ α β : Type}

/-- Sees the state of a part as the state of the whole. -/
def within (o : Outcome σ α) (whole : σ → τ) : Outcome τ α := (o.1, whole o.2)

/-- Changes the answer of a step that succeeds. -/
def map (f : α → β) (o : Outcome σ α) : Outcome σ β := (o.1.map f, o.2)

/-- Takes one step for each element, up to the first that fails. -/
def forEach (step : σ → α → Outcome σ Unit) : σ → List α → Outcome σ Unit
  | s, [] => (.ok (), s)
  | s, a :: rest =>
    match step s a with
    | (.ok (), s) => forEach step s rest
    | (.error e, s) => (.error e, s)

/-- Lets each part of a row of parts take a step, up to the first that fails; the
parts behind that one stay as they are. -/
def mapEach (step : σ → Outcome σ α) : List σ → Outcome (List σ) (List α)
  | [] => (.ok [], [])
  | s :: rest =>
    match step s with
    | (.ok a, s) => ((mapEach step rest).map (a :: ·)).within (s :: ·)
    | (.error e, s) => (.error e, s :: rest)

end Outcome

end Striping
