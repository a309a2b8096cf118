import Mathlib
import Striping.Proofs.Reception

/-!
# What a shredder hands to its writer

**Scope.** One shredder over a physical writer of any kind, which may fail as it likes. Every batch
that the writer is handed is written down next to it, also one that it does not take.

* `Logged`: a writer and the batches that it was handed.
* `Batch.Meets`: the contract of a column writer. A batch is neither empty nor longer than the
  buffer, it has the levels that the column stores, within their bounds, and one value for each
  position that is present.
* `Batch.meets_ofPositions`: a run of positions that fit the column meets the contract, wherever
  the buffer has cut it. `Batch.Meets.taken`: **what meets the contract is taken by every stripe**
  of the column.
* `Shredder.Honest.write`, `Shredder.Honest.writeEach`: what one batch of rows and any number of
  them keep.
* `Shredder.writeEach_meets`: **every physical write meets the contract**.
-/

namespace Striping

variable {P ω : Type}

/-- A writer and the batches that it was handed, whether it took them or not. -/
structure Logged (ω P : Type) where
  /-- The writer. -/
  inner : ω
  /-- The batches, in order. -/
  log : Array (Batch P) := #[]

instance [ColumnWriter ω P] : ColumnWriter (Logged ω P) P where
  writeBatch l b :=
    (ColumnWriter.writeBatch l.inner b).within fun inner => ⟨inner, l.log.push b⟩

/-- Of the batches to be written those are handed on that come before the first failure. -/
theorem Logged.mem_log_forEach [ColumnWriter ω P] {l : Logged ω P} {bs : List (Batch P)}
    {b : Batch P} (h : b ∈ (Outcome.forEach ColumnWriter.writeBatch l bs).2.log) :
    b ∈ l.log ∨ b ∈ bs := by
  induction bs generalizing l with
  | nil => exact .inl h
  | cons first bs ih =>
    have hlog : ∀ {x : Except Error Unit} {l' : Logged ω P},
        ColumnWriter.writeBatch l first = (x, l') → l'.log = l.log.push first := by
      rintro x l' hw
      obtain ⟨-, rfl⟩ := Prod.mk.inj hw
      rfl
    have hpush : b ∈ l.log.push first → b ∈ l.log ∨ b ∈ first :: bs := by
      intro hb
      rcases Array.mem_push.1 hb with hb | rfl
      · exact .inl hb
      · exact .inr List.mem_cons_self
    rw [Outcome.forEach] at h
    rcases hw : ColumnWriter.writeBatch l first with ⟨e | ⟨⟩, l'⟩
    · rw [hw] at h
      exact hpush (hlog hw ▸ h)
    · rw [hw] at h
      rcases ih h with hb | hb
      · exact hpush (hlog hw ▸ hb)
      · exact .inr (List.mem_cons_of_mem _ hb)

/-- The contract of a column writer: what a batch is like that comes from a buffer of the given
capacity in front of a column with the given bounds. -/
structure Batch.Meets (b : Batch P) (bounds : LevelBounds) (capacity : Nat) : Prop where
  /-- There is a position. -/
  positions_pos : 1 ≤ b.positions
  /-- There are not more positions than fit the buffer. -/
  positions_le : b.positions ≤ capacity
  /-- Definition levels are there exactly if they can be above 0. -/
  definitions_isSome : b.definitions.isSome = true ↔ 0 < bounds.definition
  /-- So are repetition levels. -/
  repetitions_isSome : b.repetitions.isSome = true ↔ 0 < bounds.repetition
  /-- Every position has a definition level, if these are stored. -/
  size_definitions : ∀ ds, b.definitions = some ds → ds.size = b.positions
  /-- Every position has a repetition level, if these are stored. -/
  size_repetitions : ∀ rs, b.repetitions = some rs → rs.size = b.positions
  /-- Definition levels are within their bounds. -/
  definition_mem : ∀ ds, b.definitions = some ds → ∀ d ∈ ds, 0 ≤ d ∧ d ≤ bounds.definition
  /-- Repetition levels are within their bounds. -/
  repetition_mem : ∀ rs, b.repetitions = some rs → ∀ r ∈ rs, 0 ≤ r ∧ r ≤ bounds.repetition
  /-- There is one value for each position at the greatest definition level. -/
  size_values : ∀ ds, b.definitions = some ds → b.values.size = ds.countP (· == bounds.definition)
  /-- There is one value for each position, if no definition levels are stored. -/
  size_values_of_none : b.definitions = none → b.values.size = b.positions

namespace Batch

variable {bounds : LevelBounds} {capacity : Nat} {ps : List (Position P)} {b : Batch P}

/-- Levels that are there are those that are stored. -/
theorem eq_of_stored {stored : Bool} {levels held : Array Level}
    (h : (if stored then some levels else none) = some held) : held = levels := by
  cases stored with
  | true => exact (Option.some.inj h).symm
  | false => cases h

/-- **A run of positions meets the contract**, if there are some, not more than fit the buffer, and
each of them fits the column. -/
theorem meets_ofPositions (hne : ps ≠ []) (hle : ps.length ≤ capacity)
    (hf : ∀ p ∈ ps, p.Fits bounds) : (Batch.ofPositions bounds ps).Meets bounds capacity := by
  have hpositions := positions_ofPositions hf
  have hwithin : ∀ p ∈ ps, (0 ≤ p.levels.definition ∧ p.levels.definition ≤ bounds.definition) ∧
      0 ≤ p.levels.repetition ∧ p.levels.repetition ≤ bounds.repetition := by
    intro p hp
    simpa [LevelBounds.contains, and_assoc] using (hf p hp).within
  constructor
  case positions_pos =>
    rw [hpositions]
    exact List.length_pos_of_ne_nil hne
  case positions_le =>
    rw [hpositions]
    exact hle
  case definitions_isSome =>
    unfold Batch.ofPositions LevelBounds.storesDefinitions
    by_cases h : 0 < bounds.definition <;> simp [h]
  case repetitions_isSome =>
    unfold Batch.ofPositions LevelBounds.storesRepetitions
    by_cases h : 0 < bounds.repetition <;> simp [h]
  case size_definitions =>
    intro ds hds
    rw [hpositions, eq_of_stored hds, List.size_toArray, List.length_map]
  case size_repetitions =>
    intro rs hrs
    rw [hpositions, eq_of_stored hrs, List.size_toArray, List.length_map]
  case definition_mem =>
    intro ds hds d hd
    rw [eq_of_stored hds, List.mem_toArray] at hd
    obtain ⟨p, hp, rfl⟩ := List.mem_map.1 hd
    exact (hwithin p hp).1
  case repetition_mem =>
    intro rs hrs r hr
    rw [eq_of_stored hrs, List.mem_toArray] at hr
    obtain ⟨p, hp, rfl⟩ := List.mem_map.1 hr
    exact (hwithin p hp).2
  case size_values =>
    intro ds hds
    rw [eq_of_stored hds, List.countP_toArray,
      Stripe.countP_definition fun p hp => (hf p hp).paired]
    exact List.size_toArray
  case size_values_of_none =>
    intro hnone
    unfold Batch.positions
    rw [hnone]

/-- **What meets the contract is taken by every stripe of the column**, whatever it holds. -/
theorem Meets.taken (h : b.Meets bounds capacity) {s : Stripe P} (hs : s.bounds = bounds) :
    ∃ s', s.write b = (.ok (), s') := by
  have hrefusal : s.refusal? b = none := by
    have hd : b.definitions.isSome = s.bounds.storesDefinitions := by
      rw [hs, Bool.eq_iff_iff, h.definitions_isSome]
      simp [LevelBounds.storesDefinitions]
    have hr : b.repetitions.isSome = s.bounds.storesRepetitions := by
      rw [hs, Bool.eq_iff_iff, h.repetitions_isSome]
      simp [LevelBounds.storesRepetitions]
    unfold Stripe.refusal?
    rw [if_neg (by simp [hd, hr])]
    cases hdefinitions : b.definitions with
    | none => rfl
    | some ds =>
      have hsize : (b.repetitions.map Array.size).getD ds.size = ds.size := by
        cases hrepetitions : b.repetitions with
        | none => rfl
        | some rs =>
          exact (h.size_repetitions rs hrepetitions).trans (h.size_definitions ds hdefinitions).symm
      have hcount : s.countPresent ds = b.values.size := by
        rw [h.size_values ds hdefinitions, ← hs]
        rfl
      simp only [hsize, hcount, ne_eq, not_true_eq_false, if_false]
  unfold Stripe.write
  rw [hrefusal]
  exact ⟨_, rfl⟩

end Batch

section Chunks

variable {α : Type} {n : Nat}

/-- No run is empty. -/
theorem ne_nil_of_mem_chunks (hn : 0 < n) {as run : List α} (h : run ∈ chunks n as) :
    run ≠ [] := by
  induction as using drop_induction hn with
  | nil => cases h
  | step as ha ih =>
    rw [chunks_of_ne_nil hn ha] at h
    rcases List.mem_cons.1 h with rfl | h
    · intro hnil
      rw [List.take_eq_nil_iff] at hnil
      rcases hnil with h0 | hnil
      · omega
      · exact ha hnil
    · exact ih h

end Chunks

namespace Shredder

variable {t : LeafType} {s : Shredder t ω} {rows : List (Nested t.Value)}
  {ps : List (Position t.Physical)}

/-- **The pieces of rows meet the contract**, for every length of the buffer. -/
theorem meets_of_mem_pieces (hp : Node.shredRows t s.column s.shape.root rows = .ok ps)
    {b : Batch t.Physical} (hb : b ∈ s.pieces ps) :
    b.Meets s.shape.column.bounds s.buffer.capacity := by
  have hcap := s.buffer.capacity_pos
  obtain ⟨run, hrun, rfl⟩ := List.mem_map.1 hb
  exact Batch.meets_ofPositions (ne_nil_of_mem_chunks hcap hrun) (length_le_of_mem_chunks hcap hrun)
    (fits_of_mem_chunks hp run hrun)

/-- A shredder that has handed on nothing but batches that meet the contract, and will go on like
this: it is ready, or has failed and writes no more. -/
structure Honest (s : Shredder t (Logged ω t.Physical)) : Prop where
  ready : s.failed = false → s.Ready
  met : ∀ b ∈ s.writer.log, b.Meets s.shape.column.bounds s.buffer.capacity

variable {s : Shredder t (Logged ω t.Physical)} [ColumnWriter ω t.Physical]

/-- **What one batch of rows keeps.** Rows that do not conform are refused before anything is
written. All others are written in pieces, up to the first that the writer refuses. -/
theorem Honest.write (h : s.Honest) (rows : List (Nested t.Value)) :
    (s.write rows).2.Honest ∧ (s.write rows).2.shape = s.shape ∧
      (s.write rows).2.buffer.capacity = s.buffer.capacity := by
  cases hf : s.failed with
  | true =>
    rw [write_failed hf]
    exact ⟨h, rfl, rfl⟩
  | false =>
    have hready := h.ready hf
    cases hv : s.validate rows with
    | error e =>
      rw [hready.write_error hv]
      exact ⟨h, rfl, rfl⟩
    | ok =>
      obtain ⟨ps, hp⟩ := validate_eq_ok_iff.1 hv
      obtain ⟨s', ha, hw, -⟩ := hready.write hp rfl
      rw [hw]
      refine ⟨⟨ha.ready, ?_⟩, ha.shape, ha.capacity⟩
      intro b hb
      rw [ha.shape, ha.capacity]
      rw [ha.writer] at hb
      rcases Logged.mem_log_forEach hb with hb | hb
      · exact h.met b hb
      · exact meets_of_mem_pieces hp hb

/-- So do several batches of rows, whether or not the ones before were refused. -/
theorem Honest.writeEach (h : s.Honest) (calls : List (List (Nested t.Value))) :
    (s.writeEach calls).1.Honest ∧ (s.writeEach calls).1.shape = s.shape ∧
      (s.writeEach calls).1.buffer.capacity = s.buffer.capacity := by
  induction calls generalizing s with
  | nil => exact ⟨h, rfl, rfl⟩
  | cons call calls ih =>
    obtain ⟨hwrite, hshape, hcap⟩ := h.write call
    obtain ⟨hlast, hshape', hcap'⟩ := ih hwrite
    rw [Shredder.writeEach]
    rcases hcall : s.write call with ⟨e | n, s'⟩
    · rw [hcall] at hshape hcap hlast hshape' hcap'
      exact ⟨hlast, hshape'.trans hshape, hcap'.trans hcap⟩
    · rw [hcall] at hshape hcap hlast hshape' hcap'
      exact ⟨hlast, hshape'.trans hshape, hcap'.trans hcap⟩

/-- Closing hands nothing on. -/
theorem Honest.close (h : s.Honest) : s.close.2 = s := by
  cases hf : s.failed with
  | true =>
    unfold Shredder.close checkUsable
    rw [if_pos hf]
  | false => rw [(h.ready hf).close]

/-- **Every physical write meets the contract.** Whatever rows a shredder is called with, whatever
the length of its buffer, and however its writer fails: each batch that the writer is handed has
between one position and as many as the buffer is long, has definition levels and repetition levels
exactly if the greatest of them are above 0, both as many as there are positions and within their
bounds, and has one value for each position at the greatest definition level, or for each position
if no definition levels are stored. So a stripe of the column takes each of these batches, whatever
it holds. -/
theorem writeEach_meets {shape : ColumnShape} {w : ω} {options : Options}
    {s₀ : Shredder t (Logged ω t.Physical)} (h : ofShape shape ⟨w, #[]⟩ options = .ok s₀)
    (calls : List (List (Nested t.Value))) :
    ∀ b ∈ (s₀.writeEach calls).1.close.2.writer.log,
      b.Meets shape.column.bounds options.bufferLength ∧
        ∀ stripe : Stripe t.Physical, stripe.bounds = shape.column.bounds →
          ∃ stripe', stripe.write b = (.ok (), stripe') := by
  obtain ⟨hready, rfl, hwriter, -, hcap⟩ := ready_of_ofShape h
  have hhonest : s₀.Honest := by
    refine ⟨fun _ => hready, ?_⟩
    rw [hwriter]
    intro b hb
    exact absurd hb (Array.not_mem_empty b)
  obtain ⟨hlast, hshape, hcap'⟩ := hhonest.writeEach calls
  intro b hb
  rw [hlast.close] at hb
  have hmeets := hlast.met b hb
  rw [hshape, hcap', hcap] at hmeets
  exact ⟨hmeets, fun stripe hs => hmeets.taken hs⟩

/-- A batch that is refused because of a null, a batch with five positions, and one more. -/
def numberCalls : List (List (Nested Int32)) :=
  [[.list [.scalar 7], .null], [.list [.scalar 7, .scalar 8, .scalar 9], .list [], .list []],
    [.list []]]

/-- Of the five positions the first two pieces are handed on. The writer fails at the second, so
nothing comes after it. -/
theorem writeEach_meets_numbers :
    ∃ s₀ : Shredder .int32 (Logged (Faulty (Stripe Int32)) Int32),
      ofShape .numbers ⟨⟨.ofColumn ColumnShape.numbers.column, [2], .physical "numbers" "disk", 0⟩,
        #[]⟩ ⟨2⟩ = .ok s₀ ∧
      (s₀.writeEach numberCalls).1.close.2.writer.log.toList.map
        (fun b => (b.definitions, b.repetitions, b.values)) =
          [(some #[1, 1], some #[0, 1], #[(7 : Int32), (8 : Int32)]),
            (some #[1, 0], some #[1, 0], #[(9 : Int32)])] ∧
      ∀ b ∈ (s₀.writeEach numberCalls).1.close.2.writer.log,
        b.Meets ColumnShape.numbers.column.bounds 2 := by
  obtain ⟨s₀, h, hlog⟩ : ∃ s₀ : Shredder .int32 (Logged (Faulty (Stripe Int32)) Int32),
      ofShape .numbers ⟨⟨.ofColumn ColumnShape.numbers.column, [2], .physical "numbers" "disk", 0⟩,
        #[]⟩ ⟨2⟩ = .ok s₀ ∧
      (s₀.writeEach numberCalls).1.close.2.writer.log.toList.map
        (fun b => (b.definitions, b.repetitions, b.values)) =
          [(some #[1, 1], some #[0, 1], #[(7 : Int32), (8 : Int32)]),
            (some #[1, 0], some #[1, 0], #[(9 : Int32)])] := ⟨_, rfl, by cbv⟩
  exact ⟨s₀, h, hlog, fun b hb => (writeEach_meets h numberCalls b hb).1⟩

end Shredder

end Striping
