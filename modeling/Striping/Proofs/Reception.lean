import Striping.Proofs.Batches
import Striping.Proofs.Places
import Striping.Proofs.RoundTrip

/-!
# What a column receives

**Scope.** One shredder over a physical writer of any kind. The batches that the writer took are
recorded next to it, so its failures may come in any pattern, and a write that fails has no effect
there.

* `Contents`: the levels and values of a column, one behind the other.
  `Shredder.ofBatches_pieces`: **cutting positions into batches does not change their contents**.
* `chunks_cut`: what is in front of a run are as many elements as fit into whole runs.
* `Shredder.Whole`, `Shredder.Interrupted`: a column that holds just the accepted batches, and one
  whose writer failed in the middle of the next.
  `Shredder.writeEach_wholeOrInterrupted`: **every column is in one of these two states**, whatever
  was written to it.
* `Shredder.writeAll_transparent`: **how rows are dealt out to batches and buffers cannot be seen
  in the column**, and how many writes a batch takes.
-/

namespace Striping

variable {P ω : Type}

section Chunks

variable {α : Type} {n : Nat}

/-- Lists are cut into as many runs as are needed. -/
theorem length_chunks (hn : 0 < n) (as : List α) :
    (chunks n as).length = (as.length + n - 1) / n := by
  induction as using drop_induction hn with
  | nil =>
    have h0 : (0 + n - 1) / n = 0 := Nat.div_eq_of_lt (by omega)
    exact h0.symm
  | step as ha ih =>
    have hpos := List.length_pos_of_ne_nil ha
    rw [chunks_of_ne_nil hn ha, List.length_cons, ih, List.length_drop]
    by_cases hle : n ≤ as.length
    · have hsum : as.length + n - 1 = (as.length - n + n - 1) + n := by omega
      rw [hsum, Nat.add_div_right _ hn]
    · have hlast : (as.length - n + n - 1) / n = 0 := Nat.div_eq_of_lt (by omega)
      have hone : (as.length + n - 1) / n = 1 := by
        rw [show as.length + n - 1 = (as.length - 1) + n by omega, Nat.add_div_right _ hn,
          Nat.div_eq_of_lt (by omega)]
      rw [hlast, hone]

/-- The runs in front of some run are full, and together they are the front of the list. -/
theorem chunks_cut (hn : 0 < n) {as run : List α} {runs rest : List (List α)}
    (h : chunks n as = runs ++ run :: rest) :
    (∀ r ∈ runs, r.length = n) ∧ runs.flatten = as.take (runs.length * n) ∧
      runs.length * n < as.length := by
  have hne : as ≠ [] := by
    rintro rfl
    exact absurd h.symm (List.append_ne_nil_of_right_ne_nil _ (List.cons_ne_nil run rest))
  have hpos := List.length_pos_of_ne_nil hne
  induction runs generalizing as with
  | nil => exact ⟨fun r hr => absurd hr List.not_mem_nil, by simp, by simpa using hpos⟩
  | cons first runs ih =>
    rw [chunks_of_ne_nil hn hne, List.cons_append] at h
    obtain ⟨rfl, htail⟩ := List.cons.inj h
    -- there is a further run, so the list goes on behind the first one
    have hrest : as.drop n ≠ [] := by
      intro h0
      rw [h0, chunks_nil] at htail
      exact absurd htail.symm (List.append_ne_nil_of_right_ne_nil _ (List.cons_ne_nil run rest))
    have hlt := List.length_pos_of_ne_nil hrest
    obtain ⟨h1, h2, h3⟩ := ih htail hrest hlt
    rw [List.length_drop] at hlt h3
    have hmul : (runs.length + 1) * n = n + runs.length * n := by
      rw [Nat.add_mul, Nat.one_mul, Nat.add_comm]
    refine ⟨List.forall_mem_cons.2 ⟨?_, h1⟩, ?_, ?_⟩
    · rw [List.length_take]
      omega
    · rw [List.flatten_cons, h2, List.length_cons, hmul, List.take_add]
    · rw [List.length_cons, hmul]
      omega

/-- Every run but the last one is full. -/
theorem length_of_mem_dropLast_chunks (hn : 0 < n) {as run : List α}
    (h : run ∈ (chunks n as).dropLast) : run.length = n := by
  have hne : chunks n as ≠ [] := by
    intro h0
    rw [h0] at h
    cases h
  have hsplit := (List.dropLast_append_getLast hne).symm
  exact (chunks_cut hn hsplit).1 run h

end Chunks

/-- The levels and values of a column, one behind the other, as far as they are stored. -/
structure Contents (P : Type) where
  /-- The definition levels. -/
  definitions : List Level
  /-- The repetition levels. -/
  repetitions : List Level
  /-- The values. -/
  values : List P
deriving DecidableEq

namespace Contents

/-- What some batches hold together. -/
def ofBatches (bs : List (Batch P)) : Contents P where
  definitions := bs.flatMap fun b => (b.definitions.getD #[]).toList
  repetitions := bs.flatMap fun b => (b.repetitions.getD #[]).toList
  values := bs.flatMap fun b => b.values.toList

/-- What a column with these bounds stores of some positions. -/
def ofPositions (b : LevelBounds) (ps : List (Position P)) : Contents P where
  definitions := if b.storesDefinitions then ps.map (·.levels.definition) else []
  repetitions := if b.storesRepetitions then ps.map (·.levels.repetition) else []
  values := ps.filterMap (·.value)

/-- Levels that are stored batch by batch are stored one behind the other. -/
theorem flatMap_stored {stored : Bool} (f : Position P → Level) (runs : List (List (Position P))) :
    runs.flatMap (fun run =>
        ((if stored then some (run.map f).toArray else none).getD #[]).toList) =
      if stored then runs.flatten.map f else [] := by
  cases stored with
  | true => exact (List.map_flatten).symm
  | false =>
    rw [if_neg Bool.false_ne_true]
    exact List.flatMap_eq_nil_iff.2 fun _ _ => rfl

/-- **Cutting positions into batches does not change what is stored of them.** -/
theorem ofBatches_ofPositions (b : LevelBounds) (runs : List (List (Position P))) :
    ofBatches (runs.map (Batch.ofPositions b)) = ofPositions b runs.flatten := by
  unfold ofBatches ofPositions
  simp only [List.flatMap_map, mk.injEq]
  refine ⟨flatMap_stored _ runs, flatMap_stored _ runs, ?_⟩
  show runs.flatMap (fun run => run.filterMap (·.value)) = _
  rw [List.filterMap_flatten, List.flatMap_def]

end Contents

/-- The number of positions of a batch. -/
def Batch.positions (b : Batch P) : Nat :=
  match b.definitions with
  | some definitions => definitions.size
  | none => b.values.size

theorem Batch.positions_ofPositions {b : LevelBounds} {ps : List (Position P)}
    (hf : ∀ p ∈ ps, p.Fits b) : (Batch.ofPositions b ps).positions = ps.length := by
  unfold Batch.positions Batch.ofPositions
  cases hs : b.storesDefinitions with
  | true => simp
  | false => simpa using Stripe.length_values (fun p hp => (hf p hp).paired) hs

namespace Node

variable {t : LeafType} {column : String} {root : Node}

/-- Rows have the positions of their batches, one behind the other. -/
theorem shredRows_flatten {batches : List (List (Nested t.Value))}
    {streams : List (List (Position t.Physical))}
    (h : batches.mapM (shredRows t column root) = .ok streams) :
    shredRows t column root batches.flatten = .ok streams.flatten := by
  rw [mapM_eq_ok_iff] at h
  induction h with
  | nil => rfl
  | @cons rows stream batches streams hrows _ ih =>
    rw [List.flatten_cons, List.flatten_cons]
    exact shredItems_append.2 ⟨stream, streams.flatten, hrows, ih, rfl⟩

end Node

namespace Shredder

variable {t : LeafType} {s s' : Shredder t (Recorded ω t.Physical)}
  {batches : List (List (Nested t.Value))} {rows : List (Nested t.Value)} {e : Error}

/-- What the writer of a column was handed so far. -/
def received (s : Shredder t (Recorded ω t.Physical)) : Contents t.Physical :=
  .ofBatches s.writer.batches.toList

/-- The pieces of several streams hold the streams, and further runs of positions what is behind
them, wherever these were cut. -/
theorem ofBatches_pieces (s : Shredder t (Recorded ω t.Physical))
    (streams runs : List (List (Position t.Physical))) :
    Contents.ofBatches (streams.flatMap s.pieces ++
        runs.map (Batch.ofPositions s.shape.column.bounds)) =
      .ofPositions s.shape.column.bounds (streams.flatten ++ runs.flatten) := by
  have hcut : (streams.flatMap (chunks s.buffer.capacity)).flatten = streams.flatten := by
    rw [List.flatMap_def, List.flatten_flatten, List.map_map]
    congr 1
    exact List.map_id'' (fun ps => flatten_chunks s.buffer.capacity_pos ps) streams
  rw [← hcut, ← List.flatten_append, ← Contents.ofBatches_ofPositions, List.map_append,
    List.map_flatMap]
  rfl

/-- A column that holds the rows of the accepted batches and nothing else. -/
structure Whole (s : Shredder t (Recorded ω t.Physical))
    (accepted : List (List (Nested t.Value))) : Prop where
  usable : s.isUsable = true
  rowsWritten : s.rowsWritten = accepted.flatten.length
  received : ∃ stream,
    Node.shredRows t s.column s.shape.root accepted.flatten = .ok stream ∧
      s.received = .ofPositions s.shape.column.bounds stream

/-- A shredder keeps the length of its buffer. -/
theorem Ready.capacity_write {ω : Type} [ColumnWriter ω t.Physical] {s : Shredder t ω}
    (h : s.Ready) (rows : List (Nested t.Value)) :
    (s.write rows).2.buffer.capacity = s.buffer.capacity := by
  cases hv : s.validate rows with
  | error e => rw [h.write_error hv]
  | ok =>
    obtain ⟨ps, hp⟩ := validate_eq_ok_iff.1 hv
    obtain ⟨s', ha, hw, -⟩ := h.write hp rfl
    rw [hw]
    exact ha.capacity

/-- Writes several batches, whether or not the ones before were refused. Also gives those
that were accepted. -/
def writeEach {ω : Type} [ColumnWriter ω t.Physical] :
    Shredder t ω → List (List (Nested t.Value)) → Shredder t ω × List (List (Nested t.Value))
  | s, [] => (s, [])
  | s, rows :: calls =>
    match s.write rows with
    | (.ok _, s) => ((s.writeEach calls).1, rows :: (s.writeEach calls).2)
    | (.error _, s) => s.writeEach calls

theorem Received.whole (h : s.Received batches) : s.Whole batches := by
  obtain ⟨streams, hstreams, htaken⟩ := h.taken
  refine ⟨?_, h.rowsWritten, streams.flatten, Node.shredRows_flatten hstreams, ?_⟩
  · unfold isUsable
    rw [h.ready.usable]
    rfl
  · have hall := s.ofBatches_pieces streams []
    rw [List.map_nil, List.append_nil, List.flatten_nil, List.append_nil] at hall
    rw [Shredder.received, htaken, hall]

variable [ColumnWriter ω t.Physical]

/-- A column whose writer failed with `e` while the batch `rows` was written to it. Behind the
accepted batches it holds some full buffers of that batch, but not all of it. -/
structure Interrupted (s : Shredder t (Recorded ω t.Physical))
    (accepted : List (List (Nested t.Value))) (rows : List (Nested t.Value)) (e : Error) :
    Prop where
  unusable : s.isUsable = false
  rowsWritten : s.rowsWritten = accepted.flatten.length
  received : ∃ stream failing k,
    Node.shredRows t s.column s.shape.root accepted.flatten = .ok stream ∧
      Node.shredRows t s.column s.shape.root rows = .ok failing ∧
      k * s.buffer.capacity < failing.length ∧
      s.received = .ofPositions s.shape.column.bounds
        (stream ++ failing.take (k * s.buffer.capacity))
  failure : ∃ before piece, ColumnWriter.writeBatch before piece = (.error e, s.writer.inner)

theorem Broke.interrupted (h : s.Broke batches rows e) : s.Interrupted batches rows e := by
  obtain ⟨streams, stream, part, piece, rest, before, hstreams, hstream, hpieces, htaken, hfail⟩ :=
    h.taken
  -- the batches in front of the one that failed come of full runs
  obtain ⟨runs, others, hchunks, rfl, hothers⟩ := List.map_eq_append_iff.1 hpieces
  obtain ⟨run, others, rfl, -, -⟩ := List.map_eq_cons_iff.1 hothers
  obtain ⟨-, hflat, hlt⟩ := chunks_cut s.buffer.capacity_pos hchunks
  refine ⟨?_, h.rowsWritten, ⟨streams.flatten, stream, runs.length,
    Node.shredRows_flatten hstreams, hstream, hlt, ?_⟩, before, piece, hfail⟩
  · unfold isUsable
    rw [h.failed]
    rfl
  · rw [Shredder.received, htaken, s.ofBatches_pieces streams runs, hflat]

/-- **What one batch does.** The check refuses it without an effect, or all of it is received, or
the writer fails at one of its pieces. -/
theorem Received.step (h : s.Received batches) (rows : List (Nested t.Value)) :
    (∃ e, s.validate rows = .error e ∧ s.write rows = (.error e, s)) ∨
      ∃ s', s'.shape = s.shape ∧ s'.buffer.capacity = s.buffer.capacity ∧
        ((s.write rows = (.ok rows.length, s') ∧ s'.Received (batches ++ [rows])) ∨
          ∃ e, s.write rows = (.error e, s') ∧ s'.Broke batches rows e) := by
  cases hv : s.validate rows with
  | error e => exact .inl ⟨e, rfl, h.ready.write_error hv⟩
  | ok =>
    have hcap := h.ready.capacity_write rows
    obtain ⟨s', hshape, hstate⟩ := h.write hv
    refine .inr ⟨s', hshape, ?_, hstate⟩
    rcases hstate with ⟨hw, -⟩ | ⟨e, hw, -⟩
    · rwa [hw] at hcap
    · rwa [hw] at hcap

theorem Broke.close (h : s.Broke batches rows e) :
    s.close = (.error (.writerFailed s.column), s) := by
  unfold Shredder.close checkUsable
  rw [if_pos h.failed]

theorem Broke.writeEach (h : s.Broke batches rows e) (calls : List (List (Nested t.Value))) :
    s.writeEach calls = (s, []) := by
  induction calls with
  | nil => rfl
  | cons call calls ih =>
    rw [Shredder.writeEach, write_failed h.failed]
    exact ih

/-- **What several batches do.** All that were accepted are received, unless the writer fails. In
that case nothing happens any more. -/
theorem Received.writeEach (h : s.Received batches) (calls : List (List (Nested t.Value))) :
    ∃ s' accepted, s.writeEach calls = (s', accepted) ∧ s'.shape = s.shape ∧
      s'.buffer.capacity = s.buffer.capacity ∧
      (s'.Received (batches ++ accepted) ∨
        ∃ earlier rows later s₁ e, calls = earlier ++ rows :: later ∧
          s.writeEach earlier = (s₁, accepted) ∧ s₁.Received (batches ++ accepted) ∧
          s₁.write rows = (.error e, s') ∧ s'.Broke (batches ++ accepted) rows e) := by
  induction calls generalizing s batches with
  | nil => exact ⟨s, [], rfl, rfl, rfl, .inl (by rwa [List.append_nil])⟩
  | cons call calls ih =>
    rcases h.step call with ⟨e, -, hw⟩ | ⟨s₁, hshape, hcap, ⟨hw, h₁⟩ | ⟨e, hw, hb⟩⟩
    · -- a batch that is refused leaves the column as it was
      obtain ⟨s', accepted, hrun, hshape', hcap', hstate⟩ := ih h
      refine ⟨s', accepted, by rw [Shredder.writeEach, hw]; exact hrun, hshape', hcap', ?_⟩
      rcases hstate with hr | ⟨earlier, rows, later, s₁, e₁, rfl, hrun₁, hrest⟩
      · exact .inl hr
      · exact .inr ⟨call :: earlier, rows, later, s₁, e₁, rfl,
          by rw [Shredder.writeEach, hw]; exact hrun₁, hrest⟩
    · obtain ⟨s', accepted, hrun, hshape', hcap', hstate⟩ := ih h₁
      refine ⟨s', call :: accepted, by rw [Shredder.writeEach, hw]; simp only [hrun],
        hshape'.trans hshape, hcap'.trans hcap, ?_⟩
      rw [List.append_cons]
      rcases hstate with hr | ⟨earlier, rows, later, s₂, e₁, rfl, hrun₂, hrest⟩
      · exact .inl hr
      · exact .inr ⟨call :: earlier, rows, later, s₂, e₁, rfl,
          by rw [Shredder.writeEach, hw]; simp only [hrun₂], hrest⟩
    · -- a failure ends the run, whatever comes after it
      refine ⟨s₁, [], by rw [Shredder.writeEach, hw]; exact hb.writeEach calls, hshape, hcap,
        .inr ⟨[], call, calls, s, e, rfl, rfl, ?_, hw, ?_⟩⟩
      · rwa [List.append_nil]
      · rwa [List.append_nil]

/-- **Every column is whole or was interrupted.** A column that any batches were written to holds
just the accepted ones and counts their rows; closing it then does nothing, and the next batch is
refused by the check without an effect, or accepted, or interrupted by the writer. Or the writer
failed in the middle of one of the batches, behind some full buffers of it, and everything from
then on is refused without an effect. -/
theorem writeEach_wholeOrInterrupted {shape : ColumnShape} {w : ω} {options : Options}
    {s₀ : Shredder t (Recorded ω t.Physical)} (h : ofShape shape ⟨w, #[]⟩ options = .ok s₀)
    (calls : List (List (Nested t.Value))) :
    ∃ s accepted, s₀.writeEach calls = (s, accepted) ∧ s.shape = shape ∧
      s.buffer.capacity = options.bufferLength ∧
      ((s.Whole accepted ∧ s.close = (.ok (), s) ∧ ∀ rows,
          (∃ e, s.validate rows = .error e ∧ s.write rows = (.error e, s)) ∨
          (∃ s', s.write rows = (.ok rows.length, s') ∧ s'.Whole (accepted ++ [rows])) ∨
          ∃ e s', s.write rows = (.error e, s') ∧ s'.Interrupted accepted rows e) ∨
        ∃ earlier rows later s₁ e, calls = earlier ++ rows :: later ∧
          s₀.writeEach earlier = (s₁, accepted) ∧ s₁.Whole accepted ∧
          s₁.write rows = (.error e, s) ∧ s.Interrupted accepted rows e ∧
          (∀ more, s.write more = (.error (.writerFailed s.column), s)) ∧
          s.close = (.error (.writerFailed s.column), s)) := by
  obtain ⟨hr, rfl⟩ := received_of_ofShape h
  obtain ⟨-, -, -, -, hcap₀⟩ := ready_of_ofShape h
  obtain ⟨s, accepted, hrun, hshape, hcap, hstate⟩ := hr.writeEach calls
  simp only [List.nil_append] at hstate
  refine ⟨s, accepted, hrun, hshape, hcap.trans hcap₀, ?_⟩
  rcases hstate with hr | ⟨earlier, rows, later, s₁, e, hcalls, hrun₁, hr₁, hw, hb⟩
  · refine .inl ⟨hr.whole, hr.ready.close, ?_⟩
    intro rows
    rcases hr.step rows with hrefused | ⟨s', -, -, ⟨hw, hr'⟩ | ⟨e, hw, hb⟩⟩
    · exact .inl hrefused
    · exact .inr (.inl ⟨s', hw, hr'.whole⟩)
    · exact .inr (.inr ⟨e, s', hw, hb.interrupted⟩)
  · exact .inr ⟨earlier, rows, later, s₁, e, hcalls, hrun₁, hr₁.whole, hw, hb.interrupted,
      fun more => write_failed hb.failed, hb.close⟩

/-- A stripe whose third write fails. -/
def faultyNumbers : Faulty (Stripe Int32) :=
  ⟨.ofColumn ColumnShape.numbers.column, [3], .physical "numbers" "disk", 0⟩

/-- Of four batches one is accepted, one is refused, one is interrupted when two of its three
numbers were written, and one comes too late. -/
theorem writeEach_wholeOrInterrupted_numbers :
    ∃ (s₀ s : Shredder .int32 (Recorded (Faulty (Stripe Int32)) Int32)) (rows : _) (e : _),
      ofShape .numbers ⟨faultyNumbers, #[]⟩ ⟨2⟩ = .ok s₀ ∧
      s₀.writeEach [[.list [.scalar (7 : Int32)]], [.null],
        [.list [.scalar (8 : Int32), .scalar (9 : Int32), .scalar (10 : Int32)]], [.list []]] =
        (s, [[.list [.scalar (7 : Int32)]]]) ∧
      s.Interrupted [[.list [.scalar (7 : Int32)]]] rows e ∧
      s.received = (⟨[1, 1, 1], [0, 0, 1], [7, 8, 9]⟩ : Contents Int32) ∧
      s.close = (.error (.writerFailed "numbers"), s) := by
  obtain ⟨s₀, h, haccepted, husable, hreceived⟩ :
      ∃ s₀ : Shredder .int32 (Recorded (Faulty (Stripe Int32)) Int32),
      ofShape .numbers ⟨faultyNumbers, #[]⟩ ⟨2⟩ = .ok s₀ ∧
      (s₀.writeEach [[.list [.scalar (7 : Int32)]], [.null],
        [.list [.scalar (8 : Int32), .scalar (9 : Int32), .scalar (10 : Int32)]],
        [.list []]]).2 = [[.list [.scalar (7 : Int32)]]] ∧
      (s₀.writeEach [[.list [.scalar (7 : Int32)]], [.null],
        [.list [.scalar (8 : Int32), .scalar (9 : Int32), .scalar (10 : Int32)]],
        [.list []]]).1.isUsable = false ∧
      (s₀.writeEach [[.list [.scalar (7 : Int32)]], [.null],
        [.list [.scalar (8 : Int32), .scalar (9 : Int32), .scalar (10 : Int32)]],
        [.list []]]).1.received = (⟨[1, 1, 1], [0, 0, 1], [7, 8, 9]⟩ : Contents Int32) :=
    ⟨_, rfl, rfl, rfl, rfl⟩
  obtain ⟨s, accepted, hrun, hshape, -, hstate⟩ := writeEach_wholeOrInterrupted h
    [[.list [.scalar (7 : Int32)]], [.null],
      [.list [.scalar (8 : Int32), .scalar (9 : Int32), .scalar (10 : Int32)]], [.list []]]
  obtain rfl : accepted = [[.list [.scalar (7 : Int32)]]] :=
    (congrArg Prod.snd hrun).symm.trans haccepted
  have husable' : s.isUsable = false :=
    (congrArg (fun r => r.1.isUsable) hrun).symm.trans husable
  have hreceived' : s.received = (⟨[1, 1, 1], [0, 0, 1], [7, 8, 9]⟩ : Contents Int32) :=
    (congrArg (fun r => r.1.received) hrun).symm.trans hreceived
  rcases hstate with ⟨hwhole, -⟩ | ⟨-, rows, -, -, e, -, -, -, -, hinterrupted, -, hclose⟩
  · rw [hwhole.usable] at husable'
    cases husable'
  · refine ⟨s₀, s, rows, e, h, hrun, hinterrupted, hreceived', ?_⟩
    unfold column at hclose
    rwa [hshape] at hclose

end Shredder

/-- A writer that never fails, as long as the batches are of positions that fit the column. -/
def ColumnWriter.NeverFails [ColumnWriter ω P] (w : ω) (b : LevelBounds) : Prop :=
  ∀ runs : List (List (Position P)), (∀ run ∈ runs, ∀ p ∈ run, p.Fits b) →
    (Outcome.forEach writeBatch w (runs.map (Batch.ofPositions b))).1 = .ok ()

section NeverFails

variable [ColumnWriter ω P] {b : LevelBounds}

/-- Taking a batch does not make such a writer fail later. -/
theorem ColumnWriter.NeverFails.step {w : ω} (h : NeverFails w b) {run : List (Position P)}
    (hfit : ∀ p ∈ run, p.Fits b) :
    ∃ w', writeBatch w (.ofPositions b run) = (.ok (), w') ∧ NeverFails w' b := by
  have hrun : ∀ runs, (∀ run ∈ runs, ∀ p ∈ run, p.Fits b) →
      (Outcome.forEach writeBatch w ((run :: runs).map (Batch.ofPositions b))).1 = .ok () :=
    fun runs hruns => h (run :: runs) (List.forall_mem_cons.2 ⟨hfit, hruns⟩)
  simp only [List.map_cons, Outcome.forEach] at hrun
  rcases hw : writeBatch w (Batch.ofPositions b run) with ⟨e | ⟨⟩, w'⟩
  · rw [hw] at hrun
    cases hrun [] fun _ h => absurd h List.not_mem_nil
  · rw [hw] at hrun
    exact ⟨w', rfl, hrun⟩

/-- All batches are recorded of a writer that never fails. -/
theorem Recorded.forEach_of_neverFails {r : Recorded ω P}
    (h : ColumnWriter.NeverFails r.inner b) {runs : List (List (Position P))}
    (hfit : ∀ run ∈ runs, ∀ p ∈ run, p.Fits b) :
    ∃ inner, Outcome.forEach ColumnWriter.writeBatch r (runs.map (Batch.ofPositions b)) =
        (.ok (), ⟨inner, (r.batches.toList ++ runs.map (Batch.ofPositions b)).toArray⟩) ∧
      ColumnWriter.NeverFails inner b := by
  induction runs generalizing r with
  | nil => exact ⟨r.inner, by rw [List.map_nil, List.append_nil]; rfl, h⟩
  | cons run runs ih =>
    rw [List.forall_mem_cons] at hfit
    obtain ⟨inner, hb, hinner⟩ := h.step hfit.1
    have hw : ColumnWriter.writeBatch r (Batch.ofPositions b run) =
        (.ok (), (⟨inner, r.batches.push (.ofPositions b run)⟩ : Recorded ω P)) := by
      simp only [ColumnWriter.writeBatch, hb]
    obtain ⟨last, hrun, hlast⟩ :=
      ih (r := ⟨inner, r.batches.push (.ofPositions b run)⟩) hinner hfit.2
    rw [Array.toList_push, List.append_assoc] at hrun
    exact ⟨last, by rw [List.map_cons, Outcome.forEach, hw]; exact hrun, hlast⟩

end NeverFails

namespace Shredder

section Transparency

variable {t : LeafType} [ColumnWriter ω t.Physical] {s : Shredder t (Recorded ω t.Physical)}
  {batches : List (List (Nested t.Value))} {rows : List (Nested t.Value)}
  {ps : List (Position t.Physical)}

omit [ColumnWriter ω t.Physical] in
/-- The pieces of rows are batches of positions that fit the column. -/
theorem fits_of_mem_chunks {ω : Type} {s : Shredder t ω}
    (hp : Node.shredRows t s.column s.shape.root rows = .ok ps) :
    ∀ run ∈ chunks s.buffer.capacity ps, ∀ p ∈ run, p.Fits s.shape.column.bounds :=
  fun _ hrun p hmem =>
    s.shape.fits_of_shredRows hp p (mem_of_mem_chunks s.buffer.capacity_pos hrun hmem)

/-- **A writer that never fails receives a batch in the pieces of its positions.** -/
theorem Received.write_pieces (h : s.Received batches)
    (hn : ColumnWriter.NeverFails s.writer.inner s.shape.column.bounds)
    (hp : Node.shredRows t s.column s.shape.root rows = .ok ps) :
    ∃ s', s.write rows = (.ok rows.length, s') ∧ s'.Received (batches ++ [rows]) ∧
      ColumnWriter.NeverFails s'.writer.inner s.shape.column.bounds ∧ s'.shape = s.shape ∧
      s'.writer.batches.toList = s.writer.batches.toList ++ s.pieces ps := by
  obtain ⟨inner, hw, hinner⟩ := Recorded.forEach_of_neverFails hn (fits_of_mem_chunks hp)
  obtain ⟨s', ha, hwrite, -⟩ := h.ready.write hp hw
  obtain ⟨s'', hshape, ⟨hwrite', hr⟩ | ⟨e, hwrite', -⟩⟩ := h.write (validate_eq_ok_iff.2 ⟨ps, hp⟩)
  · obtain rfl : s' = s'' := (Prod.mk.inj (hwrite.symm.trans hwrite')).2
    refine ⟨s', hwrite, hr, ?_, hshape, ?_⟩
    · rw [ha.writer]
      exact hinner
    · rw [ha.writer]
      rfl
  · cases (Prod.mk.inj (hwrite.symm.trans hwrite')).1

/-- It receives all batches of rows that pass the check. -/
theorem Received.writeAll (h : s.Received batches)
    (hn : ColumnWriter.NeverFails s.writer.inner s.shape.column.bounds)
    {calls : List (List (Nested t.Value))} (hv : ∀ rows ∈ calls, s.validate rows = .ok ()) :
    ∃ s', s.writeAll calls = (.ok (), s') ∧ s'.Received (batches ++ calls) ∧
      ColumnWriter.NeverFails s'.writer.inner s.shape.column.bounds ∧ s'.shape = s.shape ∧
      s'.buffer.capacity = s.buffer.capacity := by
  induction calls generalizing s batches with
  | nil => exact ⟨s, rfl, by rwa [List.append_nil], hn, rfl, rfl⟩
  | cons call calls ih =>
    rw [List.forall_mem_cons] at hv
    obtain ⟨ps, hp⟩ := validate_eq_ok_iff.1 hv.1
    obtain ⟨s₁, hw, hr, hn₁, hshape, -⟩ := h.write_pieces hn hp
    have hcap := h.ready.capacity_write call
    rw [hw] at hcap
    have hv₁ : ∀ rows ∈ calls, s₁.validate rows = .ok () := by
      intro rows hmem
      rw [validate_of_shape hshape]
      exact hv.2 rows hmem
    rw [← hshape] at hn₁
    obtain ⟨s', hrun, hr', hn', hshape', hcap'⟩ := ih hr hn₁ hv₁
    rw [← List.append_cons] at hr'
    rw [hshape] at hn'
    refine ⟨s', ?_, hr', hn', hshape'.trans hshape, hcap'.trans hcap⟩
    unfold Shredder.writeAll at hrun ⊢
    rw [Outcome.forEach, hw]
    exact hrun

omit [ColumnWriter ω t.Physical] in
/-- The positions of some rows are written in as many pieces as are needed, all but the last one
as long as the buffer. -/
theorem length_pieces (hp : Node.shredRows t s.column s.shape.root rows = .ok ps) :
    (s.pieces ps).length = (ps.length + s.buffer.capacity - 1) / s.buffer.capacity ∧
      ∀ b ∈ (s.pieces ps).dropLast, b.positions = s.buffer.capacity := by
  have hcap := s.buffer.capacity_pos
  unfold pieces
  constructor
  · rw [List.length_map, length_chunks hcap]
  · intro b hb
    rw [← List.map_dropLast] at hb
    obtain ⟨run, hrun, rfl⟩ := List.mem_map.1 hb
    have hfit : ∀ p ∈ run, p.Fits s.shape.column.bounds :=
      fits_of_mem_chunks hp run ((List.dropLast_sublist _).subset hrun)
    rw [Batch.positions_ofPositions hfit, length_of_mem_dropLast_chunks hcap hrun]

omit [ColumnWriter ω t.Physical] in
/-- Rows that conform to the column pass the check. -/
theorem validate_of_conforms {ω : Type} {s : Shredder t ω}
    (h : ∀ row ∈ rows, row.Conforms s.shape.column.frames) : s.validate rows = .ok () := by
  unfold validate
  rw [forM_eq_ok_iff]
  exact fun row hrow => (Node.follows_of_build s.shape.root_eq).conforms_iff.1 (h row hrow)

end Transparency

/-- **How rows are dealt out cannot be seen in the column.** The same rows leave the same levels
and values in two columns, whatever the lengths of their buffers and of the batches that the rows
were written in. A further batch is written in as many pieces as its positions need, all but the
last one as long as the buffer. -/
theorem writeAll_transparent {t : LeafType} {ω₁ ω₂ : Type} [ColumnWriter ω₁ t.Physical]
    [ColumnWriter ω₂ t.Physical] {shape : ColumnShape} {w₁ : ω₁} {w₂ : ω₂} {o₁ o₂ : Options}
    {s₁ : Shredder t (Recorded ω₁ t.Physical)} {s₂ : Shredder t (Recorded ω₂ t.Physical)}
    (h₁ : ofShape shape ⟨w₁, #[]⟩ o₁ = .ok s₁) (h₂ : ofShape shape ⟨w₂, #[]⟩ o₂ = .ok s₂)
    (hw₁ : ColumnWriter.NeverFails w₁ shape.column.bounds)
    (hw₂ : ColumnWriter.NeverFails w₂ shape.column.bounds)
    (batches₁ batches₂ : List (List (Nested t.Value)))
    (hsame : batches₁.flatten = batches₂.flatten)
    (hrows : ∀ row ∈ batches₁.flatten, row.Conforms shape.column.frames) :
    ∃ s₁' s₂', s₁.writeAll batches₁ = (.ok (), s₁') ∧ s₂.writeAll batches₂ = (.ok (), s₂') ∧
      s₁'.Whole batches₁ ∧ s₂'.Whole batches₂ ∧ s₁'.received = s₂'.received ∧
      ∀ rows : List (Nested t.Value), (∀ row ∈ rows, row.Conforms shape.column.frames) →
        ∃ ps s written, Node.shredRows t shape.column.name shape.root rows = .ok ps ∧
          s₁'.write rows = (.ok rows.length, s) ∧
          s.writer.batches.toList = s₁'.writer.batches.toList ++ written ∧
          written.length = (ps.length + o₁.bufferLength - 1) / o₁.bufferLength ∧
          ∀ b ∈ written.dropLast, b.positions = o₁.bufferLength := by
  obtain ⟨hr₁, rfl⟩ := received_of_ofShape h₁
  obtain ⟨hr₂, hshape⟩ := received_of_ofShape h₂
  obtain ⟨-, -, hwriter₁, -, hcap₁⟩ := ready_of_ofShape h₁
  obtain ⟨-, -, hwriter₂, -, -⟩ := ready_of_ofShape h₂
  have hv₁ : ∀ rows ∈ batches₁, s₁.validate rows = .ok () := fun rows hmem =>
    validate_of_conforms fun row hrow => hrows row (List.mem_flatten_of_mem hmem hrow)
  have hv₂ : ∀ rows ∈ batches₂, s₂.validate rows = .ok () := by
    intro rows hmem
    refine validate_of_conforms fun row hrow => ?_
    rw [hshape]
    refine hrows row ?_
    rw [hsame]
    exact List.mem_flatten_of_mem hmem hrow
  obtain ⟨s₁', hrun₁, hr₁', hn₁', hshape₁, hcap₁'⟩ :=
    hr₁.writeAll (by rw [hwriter₁]; exact hw₁) hv₁
  obtain ⟨s₂', hrun₂, hr₂', -, hshape₂, -⟩ :=
    hr₂.writeAll (by rw [hwriter₂, hshape]; exact hw₂) hv₂
  rw [List.nil_append] at hr₁' hr₂'
  have hcap : s₁'.buffer.capacity = o₁.bufferLength := hcap₁'.trans hcap₁
  refine ⟨s₁', s₂', hrun₁, hrun₂, hr₁'.whole, hr₂'.whole, ?_, ?_⟩
  · -- both columns hold the positions of the same rows
    obtain ⟨stream₁, hstream₁, hreceived₁⟩ := hr₁'.whole.received
    obtain ⟨stream₂, hstream₂, hreceived₂⟩ := hr₂'.whole.received
    unfold column at hstream₁ hstream₂
    rw [hshape₁] at hstream₁ hreceived₁
    rw [hshape₂, hshape, ← hsame] at hstream₂
    rw [hshape₂, hshape] at hreceived₂
    obtain rfl := Except.ok.inj (hstream₁.symm.trans hstream₂)
    rw [hreceived₁, hreceived₂]
  · intro rows hconforms
    rw [← hshape₁] at hconforms ⊢
    obtain ⟨ps, hp⟩ := validate_eq_ok_iff.1 (validate_of_conforms hconforms)
    rw [← hshape₁] at hn₁'
    obtain ⟨s, hw, -, -, -, hwritten⟩ := hr₁'.write_pieces hn₁' hp
    have hpieces := length_pieces hp
    rw [hcap] at hpieces
    exact ⟨ps, s, s₁'.pieces ps, hp, hw, hwritten, hpieces⟩

/-- The stripe of a column takes the batches of its positions. -/
theorem neverFails_ofColumn (column : Column) :
    ColumnWriter.NeverFails (Stripe.ofColumn column : Stripe P) column.bounds := by
  intro runs hfit
  obtain ⟨s, hrun, -⟩ := (Stripe.stores_ofColumn column).forEach_write
    fun run hrun p hp => (hfit run hrun p hp).paired
  exact congrArg Prod.fst hrun

/-- Three numbers and an empty list, in two batches through a buffer of two positions and in one
through a buffer of one. A list of three numbers more takes two writes of the former. -/
theorem writeAll_transparent_numbers :
    ∃ (s₁ s₁' s₂ s₂' s : Shredder .int32 (Recorded (Stripe Int32) Int32))
      (written : List (Batch Int32)),
      ofShape .numbers ⟨.ofColumn ColumnShape.numbers.column, #[]⟩ ⟨2⟩ = .ok s₁ ∧
      ofShape .numbers ⟨.ofColumn ColumnShape.numbers.column, #[]⟩ ⟨1⟩ = .ok s₂ ∧
      s₁.writeAll [[.list [.scalar (7 : Int32), .scalar (8 : Int32), .scalar (9 : Int32)]],
        [.list []]] = (.ok (), s₁') ∧
      s₂.writeAll [[.list [.scalar (7 : Int32), .scalar (8 : Int32), .scalar (9 : Int32)],
        .list []]] = (.ok (), s₂') ∧
      s₁'.received = s₂'.received ∧
      s₁'.write [.list [.scalar (1 : Int32), .scalar (2 : Int32), .scalar (3 : Int32)]] =
        (.ok 1, s) ∧
      s.writer.batches.toList = s₁'.writer.batches.toList ++ written ∧ written.length = 2 := by
  obtain ⟨s₁, s₂, h₁, h₂⟩ : ∃ s₁ s₂ : Shredder .int32 (Recorded (Stripe Int32) Int32),
      ofShape .numbers ⟨.ofColumn ColumnShape.numbers.column, #[]⟩ ⟨2⟩ = .ok s₁ ∧
      ofShape .numbers ⟨.ofColumn ColumnShape.numbers.column, #[]⟩ ⟨1⟩ = .ok s₂ :=
    ⟨_, _, rfl, rfl⟩
  have hconforms : ∀ numbers : List Int32,
      (Nested.list (numbers.map .scalar)).Conforms ColumnShape.numbers.column.frames := by
    intro numbers
    refine .list (.inl rfl) fun item hitem => ?_
    obtain ⟨n, -, rfl⟩ := List.mem_map.1 hitem
    exact .scalar n
  have hnever := neverFails_ofColumn (P := Int32) ColumnShape.numbers.column
  obtain ⟨s₁', s₂', hrun₁, hrun₂, -, -, hsame, hwrite⟩ := writeAll_transparent h₁ h₂ hnever hnever
    [[.list [.scalar (7 : Int32), .scalar (8 : Int32), .scalar (9 : Int32)]], [.list []]]
    [[.list [.scalar (7 : Int32), .scalar (8 : Int32), .scalar (9 : Int32)], .list []]] rfl
    (List.forall_mem_cons.2 ⟨hconforms [7, 8, 9], List.forall_mem_cons.2 ⟨hconforms [], by simp⟩⟩)
  obtain ⟨ps, s, written, hp, hw, hwritten, hlength, -⟩ := hwrite
    [.list [.scalar (1 : Int32), .scalar (2 : Int32), .scalar (3 : Int32)]]
    (List.forall_mem_cons.2 ⟨hconforms [1, 2, 3], by simp⟩)
  obtain rfl := Except.ok.inj hp
  exact ⟨s₁, s₁', s₂, s₂', s, written, h₁, h₂, hrun₁, hrun₂, hsame, hw, hwritten, hlength⟩

end Shredder

end Striping
