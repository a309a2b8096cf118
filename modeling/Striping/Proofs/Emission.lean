import Striping.Proofs.Positions
import Striping.Write.Shredder

/-!
# Writing through a buffer

A write buffer packs the positions it takes into batches for its writer.

* `Batch.ofPositions`: the batch of some positions. `WriteBuffer.Holds`: the positions
  that are buffered.
* `pack`: the batches that come of several runs of positions.
  `WriteBuffer.Holds.append`: **a buffer writes just these**, up to the first failure.
* `pack_singletons`, `pack_chunks`: position by position or in runs of the capacity, the
  batches are the same.
-/

namespace Striping

variable {ω P α β : Type}

section Chunks

variable {n : Nat}

theorem chunks_nil : chunks n ([] : List α) = [] := rfl

/-- The bound on the number of runs does not matter. -/
theorem chunks_go (hn : 0 < n) {m m' : Nat} {as : List α} (h : as.length ≤ m)
    (h' : as.length ≤ m') : chunks.go n m as = chunks.go n m' as := by
  induction m generalizing m' as with
  | zero =>
    obtain rfl := List.eq_nil_of_length_eq_zero (Nat.le_zero.1 h)
    cases m' <;> rfl
  | succ m ih =>
    cases as with
    | nil => cases m' <;> rfl
    | cons a as =>
      rw [List.length_cons] at h h'
      obtain ⟨m', rfl⟩ := Nat.exists_eq_add_one.2 (show 0 < m' by omega)
      have hlen : ((a :: as).drop n).length ≤ as.length := by
        rw [List.length_drop, List.length_cons]
        omega
      rw [chunks.go, chunks.go, ih (by omega) (show _ ≤ m' by omega)]

theorem chunks_of_ne_nil (hn : 0 < n) {as : List α} (h : as ≠ []) :
    chunks n as = as.take n :: chunks n (as.drop n) := by
  obtain ⟨a, as, rfl⟩ := List.exists_cons_of_ne_nil h
  have hlen : ((a :: as).drop n).length ≤ as.length := by
    rw [List.length_drop, List.length_cons]
    omega
  show (a :: as).take n :: chunks.go n as.length ((a :: as).drop n) = _
  rw [chunks_go hn hlen (Nat.le_refl _)]
  rfl

theorem chunks_of_length_le (hn : 0 < n) {as : List α} (h : as ≠ []) (hle : as.length ≤ n) :
    chunks n as = [as] := by
  rw [chunks_of_ne_nil hn h, List.take_of_length_le hle, List.drop_of_length_le hle, chunks_nil]

theorem chunks_append (hn : 0 < n) {as : List α} (bs : List α) (h : as.length = n) :
    chunks n (as ++ bs) = as :: chunks n bs := by
  have hne : as ++ bs ≠ [] := by
    intro h0
    rw [List.append_eq_nil_iff.1 h0 |>.1] at h
    exact absurd h (Nat.ne_of_lt hn)
  rw [chunks_of_ne_nil hn hne, List.take_left' h, List.drop_left' h]

/-- Induction on the runs of a list. -/
theorem drop_induction (hn : 0 < n) {motive : List α → Prop} (nil : motive [])
    (step : ∀ as, as ≠ [] → motive (as.drop n) → motive as) (as : List α) : motive as := by
  by_cases h : as = []
  · rw [h]; exact nil
  · exact step as h (drop_induction hn nil step (as.drop n))
termination_by as.length
decreasing_by
  have := List.length_pos_of_ne_nil h
  rw [List.length_drop]
  omega

/-- Cutting and mapping go together. -/
theorem chunks_map (hn : 0 < n) (f : α → β) (as : List α) :
    chunks n (as.map f) = (chunks n as).map (·.map f) := by
  induction as using drop_induction hn with
  | nil => rfl
  | step as ha ih =>
    have hf : as.map f ≠ [] := fun h => ha (List.map_eq_nil_iff.1 h)
    rw [chunks_of_ne_nil hn ha, chunks_of_ne_nil hn hf, ← List.map_take, ← List.map_drop, ih,
      List.map_cons]

theorem length_le_of_mem_chunks (hn : 0 < n) {as run : List α} (h : run ∈ chunks n as) :
    run.length ≤ n := by
  induction as using drop_induction hn with
  | nil => cases h
  | step as ha ih =>
    rw [chunks_of_ne_nil hn ha] at h
    rcases List.mem_cons.1 h with rfl | h
    · rw [List.length_take]
      omega
    · exact ih h

/-- Nothing is lost by cutting. -/
theorem flatten_chunks (hn : 0 < n) (as : List α) : (chunks n as).flatten = as := by
  induction as using drop_induction hn with
  | nil => rfl
  | step as ha ih =>
    rw [chunks_of_ne_nil hn ha, List.flatten_cons, ih, List.take_append_drop]

/-- What is in a run was there before. -/
theorem mem_of_mem_chunks (hn : 0 < n) {as run : List α} {a : α} (hr : run ∈ chunks n as)
    (ha : a ∈ run) : a ∈ as := by
  rw [← flatten_chunks hn as]
  exact List.mem_flatten_of_mem hr ha

end Chunks

/-- The batches that come of a buffer which holds `qs` and takes several runs: it is
written through whenever the next run does not fit, and at the end. -/
def pack (n : Nat) (qs : List α) : List (List α) → List (List α)
  | [] => if qs = [] then [] else [qs]
  | run :: runs =>
    if n < qs.length + run.length ∧ qs ≠ [] then qs :: pack n run runs
    else pack n (qs ++ run) runs

theorem pack_singletons {n : Nat} (hn : 0 < n) {qs as : List α} (h : qs.length ≤ n) :
    pack n qs (as.map ([·])) = chunks n (qs ++ as) := by
  -- one more position does not fit just when the buffer is full
  induction as generalizing qs with
  | nil =>
    rw [List.append_nil]
    by_cases hq : qs = []
    · subst hq; rfl
    · rw [chunks_of_length_le hn hq h]
      exact if_neg hq
  | cons a as ih =>
    rw [List.map_cons, pack]
    split
    · rename_i hlt
      rw [List.length_singleton] at hlt
      rw [ih (show [a].length ≤ n from hn), chunks_append hn _ (show qs.length = n by omega)]
      rfl
    · rename_i hlt
      rw [List.length_singleton, not_and_not_right] at hlt
      have hle : (qs ++ [a]).length ≤ n := by
        rw [List.length_append, List.length_singleton]
        by_contra hgt
        rw [hlt (by omega), List.length_nil] at hgt
        omega
      rw [ih hle, List.append_assoc]
      rfl

/-- A buffer that is empty or full takes runs of its capacity as they are. -/
theorem pack_chunks {n : Nat} (hn : 0 < n) {qs as : List α}
    (h : qs = [] ∨ qs.length = n ∨ as = []) (hle : qs.length ≤ n) :
    pack n qs (chunks n as) = chunks n (qs ++ as) := by
  induction as using drop_induction hn generalizing qs with
  | nil =>
    rw [List.append_nil]
    by_cases hq : qs = []
    · subst hq; rfl
    · rw [chunks_of_length_le hn hq hle]
      exact if_neg hq
  | step as ha ih =>
    have hpos := List.length_pos_of_ne_nil ha
    have htake : (as.take n).length ≤ n ∧ 0 < (as.take n).length := by
      rw [List.length_take]
      omega
    -- only the last run is shorter than the capacity
    have hlast : as.take n = [] ∨ (as.take n).length = n ∨ as.drop n = [] := by
      by_cases hl : n ≤ as.length
      · exact .inr (.inl (List.length_take_of_le hl))
      · exact .inr (.inr (List.drop_of_length_le (by omega)))
    have hnext := ih hlast htake.1
    rw [List.take_append_drop] at hnext
    rw [chunks_of_ne_nil hn ha, pack, hnext]
    obtain rfl | hq | rfl := h
    · rw [if_neg (fun h => h.2 rfl), List.nil_append, List.nil_append, hnext]
    · have hne : qs ≠ [] := List.ne_nil_of_length_pos (by omega)
      rw [if_pos ⟨by omega, hne⟩, chunks_append hn _ hq]
    · exact absurd rfl ha

/-- The batch of some positions, as far as a column with these bounds stores them. -/
def Batch.ofPositions (b : LevelBounds) (ps : List (Position P)) : Batch P where
  definitions :=
    if b.storesDefinitions then some (ps.map (·.levels.definition)).toArray else none
  repetitions :=
    if b.storesRepetitions then some (ps.map (·.levels.repetition)).toArray else none
  values := (ps.filterMap (·.value)).toArray

namespace Lane

variable [Inhabited α] {l : Lane α} {lane : Option (Lane α)} {stores : Bool} {es : List α}

/-- Entries that are written into the slots and committed are put behind the others. -/
theorem filled_commit (l : Lane α) (es : List α) {n : Nat} (hn : es.length = n) :
    ((l.overlay es).commit n).filled = l.filled ++ es.toArray := by
  subst hn
  show l.filled ++ (((es ++ l.stale.drop es.length).take es.length).rightpad es.length
    default).toArray = _
  rw [List.take_left' rfl, List.rightpad, Nat.sub_self, List.replicate_zero, List.append_nil]

/-- A lane that is there if the column stores its entries, with just these entries. -/
def Stores (stores : Bool) (lane : Option (Lane α)) (es : List α) : Prop :=
  lane.map filled = if stores then some es.toArray else none

theorem Stores.commit (h : Stores stores lane es) {ns : List α} {n : Nat} (hn : ns.length = n) :
    Stores stores ((lane.map (·.overlay ns)).map (·.commit n)) (es ++ ns) := by
  unfold Stores at *
  cases stores with
  | false =>
    rw [Option.map_eq_none_iff.1 h]
    rfl
  | true =>
    obtain ⟨l, rfl, hl⟩ := Option.map_eq_some_iff.1 h
    show some ((l.overlay ns).commit n).filled = some (es ++ ns).toArray
    rw [l.filled_commit ns hn, hl, List.append_toArray]

omit [Inhabited α] in
theorem Stores.release (h : Stores stores lane es) : Stores stores (lane.map release) [] := by
  unfold Stores at *
  cases stores with
  | false =>
    rw [Option.map_eq_none_iff.1 h]
    rfl
  | true =>
    obtain ⟨l, rfl, -⟩ := Option.map_eq_some_iff.1 h
    rfl

end Lane

namespace WriteBuffer

variable {bounds : LevelBounds} {b : WriteBuffer ω P} {ps qs : List (Position P)}

/-- A buffer that holds just these positions. -/
structure Holds (b : WriteBuffer ω P) (bounds : LevelBounds) (ps : List (Position P)) : Prop where
  definitions : Lane.Stores bounds.storesDefinitions b.definitions (ps.map (·.levels.definition))
  repetitions : Lane.Stores bounds.storesRepetitions b.repetitions (ps.map (·.levels.repetition))
  values : b.values.filled = (ps.filterMap (·.value)).toArray
  buffered : b.buffered = ps.length
  length_le : ps.length ≤ b.capacity

theorem Holds.batch (hb : b.Holds bounds ps) : b.batch = .ofPositions bounds ps := by
  unfold WriteBuffer.batch Batch.ofPositions
  rw [hb.definitions, hb.repetitions, hb.values]

theorem holds_of_make {writer : ω} {capacity : Nat}
    (h : make writer bounds capacity = .ok b) :
    b.Holds bounds [] ∧ b.writer = writer ∧ b.capacity = capacity := by
  unfold make at h
  split at h
  · obtain rfl := Except.ok.inj h
    refine ⟨⟨?_, ?_, rfl, rfl, Nat.zero_le _⟩, rfl, rfl⟩
    · unfold Lane.Stores
      cases bounds.storesDefinitions <;> rfl
    · unfold Lane.Stores
      cases bounds.storesRepetitions <;> rfl
  · cases h

variable [Inhabited P]

theorem Holds.put (hb : b.Holds bounds ps) (hle : ps.length + qs.length ≤ b.capacity) :
    (b.put qs).Holds bounds (ps ++ qs) where
  definitions := by
    rw [List.map_append]
    exact hb.definitions.commit (List.length_map _)
  repetitions := by
    rw [List.map_append]
    exact hb.repetitions.commit (List.length_map _)
  values := by
    show ((b.values.overlay _).commit _).filled = _
    rw [Lane.filled_commit _ _ rfl, hb.values, List.filterMap_append, List.append_toArray]
  buffered := by
    show b.buffered + qs.length = _
    rw [hb.buffered, List.length_append]
  length_le := by
    rw [List.length_append]
    exact hle

theorem Holds.discard (hb : b.Holds bounds ps) : b.discard.Holds bounds [] :=
  ⟨hb.definitions.release, hb.repetitions.release, rfl, rfl, Nat.zero_le _⟩

omit [Inhabited P] in
theorem Holds.withWriter (hb : b.Holds bounds ps) (w : ω) :
    Holds { b with writer := w } bounds ps :=
  ⟨hb.definitions, hb.repetitions, hb.values, hb.buffered, hb.length_le⟩

variable [ColumnWriter ω P]

/-- A buffer that did to its writer what `o` says. After a success it holds `qs`. -/
structure Tracks (bounds : LevelBounds) (capacity : Nat) (qs : List (Position P))
    (ob : Outcome (WriteBuffer ω P) Unit) (o : Outcome ω Unit) : Prop where
  answer : ob.1 = o.1
  writer : ob.2.writer = o.2
  capacity : ob.2.capacity = capacity
  holds : ∃ ps, ob.2.Holds bounds ps ∧ (ob.1 = .ok () → ps = qs)

/-- The buffer written through after steps that succeed. -/
def thenFlush (o : Outcome (WriteBuffer ω P) Unit) : Outcome (WriteBuffer ω P) Unit :=
  match o with
  | (.ok (), b) => b.flush
  | (.error e, b) => (.error e, b)

namespace Holds

theorem flush_nil (hb : b.Holds bounds []) : b.flush = (.ok (), b) := by
  unfold WriteBuffer.flush
  exact if_pos hb.buffered

/-- A buffer that is not empty hands its positions on. -/
theorem flush_cons (hb : b.Holds bounds ps) (hne : ps ≠ []) :
    Tracks bounds b.capacity [] b.flush
      (ColumnWriter.writeBatch b.writer (.ofPositions bounds ps)) := by
  have hpos := List.length_pos_of_ne_nil hne
  unfold WriteBuffer.flush
  rw [if_neg (by rw [hb.buffered]; omega), hb.batch]
  rcases ColumnWriter.writeBatch b.writer (Batch.ofPositions bounds ps) with ⟨e | ⟨⟩, w⟩
  · exact ⟨rfl, rfl, rfl, ps, hb.withWriter w, by intro h; cases h⟩
  · have hd := hb.discard.withWriter w
    exact ⟨rfl, rfl, rfl, [], ⟨hd.definitions, hd.repetitions, hd.values, hd.buffered,
      hd.length_le⟩, fun _ => rfl⟩

theorem flush (hb : b.Holds bounds ps) :
    Tracks bounds b.capacity [] b.flush (Outcome.forEach ColumnWriter.writeBatch b.writer
      ((pack b.capacity ps []).map (Batch.ofPositions bounds))) := by
  by_cases hne : ps = []
  · subst hne
    rw [hb.flush_nil]
    exact ⟨rfl, rfl, rfl, [], hb, fun _ => rfl⟩
  · have ht := hb.flush_cons hne
    rw [pack, if_neg hne, List.map_singleton, Outcome.forEach]
    revert ht
    rcases ColumnWriter.writeBatch b.writer (Batch.ofPositions bounds ps) with ⟨e | ⟨⟩, w⟩
    · exact id
    · exact id

/-- Runs that fit the buffer are buffered without a failure of the buffer itself. -/
theorem append (hb : b.Holds bounds ps) (hle : qs.length ≤ b.capacity) :
    (¬(b.capacity < ps.length + qs.length ∧ ps ≠ []) ∧ b.append qs = (.ok (), b.put qs) ∧
        (b.put qs).Holds bounds (ps ++ qs)) ∨
      ((b.capacity < ps.length + qs.length ∧ ps ≠ []) ∧
        Tracks bounds b.capacity qs (b.append qs)
          (ColumnWriter.writeBatch b.writer (.ofPositions bounds ps))) := by
  unfold WriteBuffer.append reserve
  rw [if_neg (Nat.not_lt.2 hle), hb.buffered]
  by_cases hc : b.capacity < ps.length + qs.length
  · have hne : ps ≠ [] := by
      rintro rfl
      rw [List.length_nil] at hc
      omega
    refine .inr ⟨⟨hc, hne⟩, ?_⟩
    obtain ⟨h1, h2, h3, ps', h4, h5⟩ := hb.flush_cons hne
    rw [if_pos hc]
    revert h1 h2 h3 h4 h5
    rcases b.flush with ⟨e | ⟨⟩, b'⟩
    · intro h1 h2 h3 h4 _
      exact ⟨h1, h2, h3, ps', h4, by intro h; cases h⟩
    · intro h1 h2 h3 h4 h5
      obtain rfl := h5 rfl
      exact ⟨h1, h2, h3, qs, h4.put (by rw [h3, List.length_nil]; omega), fun _ => rfl⟩
  · rw [if_neg hc]
    exact .inl ⟨fun h => hc h.1, rfl, hb.put (by omega)⟩

/-- **A buffer writes the batches that its runs are packed into**, up to the first that
fails. -/
theorem forEach_append {runs : List (List (Position P))} (hb : b.Holds bounds ps)
    (hr : ∀ run ∈ runs, run.length ≤ b.capacity) :
    Tracks bounds b.capacity [] (thenFlush (Outcome.forEach WriteBuffer.append b runs))
      (Outcome.forEach ColumnWriter.writeBatch b.writer
        ((pack b.capacity ps runs).map (Batch.ofPositions bounds))) := by
  induction runs generalizing b ps with
  | nil => exact hb.flush
  | cons run runs ih =>
    rw [List.forall_mem_cons] at hr
    rcases hb.append hr.1 with ⟨hc, ha, hp⟩ | ⟨hc, ha⟩
    · rw [Outcome.forEach, ha, pack, if_neg hc]
      exact ih hp hr.2
    · -- what is buffered is written first, and only if that succeeds the run takes its place
      obtain ⟨h1, h2, h3, ps', h4, h5⟩ := ha
      rw [Outcome.forEach, pack, if_pos hc, List.map_cons, Outcome.forEach]
      revert h1 h2 h3 h4 h5
      rcases b.append run with ⟨e | ⟨⟩, b'⟩ <;>
        rcases ColumnWriter.writeBatch b.writer (Batch.ofPositions bounds ps) with ⟨e' | ⟨⟩, w⟩
      · intro h1 h2 h3 h4 _
        exact ⟨h1, h2, h3, ps', h4, by intro h; cases h⟩
      · intro h1; cases h1
      · intro h1; cases h1
      · intro _ h2 h3 h4 h5
        obtain rfl := h5 rfl
        have h2 : b'.writer = w := h2
        have h3 : b'.capacity = b.capacity := h3
        have := ih h4 (by rw [h3]; exact hr.2)
        rwa [h2, h3] at this

end Holds

end WriteBuffer

namespace Outcome

variable {σ : Type}

theorem forEach_map (step : σ → β → Outcome σ Unit) (f : α → β) (s : σ) (as : List α) :
    forEach step s (as.map f) = forEach (fun s a => step s (f a)) s as := by
  induction as generalizing s with
  | nil => rfl
  | cons a as ih =>
    simp only [List.map_cons, forEach]
    rcases step s (f a) with ⟨e | ⟨⟩, s'⟩
    · rfl
    · exact ih s'

end Outcome

namespace Shredder

variable {t : LeafType} {bounds : LevelBounds} {b : WriteBuffer ω t.Physical} {column : String}
  {rows : List (Nested t.Value)} {ps : List (Position t.Physical)}

/-- The rows of a column without nesting are its positions. -/
theorem shredRows_leaf {null : Option Level} {level : Level}
    (h : Node.shredRows t column (.leaf null level) rows = .ok ps) :
    ps = rows.map (leafPosition null level) := by
  induction rows generalizing ps with
  | nil => exact (Except.ok.inj h).symm
  | cons row rows ih =>
    obtain ⟨qs, rs, hq, hr, rfl⟩ := Node.shredItems_cons.1 h
    rw [List.map_cons, ← ih hr]
    cases row with
    | scalar v =>
      cases null <;> (obtain rfl := Except.ok.inj hq; rfl)
    | null =>
      cases null with
      | none => cases hq
      | some n => obtain rfl := Except.ok.inj hq; rfl
    | list items => cases null <;> cases hq
    | struct member => cases null <;> cases hq

variable [ColumnWriter ω t.Physical]

/-- Rows are buffered position by position. -/
theorem forEach_writeRow {root : Node} (h : Node.shredRows t column root rows = .ok ps) :
    Outcome.forEach (writeRow column root) b rows =
      Outcome.forEach WriteBuffer.append b (ps.map ([·])) := by
  rw [Outcome.forEach_map]
  show _ = Outcome.forEach WriteBuffer.push b ps
  induction rows generalizing b ps with
  | nil =>
    obtain rfl := Except.ok.inj h
    rfl
  | cons row rows ih =>
    obtain ⟨qs, rs, hq, hr, rfl⟩ := Node.shredItems_cons.1 h
    rw [Outcome.forEach, writeRow, hq, Outcome.forEach_append]
    simp only
    rcases Outcome.forEach WriteBuffer.push b qs with ⟨e | ⟨⟩, b'⟩
    · rfl
    · exact ih hr

/-- **Rows are written in batches of the capacity of the buffer**, position by position or
in runs. -/
theorem tracks_writeRows {root : Node} (hb : b.Holds bounds [])
    (h : Node.shredRows t column root rows = .ok ps) :
    WriteBuffer.Tracks bounds b.capacity [] (WriteBuffer.thenFlush (writeRows column root b rows))
      (Outcome.forEach ColumnWriter.writeBatch b.writer
        ((chunks b.capacity ps).map (Batch.ofPositions bounds))) := by
  have hn := b.capacity_pos
  -- a column without nesting hands on runs of its rows, every other one single positions
  by_cases hl : root.isLeaf = true
  · cases root with
    | leaf null level =>
      have hruns : ∀ run ∈ chunks b.capacity ps, run.length ≤ b.capacity :=
        fun _ => length_le_of_mem_chunks hn
      have ht := hb.forEach_append hruns
      rw [pack_chunks hn (.inl rfl) (Nat.zero_le _), List.nil_append] at ht
      rw [shredRows_leaf h, chunks_map hn, Outcome.forEach_map] at ht
      rw [shredRows_leaf h, chunks_map hn]
      exact ht
    | _ => cases hl
  · have hruns : ∀ run ∈ ps.map ([·]), run.length ≤ b.capacity := by
      intro run hrun
      obtain ⟨p, -, rfl⟩ := List.mem_map.1 hrun
      exact hn
    have ht := hb.forEach_append hruns
    rw [pack_singletons hn (Nat.zero_le _), List.nil_append, ← forEach_writeRow h] at ht
    cases root with
    | leaf null level => exact absurd rfl hl
    | _ => exact ht

variable {s : Shredder t ω}

omit [ColumnWriter ω t.Physical] in
/-- **The rows that pass the check are those that have positions.** -/
theorem validate_eq_ok_iff : s.validate rows = .ok () ↔
    ∃ ps, Node.shredRows t s.column s.shape.root rows = .ok ps := by
  unfold validate
  rw [forM_eq_ok_iff]
  exact Node.shredItems_ok_iff fun _ _ => Node.validate_eq_ok_iff

omit [ColumnWriter ω t.Physical] in
/-- The check depends on the shape only. -/
theorem validate_of_shape {s' : Shredder t ω} (h : s'.shape = s.shape)
    (rows : List (Nested t.Value)) : s'.validate rows = s.validate rows := by
  unfold validate column
  rw [h]

/-- A shredder that is usable and has nothing buffered. -/
structure Ready (s : Shredder t ω) : Prop where
  usable : s.failed = false
  empty : s.buffer.Holds s.shape.column.bounds []

/-- The batches that some positions are written in. -/
def pieces (s : Shredder t ω) (ps : List (Position t.Physical)) : List (Batch t.Physical) :=
  (chunks s.buffer.capacity ps).map (Batch.ofPositions s.shape.column.bounds)

omit [ColumnWriter ω t.Physical] in
theorem ready_of_ofShape {shape : ColumnShape} {writer : ω} {options : Options}
    (h : ofShape shape writer options = .ok s) :
    s.Ready ∧ s.shape = shape ∧ s.writer = writer ∧ s.rowsWritten = 0 ∧
      s.buffer.capacity = options.bufferLength := by
  unfold ofShape at h
  obtain ⟨-, -, h⟩ := bind_eq_ok_iff.1 h
  split at h
  · obtain ⟨b, hb, h⟩ := bind_eq_ok_iff.1 h
    obtain rfl := Except.ok.inj h
    obtain ⟨h1, h2, h3⟩ := WriteBuffer.holds_of_make hb
    exact ⟨⟨rfl, h1⟩, rfl, h2, rfl, h3⟩
  · cases h

/-- Rows that do not pass the check are refused without an effect. -/
theorem Ready.write_error (hs : s.Ready) {e : Error} (h : s.validate rows = .error e) :
    s.write rows = (.error e, s) := by
  unfold Shredder.write checkUsable
  rw [hs.usable, h]
  rfl

/-- After a failure no rows are taken. -/
theorem write_failed (hs : s.failed = true) :
    s.write rows = (.error (.writerFailed s.column), s) := by
  unfold Shredder.write checkUsable
  rw [if_pos hs]
  rfl

/-- Nothing is buffered between two batches, so closing changes nothing. -/
theorem Ready.close (hs : s.Ready) : s.close = (.ok (), s) := by
  have hu : s.checkUsable = .ok () := by
    unfold checkUsable
    rw [hs.usable]
    rfl
  unfold Shredder.close
  rw [hu, hs.empty.flush_nil]
  rfl

/-- What a shredder looks like after writing, whether this succeeded or not. -/
structure After (s s' : Shredder t ω) (w : ω) : Prop where
  shape : s'.shape = s.shape
  capacity : s'.buffer.capacity = s.buffer.capacity
  writer : s'.writer = w
  empty : s'.buffer.Holds s.shape.column.bounds []

omit [ColumnWriter ω t.Physical] in
/-- It is ready again, unless its writer has failed. -/
theorem After.ready {s' : Shredder t ω} {w : ω} (h : s.After s' w) (hf : s'.failed = false) :
    s'.Ready :=
  ⟨hf, by rw [h.shape]; exact h.empty⟩

/-- Rows are buffered and then written through. -/
theorem emit_eq_thenFlush (s : Shredder t ω) (rows : List (Nested t.Value)) :
    s.emit rows = WriteBuffer.thenFlush (writeRows s.column s.shape.root s.buffer rows) := by
  unfold emit WriteBuffer.thenFlush
  rcases writeRows s.column s.shape.root s.buffer rows with ⟨e | ⟨⟩, b⟩ <;> rfl

/-- **Rows are written in pieces of the length of the buffer.** A piece that fails leaves
the shredder unusable. -/
theorem Ready.write (hs : s.Ready)
    (h : Node.shredRows t s.column s.shape.root rows = .ok ps) {w : ω} {x : Except Error Unit}
    (hw : Outcome.forEach ColumnWriter.writeBatch s.writer (s.pieces ps) = (x, w)) :
    ∃ s', s.After s' w ∧ s.write rows = (x.map fun _ => rows.length, s') ∧
      ((x = .ok () ∧ s'.failed = false ∧ s'.rowsWritten = s.rowsWritten + rows.length) ∨
        ∃ e, x = .error e ∧ s'.failed = true ∧ s'.rowsWritten = s.rowsWritten) := by
  have ht := tracks_writeRows hs.empty h
  have hw : Outcome.forEach ColumnWriter.writeBatch s.buffer.writer
    ((chunks s.buffer.capacity ps).map (Batch.ofPositions s.shape.column.bounds)) = (x, w) := hw
  rw [hw] at ht
  have hcheck : (do s.checkUsable; s.validate rows : Except Error Unit) = .ok () := by
    unfold checkUsable
    rw [hs.usable]
    exact validate_eq_ok_iff.2 ⟨ps, h⟩
  unfold Shredder.write
  rw [hcheck]
  obtain ⟨h1, h2, h3, ps', h4, h5⟩ := ht
  rw [← emit_eq_thenFlush] at h1 h2 h3 h4 h5
  revert h1 h2 h3 h4 h5
  rcases s.emit rows with ⟨e | ⟨⟩, b⟩
  · -- the buffer is emptied, so no position of these rows is written later
    rintro rfl h2 h3 h4 -
    exact ⟨{ s with buffer := b.discard, failed := true }, ⟨rfl, h3, h2, h4.discard⟩, rfl,
      .inr ⟨e, rfl, rfl, rfl⟩⟩
  · rintro rfl h2 h3 h4 h5
    obtain rfl := h5 rfl
    exact ⟨{ s with buffer := b, rowsWritten := s.rowsWritten + rows.length },
      ⟨rfl, h3, h2, h4⟩, rfl, .inl ⟨rfl, hs.usable, rfl⟩⟩

end Shredder

end Striping
