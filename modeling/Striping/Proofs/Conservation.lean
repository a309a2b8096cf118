import Mathlib
import Striping.Proofs.Reception

/-!
# Buffers lose nothing

**Scope.** One write buffer over a physical writer of any kind. The batches that the writer took are
recorded next to it, so its failures may come in any pattern, and a write that fails has no effect
there. Any steps are taken in any order, whether or not the ones before have failed.

* `WriteBuffer.Step`, `WriteBuffer.run`: what may be done to a buffer. Slots may be reserved,
  written and committed in any numbers; slots that are committed unwritten keep what they hold.
* `WriteBuffer.ledger`: the levels and values that successful steps have committed, without those
  that were buffered when the buffer was discarded.
* `WriteBuffer.step_error`: a step that fails has no effect but on the writer.
* `WriteBuffer.Conserves.step`: **what one step keeps**. `WriteBuffer.run_conserves`: **the batches
  that were taken and what is still buffered are just the ledger**, and all slots that are handed
  out lie within the buffer.
-/

namespace Striping

variable {ω P α : Type}

namespace Contents

/-- Nothing. -/
def empty : Contents P := ⟨[], [], []⟩

/-- One behind the other. -/
def append (x y : Contents P) : Contents P where
  definitions := x.definitions ++ y.definitions
  repetitions := x.repetitions ++ y.repetitions
  values := x.values ++ y.values

instance : Append (Contents P) := ⟨append⟩

@[ext]
theorem ext {x y : Contents P} (hd : x.definitions = y.definitions)
    (hr : x.repetitions = y.repetitions) (hv : x.values = y.values) : x = y := by
  obtain ⟨definitions, repetitions, values⟩ := x
  subst hd hr hv
  rfl

/-- What is left of `x` if as much as `y` is taken away at its end. -/
def without (x y : Contents P) : Contents P where
  definitions := x.definitions.take (x.definitions.length - y.definitions.length)
  repetitions := x.repetitions.take (x.repetitions.length - y.repetitions.length)
  values := x.values.take (x.values.length - y.values.length)

theorem append_empty (x : Contents P) : x ++ empty = x :=
  ext (List.append_nil _) (List.append_nil _) (List.append_nil _)

theorem append_assoc (x y z : Contents P) : x ++ y ++ z = x ++ (y ++ z) :=
  ext (List.append_assoc _ _ _) (List.append_assoc _ _ _) (List.append_assoc _ _ _)

theorem append_without (x y : Contents P) : (x ++ y).without y = x := by
  have htake : ∀ {β : Type} (as bs : List β),
      (as ++ bs).take ((as ++ bs).length - bs.length) = as := by
    intro β as bs
    rw [List.length_append, Nat.add_sub_cancel]
    exact List.take_left' rfl
  exact ext (htake _ _) (htake _ _) (htake _ _)

theorem ofBatches_append (bs cs : List (Batch P)) :
    ofBatches (bs ++ cs) = ofBatches bs ++ ofBatches cs :=
  ext List.flatMap_append List.flatMap_append List.flatMap_append

end Contents

namespace Lane

variable [Inhabited α] {l : Lane α} {entries : List α} {filled capacity n : Nat}

/-- What the first slots hold after some entries were written into them: these, and behind them what
was there before. -/
def written (l : Lane α) (entries : List α) (n : Nat) : List α :=
  entries.take n ++ (l.slots n).drop entries.length

theorem length_slots (l : Lane α) (n : Nat) : (l.slots n).length = n := by
  unfold slots List.rightpad
  rw [List.length_append, List.length_take, List.length_replicate]
  omega

/-- Slots that are all written hold what was written. -/
theorem written_of_length_eq (l : Lane α) (h : entries.length = n) :
    l.written entries n = entries := by
  have hslots := l.length_slots n
  unfold written
  rw [List.take_of_length_le (Nat.le_of_eq h), List.drop_of_length_le (by omega), List.append_nil]

theorem slots_succ (filled : Array α) (x : α) (stale : List α) (n : Nat) :
    (⟨filled, x :: stale⟩ : Lane α).slots (n + 1) = x :: (⟨filled, stale⟩ : Lane α).slots n := by
  show ((x :: stale).take (n + 1)).rightpad (n + 1) default = x :: (stale.take n).rightpad n default
  unfold List.rightpad
  rw [List.take_succ_cons, List.length_cons, Nat.add_sub_add_right, List.cons_append]

theorem slots_nil (filled : Array α) (n : Nat) :
    (⟨filled, []⟩ : Lane α).slots n = List.replicate n default := by
  show (([] : List α).take n).rightpad n default = _
  unfold List.rightpad
  rw [List.take_nil, List.length_nil, Nat.sub_zero, List.nil_append]

theorem slots_overlay (l : Lane α) (entries : List α) (n : Nat) :
    (l.overlay entries).slots n = l.written entries n := by
  obtain ⟨filled, stale⟩ := l
  show (⟨filled, entries ++ stale.drop entries.length⟩ : Lane α).slots n = _
  unfold written
  induction entries generalizing stale n with
  | nil =>
    rw [List.take_nil]
    rfl
  | cons x entries ih =>
    cases n with
    | zero =>
      show ([] : List α) = ([] : List α).drop (entries.length + 1)
      rw [List.drop_nil]
    | succ n =>
      rw [List.cons_append, slots_succ, List.take_succ_cons, List.cons_append, List.length_cons]
      -- the first slot is written over, whether or not it was touched before
      cases stale with
      | nil =>
        rw [slots_nil, List.replicate_succ, List.drop_succ_cons, ← slots_nil filled n, ← ih,
          List.drop_nil, List.drop_nil]
      | cons y stale => rw [slots_succ, List.drop_succ_cons, List.drop_succ_cons, ← ih]

/-- A lane with so many committed entries that never was touched beyond the capacity. -/
structure Within (l : Lane α) (filled capacity : Nat) : Prop where
  size : l.filled.size = filled
  slots_le : filled + l.stale.length ≤ capacity

/-- Slots that lie within the capacity can be written and committed. -/
theorem Within.commit (h : l.Within filled capacity) {room : Nat} (he : entries.length ≤ room)
    (hn : n ≤ room) (hroom : filled + room ≤ capacity) :
    ((l.overlay entries).commit n).Within (filled + n) capacity := by
  obtain ⟨hsize, hslots⟩ := h
  have hlength : (entries ++ l.stale.drop entries.length).length =
      max entries.length l.stale.length := by
    rw [List.length_append, List.length_drop]
    omega
  constructor
  · show (l.filled ++ ((l.overlay entries).slots n).toArray).size = _
    rw [Array.size_append]
    exact congrArg₂ (· + ·) hsize (List.size_toArray.trans (length_slots _ n))
  · show filled + n + ((entries ++ l.stale.drop entries.length).drop n).length ≤ capacity
    rw [List.length_drop, hlength]
    omega

omit [Inhabited α] in
theorem Within.release (h : l.Within filled capacity) : l.release.Within 0 capacity := by
  refine ⟨rfl, ?_⟩
  show 0 + (l.filled.toList ++ l.stale).length ≤ capacity
  rw [List.length_append, Array.length_toList, h.size, Nat.zero_add]
  exact h.slots_le

theorem Within.clear (h : l.Within filled capacity) : l.clear.Within 0 capacity := by
  refine ⟨rfl, ?_⟩
  show 0 + (List.replicate l.filled.size default ++ l.stale).length ≤ capacity
  rw [List.length_append, List.length_replicate, h.size, Nat.zero_add]
  exact h.slots_le

end Lane

namespace WriteBuffer

/-- What may be done to a buffer. -/
inductive Step (P : Type) where
  /-- A position with a value. -/
  | value (levels : Levels) (x : P)
  /-- A position without a value. -/
  | null (levels : Levels)
  /-- Some slots are asked for and written into, and then some of them are committed. -/
  | slots (n : Nat) (definitions repetitions : List Level) (values : List P)
      (positions count : Nat) (hp : positions ≤ n) (hc : count ≤ positions)
  /-- What is buffered is written through. -/
  | flush
  /-- What is buffered is dropped. -/
  | discard

section Ledger

variable [Inhabited P] [ColumnWriter ω P]

/-- Takes a step. -/
def step (b : WriteBuffer ω P) : Step P → Outcome (WriteBuffer ω P) Unit
  | .value levels x => b.push ⟨levels, some x⟩
  | .null levels => b.push ⟨levels, none⟩
  | .slots n definitions repetitions values positions count _ _ =>
    match b.reserve n with
    | (.ok (), b) =>
      (.ok (), (b.fill (definitions.take n) (repetitions.take n) (values.take n)).advance
        positions count)
    | (.error e, b) => (.error e, b)
  | .flush => b.flush
  | .discard => (.ok (), b.discard)

/-- Takes some steps one after the other, whether or not the ones before have failed. -/
def run : WriteBuffer ω P → List (Step P) → WriteBuffer ω P
  | b, [] => b
  | b, s :: steps => (b.step s).2.run steps

/-- What is buffered. -/
def held (b : WriteBuffer ω P) : Contents P where
  definitions := b.definitions.elim [] (·.filled.toList)
  repetitions := b.repetitions.elim [] (·.filled.toList)
  values := b.values.filled.toList

/-- Enters a step that succeeds into the books: what it commits is put behind what was kept so far,
and discarding takes away what is buffered. -/
def book (b : WriteBuffer ω P) (bounds : LevelBounds) (kept : Contents P) : Step P → Contents P
  | .value levels x => kept ++ .ofPositions bounds [⟨levels, some x⟩]
  | .null levels => kept ++ .ofPositions bounds [⟨levels, none⟩]
  | .slots n definitions repetitions values positions count _ _ =>
    let b := (b.reserve n).2
    kept ++
      { definitions := b.definitions.elim [] (·.written (definitions.take n) positions)
        repetitions := b.repetitions.elim [] (·.written (repetitions.take n) positions)
        values := b.values.written (values.take n) count }
  | .flush => kept
  | .discard => kept.without b.held

/-- What is kept after some steps of all that was committed. A step that fails commits nothing. -/
def ledger (bounds : LevelBounds) : WriteBuffer ω P → Contents P → List (Step P) → Contents P
  | _, kept, [] => kept
  | b, kept, s :: steps =>
    match b.step s with
    | (.ok (), b') => b'.ledger bounds (b.book bounds kept s) steps
    | (.error _, b') => b'.ledger bounds kept steps

end Ledger

section Range

variable [Inhabited P] {b : WriteBuffer ω P} {bounds : LevelBounds}

/-- A buffer with the lanes that the column needs. -/
structure Stores (b : WriteBuffer ω P) (bounds : LevelBounds) : Prop where
  definitions : b.definitions.isSome = bounds.storesDefinitions
  repetitions : b.repetitions.isSome = bounds.storesRepetitions

/-- A buffer whose counts contradict neither each other nor its capacity, and that was touched
nowhere else. -/
structure InRange (b : WriteBuffer ω P) : Prop where
  definitions : ∀ l ∈ b.definitions, l.Within b.buffered b.capacity
  repetitions : ∀ l ∈ b.repetitions, l.Within b.buffered b.capacity
  values : b.values.Within b.values.filled.size b.capacity
  values_le : b.values.filled.size ≤ b.buffered
  buffered_le : b.buffered ≤ b.capacity

theorem Stores.advance (h : b.Stores bounds) (ds rs : List Level) (xs : List P) (m n : Nat) :
    ((b.fill ds rs xs).advance m n).Stores bounds := by
  constructor
  · show ((b.definitions.map _).map _).isSome = _
    rw [Option.isSome_map, Option.isSome_map, h.definitions]
  · show ((b.repetitions.map _).map _).isSome = _
    rw [Option.isSome_map, Option.isSome_map, h.repetitions]

theorem Stores.discard (h : b.Stores bounds) : b.discard.Stores bounds := by
  constructor
  · show (b.definitions.map _).isSome = _
    rw [Option.isSome_map, h.definitions]
  · show (b.repetitions.map _).isSome = _
    rw [Option.isSome_map, h.repetitions]

theorem InRange.discard (h : b.InRange) : b.discard.InRange where
  definitions := by
    intro l hl
    obtain ⟨k, hk, rfl⟩ := Option.map_eq_some_iff.1 hl
    exact (h.definitions k hk).release
  repetitions := by
    intro l hl
    obtain ⟨k, hk, rfl⟩ := Option.map_eq_some_iff.1 hl
    exact (h.repetitions k hk).release
  values := h.values.clear
  values_le := Nat.le_refl 0
  buffered_le := Nat.zero_le _

/-- Slots within the capacity can be written and committed. -/
theorem InRange.advance (h : b.InRange) {ds rs : List Level} {xs : List P} {n m k : Nat}
    (hd : ds.length ≤ n) (hr : rs.length ≤ n) (hx : xs.length ≤ n) (hm : m ≤ n) (hk : k ≤ m)
    (hroom : b.buffered + n ≤ b.capacity) : ((b.fill ds rs xs).advance m k).InRange := by
  have hle := h.values_le
  have hvalues := h.values.commit hx (show k ≤ n by omega) (by omega)
  constructor
  case definitions =>
    intro l hl
    obtain ⟨l₁, hl₁, rfl⟩ := Option.map_eq_some_iff.1 hl
    obtain ⟨l₂, hl₂, rfl⟩ := Option.map_eq_some_iff.1 hl₁
    exact (h.definitions l₂ hl₂).commit hd hm hroom
  case repetitions =>
    intro l hl
    obtain ⟨l₁, hl₁, rfl⟩ := Option.map_eq_some_iff.1 hl
    obtain ⟨l₂, hl₂, rfl⟩ := Option.map_eq_some_iff.1 hl₁
    exact (h.repetitions l₂ hl₂).commit hr hm hroom
  case values =>
    show ((b.values.overlay xs).commit k).Within ((b.values.overlay xs).commit k).filled.size _
    rw [hvalues.size]
    exact hvalues
  case values_le =>
    show ((b.values.overlay xs).commit k).filled.size ≤ b.buffered + m
    rw [hvalues.size]
    omega
  case buffered_le =>
    show b.buffered + m ≤ b.capacity
    omega

omit [Inhabited P] in
/-- A new buffer is as its column needs it, and empty. -/
theorem inRange_of_make {writer : ω} {capacity : Nat} (h : make writer bounds capacity = .ok b) :
    b.writer = writer ∧ b.capacity = capacity ∧ b.flushes = 0 ∧ b.held = .empty ∧
      b.Stores bounds ∧ b.InRange := by
  unfold make at h
  split at h
  · obtain rfl := Except.ok.inj h
    have hlane : ∀ (stores : Bool) (n : Nat) (l : Lane Level),
        l ∈ (if stores then some {} else none : Option (Lane Level)) → l.Within 0 n := by
      intro stores n l hl
      cases stores with
      | false => cases hl
      | true =>
        obtain rfl := Option.some.inj hl
        exact ⟨rfl, Nat.zero_le n⟩
    have hnone : ∀ stores : Bool, (if stores then some {} else none : Option (Lane Level)).elim []
        (·.filled.toList) = [] := by
      intro stores
      cases stores <;> rfl
    refine ⟨rfl, rfl, rfl, ?_, ⟨?_, ?_⟩, ⟨hlane _ _, hlane _ _, ⟨rfl, Nat.zero_le _⟩, Nat.le_refl 0,
      Nat.zero_le _⟩⟩
    · exact Contents.ext (hnone _) (hnone _) rfl
    · cases bounds.storesDefinitions <;> rfl
    · cases bounds.storesRepetitions <;> rfl
  · cases h

end Range

section Held

variable [Inhabited P] {b : WriteBuffer ω P} {bounds : LevelBounds}

omit [Inhabited P] in
theorem ofBatches_batch (b : WriteBuffer ω P) : Contents.ofBatches [b.batch] = b.held := by
  have hlane : ∀ lane : Option (Lane Level),
      ((lane.map Lane.filled).getD #[]).toList ++ [] = lane.elim [] (·.filled.toList) := by
    intro lane
    rw [List.append_nil]
    cases lane <;> rfl
  exact Contents.ext (hlane _) (hlane _) (List.append_nil _)

theorem held_discard (b : WriteBuffer ω P) : b.discard.held = .empty := by
  have hlane : ∀ lane : Option (Lane Level),
      (lane.map Lane.release).elim [] (·.filled.toList) = ([] : List Level) := by
    intro lane
    cases lane <;> rfl
  exact Contents.ext (hlane _) (hlane _) rfl

/-- What is committed is put behind what is buffered. -/
theorem held_advance (b : WriteBuffer ω P) (ds rs : List Level) (xs : List P) (m n : Nat) :
    ((b.fill ds rs xs).advance m n).held = b.held ++
      { definitions := b.definitions.elim [] (·.written ds m)
        repetitions := b.repetitions.elim [] (·.written rs m)
        values := b.values.written xs n } := by
  have hcommit : ∀ {β : Type} [Inhabited β] (l : Lane β) (es : List β) (k : Nat),
      ((l.overlay es).commit k).filled.toList = l.filled.toList ++ l.written es k := by
    intro β _ l es k
    rw [← l.slots_overlay]
    exact Array.toList_append
  have hlane : ∀ (lane : Option (Lane Level)) (es : List Level) (k : Nat),
      ((lane.map (·.overlay es)).map (·.commit k)).elim [] (·.filled.toList) =
        lane.elim [] (·.filled.toList) ++ lane.elim [] (·.written es k) := by
    intro lane es k
    cases lane with
    | none => rfl
    | some l => exact hcommit l es k
  exact Contents.ext (hlane _ _ _) (hlane _ _ _) (hcommit _ _ _)

/-- Positions that are put into a buffer are buffered as the column stores them. -/
theorem held_put (hb : b.Stores bounds) (ps : List (Position P)) :
    (b.put ps).held = b.held ++ .ofPositions bounds ps := by
  have hlane : ∀ (lane : Option (Lane Level)) (stores : Bool) (f : Position P → Level),
      lane.isSome = stores → lane.elim [] (·.written (ps.map f) ps.length) =
        if stores then ps.map f else [] := by
    rintro lane stores f rfl
    cases lane with
    | none => rfl
    | some l => exact l.written_of_length_eq (List.length_map _)
  have hvalues : b.values.written (ps.filterMap (·.value)) (ps.filterMap (·.value)).length =
      ps.filterMap (·.value) := b.values.written_of_length_eq rfl
  have hput := b.held_advance (ps.map (·.levels.definition)) (ps.map (·.levels.repetition))
    (ps.filterMap (·.value)) ps.length (ps.filterMap (·.value)).length
  rw [hlane _ _ _ hb.definitions, hlane _ _ _ hb.repetitions, hvalues] at hput
  exact hput

end Held

section Steps

variable [Inhabited P] [ColumnWriter ω P] {b b' : WriteBuffer (Recorded ω P) P}
  {bounds : LevelBounds} {kept : Contents P} {capacity : Nat}

/-- What the writer has received. -/
def received (b : WriteBuffer (Recorded ω P) P) : Contents P := .ofBatches b.writer.batches.toList

/-- The buffer after its writer took what was buffered. -/
def flushed (b : WriteBuffer (Recorded ω P) P) (w : Recorded ω P) :
    WriteBuffer (Recorded ω P) P :=
  { b.discard with writer := w, flushes := b.flushes + 1 }

/-- **All that writing through can do.** -/
theorem flush_cases (b : WriteBuffer (Recorded ω P) P) :
    (b.buffered = 0 ∧ b.flush = (.ok (), b)) ∨
      (0 < b.buffered ∧ ∃ w, w.batches = b.writer.batches.push b.batch ∧
        b.flush = (.ok (), b.flushed w)) ∨
      ∃ e w, w.batches = b.writer.batches ∧ b.flush = (.error e, { b with writer := w }) := by
  by_cases h0 : b.buffered = 0
  · refine .inl ⟨h0, ?_⟩
    unfold flush
    exact if_pos h0
  · -- only a batch that is taken is written down
    rcases hw : ColumnWriter.writeBatch b.writer.inner b.batch with ⟨e | ⟨⟩, inner⟩
    · refine .inr (.inr ⟨e, { b.writer with inner := inner }, rfl, ?_⟩)
      unfold flush
      rw [if_neg h0, Recorded.writeBatch_error hw]
    · refine .inr (.inl ⟨Nat.pos_of_ne_zero h0, ⟨inner, b.writer.batches.push b.batch⟩, rfl, ?_⟩)
      unfold flush
      rw [if_neg h0, Recorded.writeBatch_ok hw]
      rfl

/-- Slots that were made room for lie within the buffer, which is as before or was written
through. -/
theorem reserve_ok {n : Nat} (h : b.reserve n = (.ok (), b')) :
    n ≤ b.capacity ∧ ((b' = b ∧ b.buffered + n ≤ b.capacity) ∨
      ∃ w, w.batches = b.writer.batches.push b.batch ∧ b' = b.flushed w) := by
  unfold reserve at h
  split at h
  · cases (Prod.mk.inj h).1
  · rename_i hn
    refine ⟨Nat.not_lt.1 hn, ?_⟩
    split at h
    · rename_i hfull
      rcases b.flush_cases with ⟨h0, hf⟩ | ⟨-, w, hw, hf⟩ | ⟨e, w, -, hf⟩
      · omega
      · obtain ⟨-, rfl⟩ := Prod.mk.inj (hf.symm.trans h)
        exact .inr ⟨w, hw, rfl⟩
      · cases (Prod.mk.inj (hf.symm.trans h)).1
    · rename_i hroom
      obtain ⟨-, rfl⟩ := Prod.mk.inj h
      exact .inl ⟨rfl, Nat.not_lt.1 hroom⟩

theorem flush_error {e : Error} (h : b.flush = (.error e, b')) :
    ∃ w, w.batches = b.writer.batches ∧ b' = { b with writer := w } := by
  rcases b.flush_cases with ⟨-, hf⟩ | ⟨-, w, -, hf⟩ | ⟨e', w, hw, hf⟩
  · cases (Prod.mk.inj (hf.symm.trans h)).1
  · cases (Prod.mk.inj (hf.symm.trans h)).1
  · obtain ⟨-, rfl⟩ := Prod.mk.inj (hf.symm.trans h)
    exact ⟨w, hw, rfl⟩

theorem reserve_error {n : Nat} {e : Error} (h : b.reserve n = (.error e, b')) :
    ∃ w, w.batches = b.writer.batches ∧ b' = { b with writer := w } := by
  unfold reserve at h
  split at h
  · obtain ⟨-, rfl⟩ := Prod.mk.inj h
    exact ⟨b.writer, rfl, rfl⟩
  · split at h
    · exact flush_error h
    · cases (Prod.mk.inj h).1

/-- Positions are put into the buffer if there is room for them. -/
theorem append_cases (b : WriteBuffer (Recorded ω P) P) (ps : List (Position P)) :
    (∃ b₁, b.reserve ps.length = (.ok (), b₁) ∧ b.append ps = (.ok (), b₁.put ps)) ∨
      ∃ e b₁, b.reserve ps.length = (.error e, b₁) ∧ b.append ps = (.error e, b₁) := by
  unfold append
  rcases b.reserve ps.length with ⟨e | ⟨⟩, b₁⟩
  · exact .inr ⟨e, b₁, rfl, rfl⟩
  · exact .inl ⟨b₁, rfl, rfl⟩

/-- **A step that fails has no effect** but on the writer, which has received nothing. -/
theorem step_error {s : Step P} {e : Error} (h : b.step s = (.error e, b')) :
    ∃ w, w.batches = b.writer.batches ∧ b' = { b with writer := w } := by
  have hpush : ∀ p : Position P, b.push p = (.error e, b') →
      ∃ w, w.batches = b.writer.batches ∧ b' = { b with writer := w } := by
    intro p h
    rcases b.append_cases [p] with ⟨b₁, -, ha⟩ | ⟨e', b₁, hr, ha⟩
    · cases (Prod.mk.inj (ha.symm.trans h)).1
    · obtain ⟨-, rfl⟩ := Prod.mk.inj (ha.symm.trans h)
      exact reserve_error hr
  cases s with
  | value levels x => exact hpush _ h
  | null levels => exact hpush _ h
  | slots n ds rs xs m k hp hc =>
    rw [step] at h
    split at h
    · cases (Prod.mk.inj h).1
    · rename_i e' b₁ hr
      obtain ⟨-, rfl⟩ := Prod.mk.inj h
      exact reserve_error hr
  | flush => exact flush_error h
  | discard => cases (Prod.mk.inj h).1

/-- A buffer that has lost nothing of what is to be kept, with all its slots in place. -/
structure Conserves (b : WriteBuffer (Recorded ω P) P) (bounds : LevelBounds) (capacity : Nat)
    (kept : Contents P) : Prop where
  whole : b.received ++ b.held = kept
  flushes : b.flushes = b.writer.batches.size
  capacity : b.capacity = capacity
  stores : b.Stores bounds
  inRange : b.InRange

namespace Conserves

omit [Inhabited P] [ColumnWriter ω P] in
theorem withWriter (h : b.Conserves bounds capacity kept) {w : Recorded ω P}
    (hw : w.batches = b.writer.batches) :
    Conserves { b with writer := w } bounds capacity kept := by
  obtain ⟨hwhole, hflushes, hcapacity, ⟨h1, h2⟩, ⟨h3, h4, h5, h6, h7⟩⟩ := h
  refine ⟨?_, ?_, hcapacity, ⟨h1, h2⟩, ⟨h3, h4, h5, h6, h7⟩⟩
  · show Contents.ofBatches w.batches.toList ++ b.held = kept
    rw [hw]
    exact hwhole
  · show b.flushes = w.batches.size
    rw [hw, hflushes]

omit [ColumnWriter ω P] in
/-- What is written through is received. -/
theorem flushed (h : b.Conserves bounds capacity kept) {w : Recorded ω P}
    (hw : w.batches = b.writer.batches.push b.batch) :
    (b.flushed w).Conserves bounds capacity kept := by
  have hd := h.inRange.discard
  have hs := h.stores.discard
  refine ⟨?_, ?_, h.capacity, ⟨hs.definitions, hs.repetitions⟩,
    ⟨hd.definitions, hd.repetitions, hd.values, hd.values_le, hd.buffered_le⟩⟩
  · show Contents.ofBatches w.batches.toList ++ b.discard.held = kept
    rw [hw, Array.toList_push, Contents.ofBatches_append, ofBatches_batch, held_discard,
      Contents.append_empty]
    exact h.whole
  · show b.flushes + 1 = w.batches.size
    rw [hw, Array.size_push, h.flushes]

omit [ColumnWriter ω P] in
theorem discard (h : b.Conserves bounds capacity kept) :
    b.discard.Conserves bounds capacity (kept.without b.held) := by
  refine ⟨?_, h.flushes, h.capacity, h.stores.discard, h.inRange.discard⟩
  show b.received ++ b.discard.held = _
  rw [held_discard, Contents.append_empty, ← h.whole, Contents.append_without]

omit [ColumnWriter ω P] in
/-- What is committed is kept. -/
theorem advance (h : b.Conserves bounds capacity kept) {ds rs : List Level} {xs : List P}
    {n m k : Nat} (hd : ds.length ≤ n) (hr : rs.length ≤ n) (hx : xs.length ≤ n) (hm : m ≤ n)
    (hk : k ≤ m) (hroom : b.buffered + n ≤ capacity) :
    ((b.fill ds rs xs).advance m k).Conserves bounds capacity (kept ++
      { definitions := b.definitions.elim [] (·.written ds m)
        repetitions := b.repetitions.elim [] (·.written rs m)
        values := b.values.written xs k }) := by
  rw [← h.capacity] at hroom
  refine ⟨?_, h.flushes, h.capacity, h.stores.advance ds rs xs m k,
    h.inRange.advance hd hr hx hm hk hroom⟩
  show b.received ++ ((b.fill ds rs xs).advance m k).held = _
  rw [held_advance, ← Contents.append_assoc, h.whole]

omit [ColumnWriter ω P] in
theorem put (h : b.Conserves bounds capacity kept) {ps : List (Position P)}
    (hroom : b.buffered + ps.length ≤ capacity) :
    (b.put ps).Conserves bounds capacity (kept ++ .ofPositions bounds ps) := by
  have hcount := List.length_filterMap_le (·.value) ps
  have hlevels : ∀ f : Position P → Level, (ps.map f).length ≤ ps.length :=
    fun f => Nat.le_of_eq (List.length_map f)
  have hput := h.advance (hlevels (·.levels.definition)) (hlevels (·.levels.repetition)) hcount
    (Nat.le_refl _) hcount hroom
  refine ⟨?_, hput.flushes, hput.capacity, hput.stores, hput.inRange⟩
  show b.received ++ (b.put ps).held = _
  rw [held_put h.stores, ← Contents.append_assoc, h.whole]

/-- Making room loses nothing, and there is room afterwards. -/
theorem reserve (h : b.Conserves bounds capacity kept) {n : Nat}
    (hr : b.reserve n = (.ok (), b')) :
    b'.Conserves bounds capacity kept ∧ b'.buffered + n ≤ capacity := by
  have hcapacity := h.capacity
  obtain ⟨hn, ⟨rfl, hroom⟩ | ⟨w, hw, rfl⟩⟩ := reserve_ok hr
  · exact ⟨h, by omega⟩
  · refine ⟨h.flushed hw, ?_⟩
    show 0 + n ≤ capacity
    omega

/-- A step that fails loses nothing. -/
theorem step_error (h : b.Conserves bounds capacity kept) {s : Step P} {e : Error}
    (hs : b.step s = (.error e, b')) : b'.Conserves bounds capacity kept := by
  obtain ⟨w, hw, rfl⟩ := WriteBuffer.step_error hs
  exact h.withWriter hw

/-- A position is kept once it is buffered. -/
theorem push (h : b.Conserves bounds capacity kept) {p : Position P}
    (hp : b.push p = (.ok (), b')) :
    b'.Conserves bounds capacity (kept ++ .ofPositions bounds [p]) := by
  rcases b.append_cases [p] with ⟨b₁, hr, ha⟩ | ⟨e, b₁, -, ha⟩
  · obtain ⟨-, rfl⟩ := Prod.mk.inj (ha.symm.trans hp)
    obtain ⟨h₁, hroom⟩ := h.reserve hr
    exact h₁.put hroom
  · cases (Prod.mk.inj (ha.symm.trans hp)).1

/-- **What one step keeps** is what is entered into the books. -/
theorem step (h : b.Conserves bounds capacity kept) {s : Step P} (hs : b.step s = (.ok (), b')) :
    b'.Conserves bounds capacity (b.book bounds kept s) := by
  cases s with
  | value levels x => exact h.push hs
  | null levels => exact h.push hs
  | slots n ds rs xs m k hp hc =>
    rw [WriteBuffer.step] at hs
    split at hs
    · rename_i b₁ hr
      obtain ⟨-, rfl⟩ := Prod.mk.inj hs
      obtain ⟨h₁, hroom⟩ := h.reserve hr
      have hcommit := h₁.advance (List.length_take_le n ds) (List.length_take_le n rs)
        (List.length_take_le n xs) hp hc hroom
      rw [book, hr]
      exact hcommit
    · cases (Prod.mk.inj hs).1
  | flush =>
    rcases b.flush_cases with ⟨-, hf⟩ | ⟨-, w, hw, hf⟩ | ⟨e, w, -, hf⟩
    · obtain ⟨-, rfl⟩ := Prod.mk.inj (hf.symm.trans hs)
      exact h
    · obtain ⟨-, rfl⟩ := Prod.mk.inj (hf.symm.trans hs)
      exact h.flushed hw
    · cases (Prod.mk.inj (hf.symm.trans hs)).1
  | discard =>
    obtain ⟨-, rfl⟩ := Prod.mk.inj hs
    exact h.discard

/-- So does every run. -/
theorem run (h : b.Conserves bounds capacity kept) (steps : List (Step P)) :
    (b.run steps).Conserves bounds capacity (b.ledger bounds kept steps) := by
  induction steps generalizing b kept with
  | nil => exact h
  | cons s steps ih =>
    rw [WriteBuffer.run, ledger]
    rcases hs : b.step s with ⟨e | ⟨⟩, b'⟩
    · exact ih (h.step_error hs)
    · exact ih (h.step hs)

end Conserves

/-- **A buffer loses nothing and doubles nothing.** Let a buffer of any capacity stand in front of
any writer, and let any steps be taken. The batches that the writer took, and behind them what is
still buffered, are the levels and values that the steps have committed which succeeded, in order,
less those that were buffered when they were discarded. The writer took as many batches as are
counted. There are never more values than positions, nor more positions than the capacity, nor
anything behind it; slots that are handed out lie within it. And a step that fails leaves all of
this as it was. -/
theorem run_conserves (writer : ω) (bounds : LevelBounds) (hn : 0 < capacity) :
    ∃ b₀ : WriteBuffer (Recorded ω P) P, make ⟨writer, #[]⟩ bounds capacity = .ok b₀ ∧
      ∀ steps b, b₀.run steps = b →
        b.received ++ b.held = b₀.ledger bounds .empty steps ∧
        b.flushes = b.writer.batches.size ∧
        b.capacity = capacity ∧ b.values.filled.size ≤ b.buffered ∧ b.buffered ≤ capacity ∧
        b.InRange ∧
        (∀ n b', b.reserve n = (.ok (), b') →
          b'.buffered + n ≤ capacity ∧ b'.values.filled.size + n ≤ capacity) ∧
        ∀ s e b', b.step s = (.error e, b') →
          ∃ w, w.batches = b.writer.batches ∧ b' = { b with writer := w } := by
  obtain ⟨b₀, hmake⟩ : ∃ b₀ : WriteBuffer (Recorded ω P) P,
      make ⟨writer, #[]⟩ bounds capacity = .ok b₀ := ⟨_, dif_pos hn⟩
  refine ⟨b₀, hmake, ?_⟩
  rintro steps b rfl
  obtain ⟨hwriter, hcapacity, hflushes, hheld, hstores, hrange⟩ := inRange_of_make hmake
  have h₀ : b₀.Conserves bounds capacity .empty := by
    refine ⟨?_, ?_, hcapacity, hstores, hrange⟩
    · unfold received
      rw [hwriter, hheld]
      rfl
    · rw [hwriter, hflushes]
      rfl
  have h := h₀.run steps
  have hle := h.inRange.buffered_le
  rw [h.capacity] at hle
  refine ⟨h.whole, h.flushes, h.capacity, h.inRange.values_le, hle, h.inRange, ?_, ?_⟩
  · intro n b' hr
    obtain ⟨h', hroom⟩ := h.reserve hr
    have hvalues := h'.inRange.values_le
    exact ⟨hroom, by omega⟩
  · intro s e b' hs
    exact step_error hs

end Steps

/-- A stripe whose second write fails. -/
def hesitantNumbers : Faulty (Stripe Int32) :=
  ⟨.ofColumn ColumnShape.numbers.column, [2], .physical "numbers" "disk", 0⟩

/-- Two positions fill a buffer and are written through when two slots are asked for. Both are
written, one is committed, and the number behind it takes the place of the other. The next write
fails, so there is no room for a null, and what is buffered stays until the third write takes it. A
last null is discarded. -/
def hesitantSteps : List (Step Int32) :=
  [.value ⟨1, 0⟩ 7, .null ⟨0, 0⟩, .slots 2 [1, 1] [0, 1] [8, 10] 1 1 (by decide) (by decide),
    .value ⟨1, 1⟩ 9, .null ⟨0, 0⟩, .flush, .null ⟨0, 0⟩, .discard]

theorem run_conserves_numbers :
    ∃ b₀ b : WriteBuffer (Recorded (Faulty (Stripe Int32)) Int32) Int32,
      make ⟨hesitantNumbers, #[]⟩ ⟨1, 1⟩ 2 = .ok b₀ ∧ b₀.run hesitantSteps = b ∧
      b.received ++ b.held = (⟨[1, 0, 1, 1], [0, 0, 0, 1], [7, 8, 9]⟩ : Contents Int32) ∧
      b.buffered = 0 ∧ b.flushes = 2 ∧ b.writer.batches.size = 2 := by
  obtain ⟨b₀, hmake, hrun⟩ := run_conserves (P := Int32) hesitantNumbers ⟨1, 1⟩
    (show 0 < 2 by decide)
  obtain ⟨b₁, hmake', hledger, hbuffered, hflushes⟩ :
      ∃ b₁ : WriteBuffer (Recorded (Faulty (Stripe Int32)) Int32) Int32,
        make ⟨hesitantNumbers, #[]⟩ ⟨1, 1⟩ 2 = .ok b₁ ∧
        b₁.ledger ⟨1, 1⟩ .empty hesitantSteps =
          (⟨[1, 0, 1, 1], [0, 0, 0, 1], [7, 8, 9]⟩ : Contents Int32) ∧
        (b₁.run hesitantSteps).buffered = 0 ∧ (b₁.run hesitantSteps).flushes = 2 :=
    ⟨_, rfl, by cbv, by cbv, by cbv⟩
  obtain rfl := Except.ok.inj (hmake'.symm.trans hmake)
  obtain ⟨hwhole, hcount, -⟩ := hrun hesitantSteps _ rfl
  exact ⟨b₁, _, hmake, rfl, hwhole.trans hledger, hbuffered, hflushes, hcount.symm.trans hflushes⟩

end WriteBuffer

end Striping
