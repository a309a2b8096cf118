import Striping.Proofs.Positions
import Striping.Read.Cursor

/-!
# Walking over a column

A cursor hides its batches: it looks at the current position, which may ask the
reader for a batch and changes nothing that can be seen, and it takes a position.

* `Cursor.refill_ok`: everything that asking for a batch can do.
* `Cursor.peek_peek`, `Cursor.next_of_peek`: **looking twice is looking once**.
* `Cursor.Steps`: a walk over some positions. `Cursor.Streams`: a walk to the end of
  the column that meets no failure.
* `Cursor.Tidy`: what holds of every cursor on its way; `Cursor.Streams.length_le`: the
  positions left bound the walk. `Cursor.Holds`: both together.
-/

namespace Striping.Cursor

variable {ρ P : Type} [ColumnReader ρ P] {c c' c'' : Cursor ρ P} {b : LevelBounds}

/-- The cursor after a batch came in. -/
def receive (c : Cursor ρ P) (a : Answer P) (reader : ρ) : Cursor ρ P :=
  { c.load a with
    reader := reader
    levelsRead := a.levelsRead
    valuesRead := a.valuesRead
    levelIndex := 0
    valueIndex := 0
    exhausted := a.levelsRead = 0 }

/-- **What asking for a batch does**, if it succeeds. -/
theorem refill_ok {more : Bool} (h : c.refill = (.ok more, c')) :
    (c.exhausted = true ∧ more = false ∧ c' = c) ∨
      (c.exhausted = false ∧ c.valuesRead ≤ c.valueIndex ∧ ∃ a reader,
        ColumnReader.readBatch c.reader c.request = (.ok a, reader) ∧
        a.levelsRead ≤ c.batchSize ∧ a.valuesRead ≤ a.levelsRead ∧
        more = decide (a.levelsRead ≠ 0) ∧ c' = c.receive a reader) := by
  unfold refill at h
  split at h
  · rename_i he
    obtain ⟨h1, h2⟩ := Prod.mk.inj h
    exact .inl ⟨he, (Except.ok.inj h1).symm, h2.symm⟩
  · rename_i he
    split at h
    · cases h
    · rename_i hv
      split at h
      · cases h
      · rename_i a reader ha
        simp only at h
        split at h
        · cases h
        · rename_i hc
          obtain ⟨h1, h2⟩ := Prod.mk.inj h
          have hc : ¬(c.batchSize < a.levelsRead ∨ a.levelsRead < a.valuesRead) := hc
          exact .inr ⟨by simpa using he, by omega, a, reader, ha, by omega, by omega,
            (Except.ok.inj h1).symm, h2.symm⟩

theorem refill_of_readBatch {a : Answer P} {reader : ρ} (he : c.exhausted = false)
    (hv : c.valuesRead ≤ c.valueIndex)
    (ha : ColumnReader.readBatch c.reader c.request = (.ok a, reader))
    (hl : a.levelsRead ≤ c.batchSize) (hr : a.valuesRead ≤ a.levelsRead) :
    c.refill = (.ok (decide (a.levelsRead ≠ 0)), c.receive a reader) := by
  unfold refill
  have hc : ¬((c.load a).batchSize < a.levelsRead ∨ a.levelsRead < a.valuesRead) := by
    show ¬(c.batchSize < _ ∨ _)
    omega
  rw [if_neg (by simp [he]), if_neg (by omega), ha]
  exact if_neg hc

theorem ready_of_lt (h : c.levelIndex < c.levelsRead) : c.ready = (.ok true, c) := by
  unfold ready
  rw [if_neg (by omega)]

theorem ready_of_eq (h : c.levelIndex = c.levelsRead) : c.ready = c.refill := by
  unfold ready
  rw [if_pos h]

/-- The cursor is still where it was once it is known to be ready. -/
theorem ready_ready {more : Bool} (h : c.ready = (.ok more, c')) : c'.ready = (.ok more, c') := by
  by_cases hi : c.levelIndex = c.levelsRead
  · have hr := h
    rw [ready_of_eq hi] at hr
    rcases refill_ok hr with ⟨-, -, rfl⟩ | ⟨-, -, a, reader, -, -, -, rfl, rfl⟩
    · exact h
    · -- the batch that came in is not used up, unless it is empty and ends the column
      by_cases h0 : a.levelsRead = 0
      · have hx : (c.receive a reader).exhausted = true := decide_eq_true h0
        rw [ready_of_eq h0.symm, decide_eq_false (not_not_intro h0)]
        unfold refill
        rw [if_pos hx]
      · rw [ready_of_lt (Nat.pos_of_ne_zero h0), decide_eq_true h0]
  · have hr := h
    unfold ready at hr
    rw [if_neg hi] at hr
    obtain ⟨rfl, rfl⟩ := Outcome.ok_inj hr
    exact h

/-- What looking at the current position means. -/
theorem peek_some {l : Levels} (h : c.peek = (.ok (some l), c')) :
    c.ready = (.ok true, c') ∧ l = c'.levels ∧ c'.bounds.contains l = true := by
  unfold peek at h
  split at h
  · cases h
  · cases h
  · rename_i c₁ hr
    split at h
    · rename_i hb
      obtain ⟨h1, rfl⟩ := Outcome.ok_inj h
      obtain rfl := Option.some.inj h1
      exact ⟨hr, rfl, hb⟩
    · cases h

theorem peek_none (h : c.peek = (.ok none, c')) : c.ready = (.ok false, c') := by
  unfold peek at h
  split at h
  · cases h
  · rename_i c₁ hr
    obtain ⟨-, rfl⟩ := Prod.mk.inj h
    exact hr
  · split at h
    · cases h
    · cases h

theorem peek_of_ready (h : c.ready = (.ok true, c')) (hb : c'.bounds.contains c'.levels = true) :
    c.peek = (.ok (some c'.levels), c') := by
  unfold peek
  rw [h]
  exact if_pos hb

/-- **Looking twice is looking once.** -/
theorem peek_peek {x : Option Levels} (h : c.peek = (.ok x, c')) : c'.peek = (.ok x, c') := by
  cases x with
  | none =>
    unfold peek
    rw [ready_ready (peek_none h)]
  | some l =>
    obtain ⟨hr, rfl, hb⟩ := peek_some h
    exact peek_of_ready (ready_ready hr) hb

/-- Two looks in a row see the same levels. -/
theorem levels_eq_of_peek {l l' : Levels} (h : c.peek = (.ok (some l), c'))
    (h' : c'.peek = (.ok (some l'), c'')) : l = l' := by
  obtain ⟨h1, -⟩ := Outcome.ok_inj ((peek_peek h).symm.trans h')
  exact Option.some.inj h1

theorem peek_of_ready_true (h : c.ready = (.ok true, c')) : c.peek = c'.peek := by
  unfold peek
  rw [h, ready_ready h]

/-- What is left of a batch is current without asking the reader. -/
theorem eq_of_peek {x : Option Levels} (hi : c.levelIndex < c.levelsRead)
    (h : c.peek = (.ok x, c')) : c' = c := by
  cases x with
  | none =>
    have hr := (ready_of_lt hi).symm.trans (peek_none h)
    exact (Prod.mk.inj hr).2.symm
  | some l =>
    have hr := (ready_of_lt hi).symm.trans (peek_some h).1
    exact (Prod.mk.inj hr).2.symm

variable [Inhabited P]

/-- Looking first does not change what is taken. -/
theorem next_of_peek {x : Option Levels} (h : c.peek = (.ok x, c')) : c.next = c'.next := by
  unfold next
  rw [h, peek_peek h]

/-- **What taking a position does.** -/
theorem next_some {p : Position P} (h : c.next = (.ok (some p), c')) :
    ∃ c₁, c.peek = (.ok (some p.levels), c₁) ∧
      ((p.levels.definition = c₁.bounds.definition ∧ ∃ x c₂,
          c₁.takeValue p.levels = (.ok x, c₂) ∧ p.value = some x ∧ c' = c₂.advance) ∨
        (p.levels.definition ≠ c₁.bounds.definition ∧ p.value = none ∧ c' = c₁.advance)) := by
  unfold next at h
  split at h
  · cases h
  · cases h
  · rename_i l c₁ hp
    split at h
    · rename_i hd
      split at h
      · cases h
      · rename_i x c₂ hv
        obtain ⟨h1, rfl⟩ := Outcome.ok_inj h
        obtain rfl := Option.some.inj h1
        exact ⟨c₁, hp, .inl ⟨hd, x, c₂, hv, rfl, rfl⟩⟩
    · rename_i hd
      obtain ⟨h1, rfl⟩ := Outcome.ok_inj h
      obtain rfl := Option.some.inj h1
      exact ⟨c₁, hp, .inr ⟨hd, rfl, rfl⟩⟩

theorem next_of_value {l : Levels} {x : P} (h : c.peek = (.ok (some l), c'))
    (hd : l.definition = c'.bounds.definition) (hv : c'.takeValue l = (.ok x, c'')) :
    c.next = (.ok (some ⟨l, some x⟩), c''.advance) := by
  unfold next
  rw [h]
  simp only [hd, if_true, hv]

theorem next_of_absent {l : Levels} (h : c.peek = (.ok (some l), c'))
    (hd : l.definition ≠ c'.bounds.definition) :
    c.next = (.ok (some ⟨l, none⟩), c'.advance) := by
  unfold next
  rw [h]
  simp only [hd, if_false]

section Bounds

omit [Inhabited P]

theorem bounds_ready {more : Bool} (h : c.ready = (.ok more, c')) : c'.bounds = c.bounds := by
  unfold ready at h
  split at h
  · rcases refill_ok h with ⟨-, -, rfl⟩ | ⟨-, -, a, reader, -, -, -, -, rfl⟩
    · rfl
    · rfl
  · obtain ⟨-, rfl⟩ := Prod.mk.inj h; rfl

theorem bounds_peek {x : Option Levels} (h : c.peek = (.ok x, c')) : c'.bounds = c.bounds := by
  cases x with
  | none => exact bounds_ready (peek_none h)
  | some l => exact bounds_ready (peek_some h).1

end Bounds

omit [ColumnReader ρ P] in
theorem takeValue_ok {l : Levels} {x : P} (h : c.takeValue l = (.ok x, c')) :
    c.valueIndex < c.valuesRead ∧ x = c.values.getD c.valueIndex default ∧
      c' = { c with
        values := c.values.setIfInBounds c.valueIndex default
        valueIndex := c.valueIndex + 1 } := by
  unfold takeValue at h
  split at h
  · rename_i hv
    obtain ⟨h1, rfl⟩ := Prod.mk.inj h
    exact ⟨hv, (Except.ok.inj h1).symm, rfl⟩
  · cases h

theorem bounds_next {p : Position P} (h : c.next = (.ok (some p), c')) : c'.bounds = c.bounds := by
  obtain ⟨c₁, hp, ⟨-, x, c₂, hv, -, rfl⟩ | ⟨-, -, rfl⟩⟩ := next_some h
  · obtain ⟨-, -, rfl⟩ := takeValue_ok hv
    show c₁.bounds = c.bounds
    exact bounds_peek hp
  · show c₁.bounds = c.bounds
    exact bounds_peek hp

/-- A walk over some positions, which may look ahead in between. -/
inductive Steps : Cursor ρ P → List (Position P) → Cursor ρ P → Prop where
  | refl (c : Cursor ρ P) : Steps c [] c
  /-- Looking at the current position. -/
  | look {c c' c'' : Cursor ρ P} {x : Option Levels} {ps : List (Position P)}
      (h : c.peek = (.ok x, c')) (hs : Steps c' ps c'') : Steps c ps c''
  /-- Taking it. -/
  | take {c c' c'' : Cursor ρ P} {p : Position P} {ps : List (Position P)}
      (h : c.next = (.ok (some p), c')) (hs : Steps c' ps c'') : Steps c (p :: ps) c''

/-- A walk to the end of the column. -/
inductive Streams : Cursor ρ P → List (Position P) → Prop where
  | done {c c' : Cursor ρ P} (h : c.peek = (.ok none, c')) : Streams c []
  | more {c c' : Cursor ρ P} {p : Position P} {ps : List (Position P)}
      (h : c.next = (.ok (some p), c')) (hs : Streams c' ps) : Streams c (p :: ps)

variable {ps qs : List (Position P)}

theorem Steps.trans (h : Steps c ps c') (hs : Steps c' qs c'') : Steps c (ps ++ qs) c'' := by
  induction h with
  | refl => exact hs
  | look h _ ih => exact .look h (ih hs)
  | take h _ ih => exact .take h (ih hs)

theorem Steps.bounds (h : Steps c ps c') : c'.bounds = c.bounds := by
  induction h with
  | refl => rfl
  | look h _ ih => rw [ih, bounds_peek h]
  | take h _ ih => rw [ih, bounds_next h]

/-- Looking ahead does not change the walk to the end. -/
theorem Streams.peek {x : Option Levels} (hs : Streams c ps) (h : c.peek = (.ok x, c')) :
    Streams c' ps := by
  cases hs with
  | done hd =>
    obtain ⟨rfl, rfl⟩ := Outcome.ok_inj (h.symm.trans hd)
    exact .done (peek_peek hd)
  | more hn hs => exact .more (by rw [← next_of_peek h]; exact hn) hs

theorem Streams.of_peek {x : Option Levels} (hs : Streams c' ps) (h : c.peek = (.ok x, c')) :
    Streams c ps := by
  cases hs with
  | done hd =>
    obtain ⟨rfl, -⟩ := Outcome.ok_inj ((peek_peek h).symm.trans hd)
    exact .done h
  | more hn hs => exact .more (by rw [next_of_peek h]; exact hn) hs

theorem Streams.of_steps (h : Steps c ps c') (hs : Streams c' qs) : Streams c (ps ++ qs) := by
  induction h with
  | refl => exact hs
  | look h _ ih => exact (ih hs).of_peek h
  | take h _ ih => exact .more h (ih hs)

/-- The first position of a walk to the end is the one that is looked at. -/
theorem Streams.peek_cons {p : Position P} (hs : Streams c (p :: ps)) :
    ∃ c', c.peek = (.ok (some p.levels), c') ∧ Streams c' (p :: ps) := by
  have hs' := hs
  cases hs with
  | more hn hs =>
    obtain ⟨c₁, hp, -⟩ := next_some hn
    exact ⟨c₁, hp, hs'.peek hp⟩

theorem Streams.peek_nil (hs : Streams c ([] : List (Position P))) :
    ∃ c', c.peek = (.ok none, c') ∧ Streams c' ([] : List (Position P)) := by
  have hs' := hs
  cases hs with
  | done h => exact ⟨_, h, hs'.peek h⟩

section Tidy

omit [Inhabited P]

/-- What holds of every cursor on its way: no more is consumed than there is, and the end
of the column is an empty batch. -/
structure Tidy (c : Cursor ρ P) : Prop where
  levels_le : c.levelIndex ≤ c.levelsRead
  values_le : c.valueIndex ≤ c.valuesRead
  ended : c.exhausted = true → c.levelsRead = 0 ∧ c.valuesRead = 0

omit [ColumnReader ρ P] in
/-- A new cursor has the bounds of its column and nothing in its buffers. -/
theorem fresh_of_make {reader : ρ} {column : String} {n : Nat}
    (h : make reader column b n = .ok c) :
    c.Tidy ∧ c.bounds = b ∧ c.levelIndex = c.levelsRead ∧ c.valuesRead ≤ c.valueIndex := by
  unfold make at h
  split at h
  · cases h
  · obtain rfl := Except.ok.inj h
    exact ⟨⟨Nat.le_refl _, Nat.le_refl _, fun h => (nomatch h)⟩, rfl, rfl, Nat.le_refl _⟩

omit [ColumnReader ρ P] in
/-- What a new cursor asks for. -/
theorem request_of_make {reader : ρ} {column : String} {n : Nat}
    (h : make reader column b n = .ok c) :
    0 < n ∧ c.request = ⟨n, b.storesDefinitions, b.storesRepetitions, n⟩ := by
  unfold make at h
  split at h
  · cases h
  · rename_i hn
    obtain rfl := Except.ok.inj h
    exact ⟨Nat.pos_of_ne_zero hn, rfl⟩

/-- What a batch does to the positions that are left, and to the current one. -/
theorem Tidy.ready {more : Bool} (hc : c.Tidy) (h : c.ready = (.ok more, c')) :
    c'.Tidy ∧ c'.left ≤ c.left ∧ (more = true → c'.levelIndex < c'.levelsRead) := by
  unfold Cursor.ready at h
  split at h
  · rename_i he
    rcases refill_ok h with ⟨-, rfl, rfl⟩ | ⟨-, -, a, reader, ha, -, hva, rfl, rfl⟩
    · exact ⟨hc, Nat.le_refl _, fun h => (nomatch h)⟩
    · -- the reader has less to give by just what came in
      have hs : ColumnReader.supply reader + a.levelsRead ≤ ColumnReader.supply c.reader := by
        have hs := ColumnReader.supply_readBatch_ok c.reader c.request a (by rw [ha])
        rw [ha] at hs
        exact hs
      refine ⟨⟨Nat.zero_le _, Nat.zero_le _, ?_⟩, ?_, ?_⟩
      · intro h
        have h0 : a.levelsRead = 0 := of_decide_eq_true h
        exact ⟨h0, by show a.valuesRead = 0; omega⟩
      · show a.levelsRead - 0 + ColumnReader.supply reader ≤
          c.levelsRead - c.levelIndex + ColumnReader.supply c.reader
        omega
      · intro h
        have h0 : a.levelsRead ≠ 0 := by simpa using h
        exact Nat.pos_of_ne_zero h0
  · obtain ⟨h1, rfl⟩ := Prod.mk.inj h
    have := hc.levels_le
    exact ⟨hc, Nat.le_refl _, fun _ => by omega⟩

theorem Tidy.peek {x : Option Levels} (hc : c.Tidy) (h : c.peek = (.ok x, c')) :
    c'.Tidy ∧ c'.left ≤ c.left ∧ (x.isSome → c'.levelIndex < c'.levelsRead) := by
  cases x with
  | none =>
    have := hc.ready (peek_none h)
    exact ⟨this.1, this.2.1, fun h => (nomatch h)⟩
  | some l =>
    have := hc.ready (peek_some h).1
    exact ⟨this.1, this.2.1, fun _ => this.2.2 rfl⟩

end Tidy

/-- A position that is taken is no longer left. -/
theorem Tidy.next {p : Position P} (hc : c.Tidy) (h : c.next = (.ok (some p), c')) :
    c'.Tidy ∧ c'.left + 1 ≤ c.left := by
  obtain ⟨c₁, hp, hn⟩ := next_some h
  obtain ⟨ht, h1, h2⟩ := hc.peek hp
  have h2 := h2 rfl
  have hv := ht.values_le
  have hz : ¬c₁.exhausted = true := fun he => by have := ht.ended he; omega
  obtain ⟨-, x, c₂, ht, -, rfl⟩ | ⟨-, -, rfl⟩ := hn
  · obtain ⟨hi, -, rfl⟩ := takeValue_ok ht
    refine ⟨⟨?_, hi, fun he => absurd he hz⟩, ?_⟩
    · exact h2
    · simp only [left, advance] at h1 ⊢
      omega
  · refine ⟨⟨h2, hv, fun he => absurd he hz⟩, ?_⟩
    simp only [left, advance] at h1 ⊢
    omega

/-- The positions of a walk are among those that were left. -/
theorem Streams.length_le (hs : Streams c ps) (hc : c.Tidy) : ps.length ≤ c.left := by
  induction hs with
  | done => exact Nat.zero_le _
  | more h _ ih =>
    obtain ⟨h1, h2⟩ := hc.next h
    have := ih h1
    rw [List.length_cons]
    omega

theorem Steps.tidy (hs : Steps c ps c') (hc : c.Tidy) :
    c'.Tidy ∧ ps.length + c'.left ≤ c.left := by
  induction hs with
  | refl => exact ⟨hc, by simp⟩
  | look h _ ih =>
    obtain ⟨h1, h2, -⟩ := hc.peek h
    have := ih h1
    exact ⟨this.1, by omega⟩
  | take h _ ih =>
    obtain ⟨h1, h2⟩ := hc.next h
    have := ih h1
    rw [List.length_cons]
    exact ⟨this.1, by omega⟩

/-- A cursor in front of some positions, which are all that is left of the column. -/
structure Holds (c : Cursor ρ P) (ps : List (Position P)) : Prop where
  tidy : c.Tidy
  streams : c.Streams ps

namespace Holds

variable {l : Levels}

theorem look {p : Position P} (h : c.Holds (p :: ps)) :
    ∃ c', c.peek = (.ok (some p.levels), c') ∧ c'.Holds (p :: ps) := by
  obtain ⟨c', hp, hs⟩ := h.streams.peek_cons
  exact ⟨c', hp, (h.tidy.peek hp).1, hs⟩

theorem look_end (h : c.Holds ([] : List (Position P))) :
    ∃ c', c.peek = (.ok none, c') ∧ c'.Holds ([] : List (Position P)) := by
  obtain ⟨c', hp, hs⟩ := h.streams.peek_nil
  exact ⟨c', hp, (h.tidy.peek hp).1, hs⟩

/-- At a position with a value, the value can be taken. -/
theorem present {x : P} (h : c.Holds (⟨l, some x⟩ :: ps)) :
    ∃ c₁ c₂, c.peek = (.ok (some l), c₁) ∧ c₁.takeValue l = (.ok x, c₂) ∧
      c₂.advance.Holds ps := by
  obtain ⟨ht, hs⟩ := h
  cases hs with
  | more hn hs =>
    obtain ⟨c₁, hp, ⟨-, y, c₂, hv, hy, rfl⟩ | ⟨-, hy, -⟩⟩ := next_some hn
    · obtain rfl := Option.some.inj hy
      exact ⟨c₁, c₂, hp, hv, (ht.next hn).1, hs⟩
    · cases hy

/-- A position without a value can be passed. -/
theorem absent (h : c.Holds (⟨l, none⟩ :: ps)) :
    ∃ c₁, c.peek = (.ok (some l), c₁) ∧ c₁.advance.Holds ps := by
  obtain ⟨ht, hs⟩ := h
  cases hs with
  | more hn hs =>
    obtain ⟨c₁, hp, ⟨-, y, c₂, -, hy, -⟩ | ⟨-, -, rfl⟩⟩ := next_some hn
    · cases hy
    · exact ⟨c₁, hp, (ht.next hn).1, hs⟩

theorem length_le (h : c.Holds ps) : ps.length ≤ c.left := h.streams.length_le h.tidy

end Holds

end Striping.Cursor
