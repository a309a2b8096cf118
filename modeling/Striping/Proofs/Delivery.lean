import Striping.Proofs.Walk

/-!
# What a reader delivers

A reader fills the buffers of a cursor and says how much of them is meant. What it
delivers is what stands there, batch after batch up to the end of the column.

* `Cursor.pendingLevels`, `Cursor.pendingValues`: what is left of the current batch.
* `Cursor.Feeds`: the levels and values that are still to come after it.
  `Cursor.Streams.feeds`: **a walk to the end of the column has met just these**.
* `ColumnReader.Serves`: a reader that answers with certain positions, in batches of any
  lengths. `ColumnReader.Serves.holds`: **a cursor in front of it walks over them**.
-/

namespace Striping

theorem Position.values_cons {P : Type} (p : Position P) (ps : List (Position P)) :
    (p :: ps).filterMap (·.value) = p.value.toList ++ ps.filterMap (·.value) := by
  rw [List.filterMap_cons]
  cases p.value <;> rfl

namespace Cursor

variable {ρ P : Type} {c c' : Cursor ρ P} {b : LevelBounds}

/-- The levels that the buffers hold at an index. -/
def levelsAt (c : Cursor ρ P) (i : Nat) : Levels where
  definition :=
    if c.bounds.storesDefinitions then c.definitions.getD i 0 else c.bounds.definition
  repetition := if c.bounds.storesRepetitions then c.repetitions.getD i 0 else 0

/-- The levels that are left of the current batch. -/
def pendingLevels (c : Cursor ρ P) : List Levels :=
  (List.range' c.levelIndex (c.levelsRead - c.levelIndex)).map c.levelsAt

theorem pendingLevels_advance (h : c.levelIndex < c.levelsRead) :
    c.pendingLevels = c.levels :: c.advance.pendingLevels := by
  obtain ⟨n, hn⟩ := Nat.exists_eq_add_one.2 (show 0 < c.levelsRead - c.levelIndex by omega)
  have hn' : c.levelsRead - (c.levelIndex + 1) = n := by omega
  show (List.range' c.levelIndex (c.levelsRead - c.levelIndex)).map c.levelsAt = c.levels ::
    (List.range' (c.levelIndex + 1) (c.levelsRead - (c.levelIndex + 1))).map c.levelsAt
  rw [hn, hn', List.range'_succ]
  rfl

theorem pendingLevels_eq_nil_iff : c.pendingLevels = [] ↔ c.levelsRead ≤ c.levelIndex := by
  unfold pendingLevels
  rw [List.map_eq_nil_iff, List.range'_eq_nil_iff]
  omega

theorem lt_of_pendingLevels {l : Levels} {ls : List Levels} (h : c.pendingLevels = l :: ls) :
    c.levelIndex < c.levelsRead := by
  by_contra hle
  rw [pendingLevels_eq_nil_iff.2 (by omega)] at h
  cases h

variable [Inhabited P]

/-- The cursor after the current position was taken with a value. -/
def taken (c : Cursor ρ P) : Cursor ρ P :=
  advance { c with
    values := c.values.setIfInBounds c.valueIndex default
    valueIndex := c.valueIndex + 1 }

/-- The next values of the current batch. -/
def upcoming (c : Cursor ρ P) (n : Nat) : List P :=
  (List.range' c.valueIndex n).map fun i => c.values.getD i default

theorem upcoming_succ (c : Cursor ρ P) (n : Nat) :
    c.upcoming (n + 1) = c.values.getD c.valueIndex default :: c.taken.upcoming n := by
  unfold upcoming
  rw [List.range'_succ, List.map_cons]
  congr 1
  refine List.map_congr_left fun i hi => ?_
  have hi : c.valueIndex + 1 ≤ i := (List.mem_range'_1.1 hi).1
  show c.values.getD i default = (c.values.setIfInBounds c.valueIndex default).getD i default
  rw [Array.getD_eq_getD_getElem?, Array.getD_eq_getD_getElem?,
    Array.getElem?_setIfInBounds_ne (by omega)]

/-- The values that are left of the current batch. -/
def pendingValues (c : Cursor ρ P) : List P := c.upcoming (c.valuesRead - c.valueIndex)

theorem pendingValues_taken (h : c.valueIndex < c.valuesRead) :
    c.pendingValues = c.values.getD c.valueIndex default :: c.taken.pendingValues := by
  obtain ⟨n, hn⟩ := Nat.exists_eq_add_one.2 (show 0 < c.valuesRead - c.valueIndex by omega)
  have hn' : c.taken.valuesRead - c.taken.valueIndex = n := by
    show c.valuesRead - (c.valueIndex + 1) = n
    omega
  unfold pendingValues
  rw [hn, hn', upcoming_succ]

/-- The buffer of values after the next ones were taken. -/
def blanked (c : Cursor ρ P) (n : Nat) : Array P :=
  (List.range' c.valueIndex n).foldl (fun values i => values.setIfInBounds i default) c.values

theorem blanked_succ (c : Cursor ρ P) (n : Nat) : c.blanked (n + 1) = c.taken.blanked n := by
  unfold blanked
  rw [List.range'_succ, List.foldl_cons]
  rfl

/-- The cursor with the current batch behind it. -/
def spent (c : Cursor ρ P) : Cursor ρ P :=
  { c with
    values := c.blanked (c.valuesRead - c.valueIndex)
    levelIndex := c.levelsRead
    valueIndex := c.valuesRead }

theorem spent_advance (c : Cursor ρ P) : c.advance.spent = c.spent := rfl

theorem spent_taken (h : c.valueIndex < c.valuesRead) : c.taken.spent = c.spent := by
  obtain ⟨n, hn⟩ := Nat.exists_eq_add_one.2 (show 0 < c.valuesRead - c.valueIndex by omega)
  have hn' : c.taken.valuesRead - c.taken.valueIndex = n := by
    show c.valuesRead - (c.valueIndex + 1) = n
    omega
  unfold spent
  rw [hn, hn', blanked_succ]
  rfl

/-- A cursor behind its batch is not changed by putting the batch behind it. -/
theorem spent_eq_self (hl : c.levelIndex = c.levelsRead) (hv : c.valueIndex = c.valuesRead) :
    c.spent = c := by
  obtain ⟨reader, column, bounds, batchSize, definitions, repetitions, values, levelsRead,
    valuesRead, levelIndex, valueIndex, exhausted⟩ := c
  obtain rfl : levelIndex = levelsRead := hl
  obtain rfl : valueIndex = valuesRead := hv
  unfold spent blanked
  simp only [Nat.sub_self, List.range'_zero, List.foldl_nil]

theorem pendingValues_eq_nil_iff : c.pendingValues = [] ↔ c.valuesRead ≤ c.valueIndex := by
  unfold pendingValues upcoming
  rw [List.map_eq_nil_iff, List.range'_eq_nil_iff]
  omega

variable [ColumnReader ρ P]

/-- A position that is taken leaves the current batch. -/
theorem pending_next {p : Position P} (hi : c.levelIndex < c.levelsRead)
    (h : c.next = (.ok (some p), c')) :
    c.pendingLevels = p.levels :: c'.pendingLevels ∧
      c.pendingValues = p.value.toList ++ c'.pendingValues ∧ c'.spent = c.spent := by
  obtain ⟨c₁, hp, hn⟩ := next_some h
  obtain rfl := eq_of_peek hi hp
  rw [pendingLevels_advance hi, (peek_some hp).2.1]
  obtain ⟨-, x, c₂, hv, hx, rfl⟩ | ⟨-, hx, rfl⟩ := hn
  · obtain ⟨hlt, rfl, rfl⟩ := takeValue_ok hv
    rw [hx]
    exact ⟨rfl, pendingValues_taken hlt, spent_taken hlt⟩
  · rw [hx]
    exact ⟨rfl, rfl, spent_advance _⟩

/-- A position that is there can be taken, if it may stand in the column. -/
theorem next_pending {p : Position P} {ls : List Levels} {vs : List P} (hf : p.Fits c.bounds)
    (hl : c.pendingLevels = p.levels :: ls) (hv : c.pendingValues = p.value.toList ++ vs) :
    ∃ c', c.next = (.ok (some p), c') := by
  have hi := lt_of_pendingLevels hl
  have hlev : c.levels = p.levels := by
    rw [pendingLevels_advance hi] at hl
    exact (List.cons.inj hl).1
  have hp : c.peek = (.ok (some p.levels), c) := by
    rw [← hlev]
    exact peek_of_ready (ready_of_lt hi) (by rw [hlev]; exact hf.within)
  -- a position has a value just if its level is the greatest one, so both cases are decided
  -- by the level that was looked at
  obtain ⟨l, x⟩ := p
  cases x with
  | none =>
    have hne : l.definition ≠ c.bounds.definition := fun h => by simpa using hf.present_iff.2 h
    exact ⟨_, next_of_absent hp hne⟩
  | some x =>
    have hlt : c.valueIndex < c.valuesRead := by
      by_contra hle
      rw [pendingValues_eq_nil_iff.2 (by omega)] at hv
      cases hv
    rw [pendingValues_taken hlt] at hv
    have hx : c.values.getD c.valueIndex default = x := (List.cons.inj hv).1
    have ht : c.takeValue l = (.ok x, { c with
        values := c.values.setIfInBounds c.valueIndex default
        valueIndex := c.valueIndex + 1 }) := by
      unfold takeValue
      rw [if_pos hlt, hx]
    exact ⟨_, next_of_value hp (hf.present_iff.1 rfl) ht⟩

/-- What a reader still delivers to a cursor with its batch behind it: the levels and the
values that stand in the buffers after each answer, as far as they are meant. -/
inductive Feeds : Cursor ρ P → List Levels → List P → Prop where
  /-- The end of the column was met before. -/
  | done {c : Cursor ρ P} (he : c.exhausted = true) : Feeds c [] []
  /-- The end of the column is met now. -/
  | last {c : Cursor ρ P} {a : Answer P} {reader : ρ} (he : c.exhausted = false)
      (h : ColumnReader.readBatch c.reader c.request = (.ok a, reader)) (h0 : a.levelsRead = 0) :
      Feeds c [] (c.receive a reader).pendingValues
  /-- Another batch comes in. -/
  | batch {c : Cursor ρ P} {a : Answer P} {reader : ρ} {ls : List Levels} {vs : List P}
      (he : c.exhausted = false)
      (h : ColumnReader.readBatch c.reader c.request = (.ok a, reader)) (h0 : a.levelsRead ≠ 0)
      (hs : Feeds (c.receive a reader).spent ls vs) :
      Feeds c ((c.receive a reader).pendingLevels ++ ls)
        ((c.receive a reader).pendingValues ++ vs)

/-- A reader delivers one thing only. -/
theorem Feeds.unique {ls ls' : List Levels} {vs vs' : List P} (h : c.Feeds ls vs)
    (h' : c.Feeds ls' vs') : ls = ls' ∧ vs = vs' := by
  -- both deliveries ask the same reader the same, so they part nowhere
  induction h generalizing ls' vs' with
  | done he =>
    cases h' with
    | done => exact ⟨rfl, rfl⟩
    | last he' => cases he.symm.trans he'
    | batch he' => cases he.symm.trans he'
  | last he hr h0 =>
    cases h' with
    | done he' => cases he.symm.trans he'
    | last _ hr' =>
      obtain ⟨rfl, rfl⟩ := Outcome.ok_inj (hr.symm.trans hr')
      exact ⟨rfl, rfl⟩
    | batch _ hr' h0' =>
      obtain ⟨rfl, rfl⟩ := Outcome.ok_inj (hr.symm.trans hr')
      exact absurd h0 h0'
  | batch he hr h0 _ ih =>
    cases h' with
    | done he' => cases he.symm.trans he'
    | last _ hr' h0' =>
      obtain ⟨rfl, rfl⟩ := Outcome.ok_inj (hr.symm.trans hr')
      exact absurd h0' h0
    | batch _ hr' _ hs' =>
      obtain ⟨rfl, rfl⟩ := Outcome.ok_inj (hr.symm.trans hr')
      obtain ⟨rfl, rfl⟩ := ih hs'
      exact ⟨rfl, rfl⟩

omit [ColumnReader ρ P] in
/-- What a tidy cursor has left when it is behind its batch. -/
theorem Tidy.spent_eq_self (hc : c.Tidy) (hl : c.levelIndex = c.levelsRead)
    (hv : c.valuesRead ≤ c.valueIndex) :
    c.spent = c ∧ c.pendingLevels = [] ∧ c.pendingValues = [] :=
  ⟨Cursor.spent_eq_self hl (Nat.le_antisymm hc.values_le hv),
    pendingLevels_eq_nil_iff.2 (by omega), pendingValues_eq_nil_iff.2 hv⟩

theorem ready_false (hc : c.Tidy) (h : c.ready = (.ok false, c')) :
    c.levelIndex = c.levelsRead ∧ c.valuesRead ≤ c.valueIndex ∧ c.Feeds [] [] := by
  unfold ready at h
  split at h
  · rename_i hl
    rcases refill_ok h with ⟨he, -, -⟩ | ⟨he, hv, a, reader, ha, -, hva, h0, -⟩
    · have := hc.ended he
      exact ⟨hl, by omega, .done he⟩
    · have h0 : a.levelsRead = 0 := by simpa using h0.symm
      have hnil : (c.receive a reader).pendingValues = [] :=
        pendingValues_eq_nil_iff.2 (by show a.valuesRead ≤ 0; omega)
      have hf := Feeds.last he ha h0
      rw [hnil] at hf
      exact ⟨hl, hv, hf⟩
  · cases (Prod.mk.inj h).1

variable {ps qs : List (Position P)}

/-- **A walk to the end of the column has met just what the reader delivered.** -/
theorem Streams.feeds (hs : c.Streams ps) (hc : c.Tidy) :
    ∃ ls vs, c.spent.Feeds ls vs ∧ ps.map (·.levels) = c.pendingLevels ++ ls ∧
      ps.filterMap (·.value) = c.pendingValues ++ vs := by
  induction hs with
  | @done c c' h =>
    obtain ⟨hl, hv, hf⟩ := ready_false hc (peek_none h)
    obtain ⟨h1, h2, h3⟩ := hc.spent_eq_self hl hv
    exact ⟨[], [], by rwa [h1], by rw [h2]; rfl, by rw [h3]; rfl⟩
  | @more c c' p ps h _ ih =>
    obtain ⟨ls, vs, hf, hls, hvs⟩ := ih (hc.next h).1
    rw [Position.values_cons, hvs, List.map_cons, hls]
    by_cases hi : c.levelIndex < c.levelsRead
    · obtain ⟨h1, h2, h3⟩ := pending_next hi h
      rw [h3] at hf
      exact ⟨ls, vs, hf, by rw [h1]; rfl, by rw [h2, List.append_assoc]⟩
    · -- the position is the first one of the next batch
      obtain ⟨c₁, hp, -⟩ := next_some h
      have hr := (peek_some hp).1
      have hi₁ := (hc.peek hp).2.2 rfl
      rw [next_of_peek hp] at h
      obtain ⟨h1, h2, h3⟩ := pending_next hi₁ h
      rw [h3] at hf
      have hle := hc.levels_le
      rw [ready_of_eq (by omega)] at hr
      rcases refill_ok hr with ⟨-, he, -⟩ | ⟨he, hv, a, reader, ha, -, -, h0, rfl⟩
      · cases he
      · obtain ⟨h4, h5, h6⟩ := hc.spent_eq_self (by omega) hv
        have h0 : a.levelsRead ≠ 0 := by simpa using h0.symm
        have hb := Feeds.batch he ha h0 hf
        rw [h4, h5, h6]
        exact ⟨_, _, hb, by rw [h1]; rfl, by rw [h2]; simp⟩

/-- What is pending is walked over, if it may stand in the column. -/
theorem streams_of_pending (hf : ∀ p ∈ ps, p.Fits c.bounds) (hc : c.Tidy)
    (hl : c.pendingLevels = ps.map (·.levels)) (hv : c.pendingValues = ps.filterMap (·.value))
    (hs : c.spent.Streams qs) : c.Streams (ps ++ qs) := by
  induction ps generalizing c with
  | nil =>
    have h1 := pendingLevels_eq_nil_iff.1 hl
    have h2 := hc.levels_le
    rw [(hc.spent_eq_self (by omega) (pendingValues_eq_nil_iff.1 hv)).1] at hs
    exact hs
  | cons p ps ih =>
    rw [Position.values_cons] at hv
    obtain ⟨c', hn⟩ := next_pending (hf p List.mem_cons_self) hl hv
    have hi := lt_of_pendingLevels hl
    obtain ⟨h1, h2, h3⟩ := pending_next hi hn
    -- what is left after a position is pending again
    have hfit : ∀ q ∈ ps, q.Fits c'.bounds := by
      intro q hq
      rw [bounds_next hn]
      exact hf q (List.mem_cons_of_mem p hq)
    have hlevels : c'.pendingLevels = ps.map (·.levels) := by
      rw [h1] at hl
      exact (List.cons.inj hl).2
    have hvalues : c'.pendingValues = ps.filterMap (·.value) := by
      rw [h2] at hv
      exact List.append_cancel_left hv
    rw [← h3] at hs
    exact .more hn (ih hfit (hc.next hn).1 hlevels hvalues hs)

end Cursor

section Service

variable {ρ P : Type} {b : LevelBounds} {ps : List (Position P)}

theorem Position.Fits.definition_eq {p : Position P} (h : p.Fits b)
    (hs : b.storesDefinitions = false) : p.levels.definition = b.definition := by
  have hw := LevelBounds.contains_iff.1 h.within
  have hb : ¬(0 : Level) < b.definition := of_decide_eq_false hs
  rw [Int16.lt_iff_toInt_lt, Int16.toInt_zero] at hb
  exact Int16.toInt.inj (by omega)

theorem Position.Fits.repetition_eq {p : Position P} (h : p.Fits b)
    (hs : b.storesRepetitions = false) : p.levels.repetition = 0 := by
  have hw := LevelBounds.contains_iff.1 h.within
  have hb : ¬(0 : Level) < b.repetition := of_decide_eq_false hs
  rw [Int16.lt_iff_toInt_lt, Int16.toInt_zero] at hb
  exact Int16.toInt.inj (by rw [Int16.toInt_zero]; omega)

/-- A position with a value just if it reaches the leaf, whose levels are known where the column
does not store them. Its levels may be out of bounds. -/
structure Position.Paired (b : LevelBounds) (p : Position P) : Prop where
  present_iff : p.value.isSome ↔ p.levels.definition = b.definition
  definition_eq : b.storesDefinitions = false → p.levels.definition = b.definition
  repetition_eq : b.storesRepetitions = false → p.levels.repetition = 0

theorem Position.Fits.paired {p : Position P} (h : p.Fits b) : p.Paired b :=
  ⟨h.present_iff, h.definition_eq, h.repetition_eq⟩

/-- An answer that brings some positions of a column, as far as the column stores them. -/
structure Answer.Carries (a : Answer P) (b : LevelBounds) (ps : List (Position P)) : Prop where
  definitions : b.storesDefinitions = true →
    a.definitions.toList = ps.map (·.levels.definition)
  repetitions : b.storesRepetitions = true →
    a.repetitions.toList = ps.map (·.levels.repetition)
  values : a.values.toList = ps.filterMap (·.value)
  levelsRead : a.levelsRead = ps.length
  valuesRead : a.valuesRead = a.values.size

theorem Answer.Carries.valuesRead_eq {a : Answer P} (h : a.Carries b ps) :
    a.valuesRead = (ps.filterMap (·.value)).length := by
  rw [h.valuesRead, ← Array.length_toList, h.values]

/-- An answer that brings some positions of a column: what is meant of it are these. Behind them
it may have left anything. -/
structure Answer.Brings (a : Answer P) (b : LevelBounds) (ps : List (Position P)) : Prop where
  definitions : b.storesDefinitions = true →
    ps.map (·.levels.definition) <+: a.definitions.toList
  repetitions : b.storesRepetitions = true →
    ps.map (·.levels.repetition) <+: a.repetitions.toList
  values : ps.filterMap (·.value) <+: a.values.toList
  levelsRead : a.levelsRead = ps.length
  valuesRead : a.valuesRead = (ps.filterMap (·.value)).length

theorem Answer.Carries.brings {a : Answer P} (h : a.Carries b ps) : a.Brings b ps where
  definitions hd := h.definitions hd ▸ List.prefix_refl _
  repetitions hr := h.repetitions hr ▸ List.prefix_refl _
  values := h.values ▸ List.prefix_refl _
  levelsRead := h.levelsRead
  valuesRead := h.valuesRead_eq

/-- There are at most as many values as positions. -/
theorem Answer.Carries.valuesRead_le {a : Answer P} (h : a.Carries b ps) :
    a.valuesRead ≤ ps.length := by
  rw [h.valuesRead_eq]
  exact List.length_filterMap_le _ _

namespace Cursor

variable {c : Cursor ρ P} {a : Answer P} {reader : ρ}

/-- The start of a buffer holds what was put there. -/
theorem overlay_getD {α : Type} {size i : Nat} {buffer entries : Array α} {es : List α} {d : α}
    (he : es <+: entries.toList) (hi : i < es.length) (hs : i < size) :
    (overlay size buffer entries).getD i d = es[i] := by
  have hle : es.length ≤ entries.size := Array.length_toList ▸ he.length_le
  unfold overlay
  rw [Array.getD_eq_getD_getElem?, Array.getElem?_append_left (by rw [Array.size_extract]; omega),
    Array.getElem?_extract_of_lt (by omega)]
  simp only [Nat.zero_add, Option.getD_some, he.getElem hi, Array.getElem_toList]

/-- Levels that the column stores are found in the buffer, and the others are known. -/
theorem stored_getD {stored : Bool} {size i : Nat} {buffer entries : Array Level}
    {f : Position P → Level} {known : Level}
    (he : stored = true → ps.map f <+: entries.toList) (hi : i < ps.length)
    (hs : ps.length ≤ size) (hk : stored = false → f ps[i] = known) :
    (if stored then (if stored then overlay size buffer entries else buffer).getD i 0
      else known) = f ps[i] := by
  cases stored with
  | false => exact (hk rfl).symm
  | true =>
    show (overlay size buffer entries).getD i 0 = _
    rw [overlay_getD (he rfl) (by rwa [List.length_map]) (by omega), List.getElem_map]

theorem pendingLevels_receive (ha : a.Brings c.bounds ps) (hf : ∀ p ∈ ps, p.Paired c.bounds)
    (hn : ps.length ≤ c.batchSize) : (c.receive a reader).pendingLevels = ps.map (·.levels) := by
  show (List.range' 0 (a.levelsRead - 0)).map (c.receive a reader).levelsAt = _
  rw [ha.levelsRead, Nat.sub_zero]
  refine List.ext_getElem (by simp) fun i h1 h2 => ?_
  rw [List.length_map] at h2
  rw [List.getElem_map, List.getElem_map, List.getElem_range', Nat.zero_add, Nat.one_mul]
  have hp := hf ps[i] (List.getElem_mem h2)
  have hd : ((c.receive a reader).levelsAt i).definition = ps[i].levels.definition :=
    stored_getD ha.definitions h2 hn hp.definition_eq
  have hr : ((c.receive a reader).levelsAt i).repetition = ps[i].levels.repetition :=
    stored_getD ha.repetitions h2 hn hp.repetition_eq
  exact congrArg₂ Levels.mk hd hr

theorem pendingValues_receive [Inhabited P] (ha : a.Brings c.bounds ps)
    (hn : ps.length ≤ c.batchSize) :
    (c.receive a reader).pendingValues = ps.filterMap (·.value) := by
  show (List.range' 0 (a.valuesRead - 0)).map
    (fun i => (overlay c.batchSize c.values a.values).getD i default) = _
  have hle := List.length_filterMap_le (·.value) ps
  rw [ha.valuesRead, Nat.sub_zero]
  refine List.ext_getElem (by simp) fun i h1 h2 => ?_
  rw [List.getElem_map, List.getElem_range', Nat.zero_add, Nat.one_mul,
    overlay_getD ha.values h2 (by omega)]

end Cursor

/-- A reader that, asked the same again and again, answers with some positions, in batches
of any lengths, and then with an empty batch. -/
inductive ColumnReader.Serves [ColumnReader ρ P] (b : LevelBounds) (q : Request) :
    ρ → List (Position P) → Prop where
  | done {r r' : ρ} {a : Answer P} (h : ColumnReader.readBatch r q = (.ok a, r'))
      (ha : a.Carries b []) : Serves b q r []
  | more {r r' : ρ} {a : Answer P} {ps qs : List (Position P)}
      (h : ColumnReader.readBatch r q = (.ok a, r')) (ha : a.Carries b ps) (hne : ps ≠ [])
      (hn : ps.length ≤ q.positions) (hs : Serves b q r' qs) : Serves b q r (ps ++ qs)

variable [Inhabited P] [ColumnReader ρ P]

/-- A cursor behind its batch walks over what its reader answers. -/
theorem ColumnReader.Serves.streams {q : Request} {r : ρ} (h : ColumnReader.Serves b q r ps)
    {c : Cursor ρ P} (hr : c.reader = r) (hq : c.request = q) (hb : c.bounds = b)
    (hf : ∀ p ∈ ps, p.Fits b) (he : c.exhausted = false) (hl : c.levelIndex = c.levelsRead)
    (hv : c.valuesRead ≤ c.valueIndex) : c.Streams ps := by
  induction h generalizing c with
  | @done r r' a h ha =>
    -- an empty batch is the end of the column
    subst hr
    rw [← hq] at h
    have h1 : a.levelsRead = 0 := ha.levelsRead
    have h2 : a.valuesRead ≤ 0 := ha.valuesRead_le
    have hfill := Cursor.refill_of_readBatch he hv h (by omega) (by omega)
    rw [h1] at hfill
    have hpeek : c.peek = (.ok none, c.receive a r') := by
      unfold Cursor.peek
      rw [Cursor.ready_of_eq hl, hfill]
      rfl
    exact .done hpeek
  | @more r r' a ps qs h ha hne hn _ ih =>
    subst hr hb
    rw [← hq] at h
    have hpos := List.length_pos_of_ne_nil hne
    have hn : ps.length ≤ c.batchSize := by rw [← hq] at hn; exact hn
    have h1 : a.levelsRead = ps.length := ha.levelsRead
    have h2 := ha.valuesRead_le
    have hne : a.levelsRead ≠ 0 := by omega
    have hfill := Cursor.refill_of_readBatch he hv h (by omega) (by omega)
    rw [decide_eq_true hne, ← Cursor.ready_of_eq hl] at hfill
    have hfp : ∀ p ∈ ps, p.Fits c.bounds := fun p hp => hf p (List.mem_append_left qs hp)
    have hx : (c.receive a r').exhausted = false := decide_eq_false hne
    have hs : (c.receive a r').Streams (ps ++ qs) := by
      have ht : (c.receive a r').Tidy := by
        refine ⟨Nat.zero_le _, Nat.zero_le _, ?_⟩
        intro h
        cases hx.symm.trans h
      have hfq : ∀ p ∈ qs, p.Fits c.bounds := fun p hp => hf p (List.mem_append_right ps hp)
      have hrest : (c.receive a r').spent.Streams qs := ih rfl hq rfl hfq hx rfl (Nat.le_refl _)
      have hpaired : ∀ p ∈ ps, p.Paired c.bounds := fun p hp => (hfp p hp).paired
      exact Cursor.streams_of_pending hfp ht (Cursor.pendingLevels_receive ha.brings hpaired hn)
        (Cursor.pendingValues_receive ha.brings hn) hrest
    obtain ⟨p, rest, hp⟩ := List.exists_cons_of_length_pos hpos
    rw [hp] at hs ⊢
    obtain ⟨c₁, hpeek, hs₁⟩ := hs.peek_cons
    exact hs₁.of_peek ((Cursor.peek_of_ready_true hfill).trans hpeek)

/-- **A new cursor walks over what its reader answers.** -/
theorem ColumnReader.Serves.holds {r : ρ} {column : String} {n : Nat} {c : Cursor ρ P}
    (hm : Cursor.make r column b n = .ok c) (h : ColumnReader.Serves b c.request r ps)
    (hf : ∀ p ∈ ps, p.Fits b) : c.Holds ps := by
  have ht := (Cursor.fresh_of_make hm).1
  unfold Cursor.make at hm
  split at hm
  · cases hm
  · obtain rfl := Except.ok.inj hm
    exact ⟨ht, h.streams rfl rfl rfl hf rfl rfl (Nat.le_refl _)⟩

end Service

end Striping
