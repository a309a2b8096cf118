import Striping.Proofs.Rows

/-!
# What a cursor touches

**Scope.** A cursor over any `ColumnReader`, a reader that runs dry at some time. The counts and
levels that it reports may be wrong in any way, and it may fail and go on. Its answers are written
down next to it.

* `Cursor.Moves`: the things that a cursor may do to its buffers, one at a time: it asks for a
  batch, looks at levels, takes a value, passes a position. Only positions and values of the current
  batch are looked at and taken.
* `Cursor.Sound`: what is meant of the buffers lies in them. `Cursor.Moves.sound`: **no answer of a
  reader can change that**.
* `Answer.slots`: the slots that the answers of a reader leave to be taken.
  `Cursor.Moves.accounts`: **they are taken once and in order**.
-/

namespace Striping

/-- One access to the buffers of a cursor. -/
inductive Access (P : Type) where
  /-- A look at the levels at an index. -/
  | look (index : Nat)
  /-- The value that is taken from an index. -/
  | take (index : Nat) (value : P)

/-- The value that is taken. -/
def Access.value? {P : Type} : Access P → Option P
  | look _ => none
  | take _ x => some x

namespace Cursor

variable {ρ P : Type} {c c' c'' : Cursor ρ P}

/-- What holds of every cursor, whatever its reader says: the counts contradict neither each other
nor the length of the buffers. -/
structure Sound (c : Cursor ρ P) : Prop extends c.Tidy where
  values_le_levels : c.valuesRead ≤ c.levelsRead
  levels_le_batch : c.levelsRead ≤ c.batchSize

theorem sound_of_make {reader : ρ} {column : String} {b : LevelBounds} {n : Nat}
    (h : make reader column b n = .ok c) :
    c.Sound ∧ c.reader = reader ∧ c.batchSize = n ∧ c.values = #[] ∧ c.valuesRead = 0 := by
  have ht := (fresh_of_make h).1
  unfold make at h
  split at h
  · cases h
  · obtain rfl := Except.ok.inj h
    exact ⟨⟨ht, Nat.le_refl _, Nat.zero_le _⟩, rfl, rfl, rfl, rfl⟩

variable [Inhabited P]

/-- The cursor after its next value was taken. -/
def picked (c : Cursor ρ P) : Cursor ρ P :=
  { c with
    values := c.values.setIfInBounds c.valueIndex default
    valueIndex := c.valueIndex + 1 }

theorem Sound.picked (hc : c.Sound) (hi : c.valueIndex < c.valuesRead) : c.picked.Sound :=
  ⟨⟨hc.levels_le, hi, hc.ended⟩, hc.values_le_levels, hc.levels_le_batch⟩

omit [Inhabited P] in
theorem Sound.advance (hc : c.Sound) (hi : c.levelIndex < c.levelsRead) : c.advance.Sound :=
  ⟨⟨hi, hc.values_le, hc.ended⟩, hc.values_le_levels, hc.levels_le_batch⟩

variable [ColumnReader ρ P]

/-- What may be done to the buffers of a cursor, with all the values that are taken from them. The
levels at the current position may be looked at any number of times. -/
inductive Moves : Cursor ρ P → List (Access P) → Cursor ρ P → Prop where
  | refl (c : Cursor ρ P) : Moves c [] c
  /-- A batch is asked for behind the current one, whatever comes of it. -/
  | ready {c c' : Cursor ρ P} {as : List (Access P)} (h : Moves c.ready.2 as c') : Moves c as c'
  /-- The levels at the current position are looked at. -/
  | look {c c' : Cursor ρ P} {as : List (Access P)} (hi : c.levelIndex < c.levelsRead)
      (h : Moves c as c') : Moves c (.look c.levelIndex :: as) c'
  /-- The next value is taken. -/
  | take {c c' : Cursor ρ P} {as : List (Access P)} (hi : c.valueIndex < c.valuesRead)
      (h : Moves c.picked as c') :
      Moves c (.take c.valueIndex (c.values.getD c.valueIndex default) :: as) c'
  /-- The current position is passed. -/
  | pass {c c' : Cursor ρ P} {as : List (Access P)} (hi : c.levelIndex < c.levelsRead)
      (h : Moves c.advance as c') : Moves c as c'

variable {as bs : List (Access P)}

theorem Moves.trans (h : c.Moves as c') (hs : c'.Moves bs c'') : c.Moves (as ++ bs) c'' := by
  induction h with
  | refl => exact hs
  | ready _ ih => exact .ready (ih hs)
  | look hi _ ih => exact .look hi (ih hs)
  | take hi _ ih => exact .take hi (ih hs)
  | pass hi _ ih => exact .pass hi (ih hs)

omit [Inhabited P] in
/-- **All that asking for a batch can do**, whether it succeeds or not. -/
theorem ready_cases (c : Cursor ρ P) :
    (∃ x, c.ready = (x, c) ∧ ∀ e, x = .error e → ∃ fault, e = c.corruptBatch fault) ∨
      (c.levelIndex = c.levelsRead ∧ c.valuesRead ≤ c.valueIndex ∧
        ((∃ e reader, ColumnReader.readBatch c.reader c.request = (.error e, reader) ∧
            c.ready = (.error e, { c with reader := reader })) ∨
          ∃ a reader, ColumnReader.readBatch c.reader c.request = (.ok a, reader) ∧
            ((¬(a.levelsRead ≤ c.batchSize ∧ a.valuesRead ≤ a.levelsRead) ∧
                ∃ fault, c.ready = (.error (c.corruptBatch fault),
                  { c.load a with reader := reader })) ∨
              ((a.levelsRead ≤ c.batchSize ∧ a.valuesRead ≤ a.levelsRead) ∧
                c.ready = (.ok (decide (a.levelsRead ≠ 0)), c.receive a reader))))) := by
  by_cases hi : c.levelIndex = c.levelsRead
  · rw [ready_of_eq hi]
    unfold refill
    by_cases he : c.exhausted = true
    · rw [if_pos he]
      exact .inl ⟨_, rfl, fun e h => by cases h⟩
    · rw [if_neg he]
      by_cases hv : c.valueIndex < c.valuesRead
      · rw [if_pos hv]
        exact .inl ⟨_, rfl, fun e h => ⟨_, (Except.error.inj h).symm⟩⟩
      · rw [if_neg hv]
        refine .inr ⟨hi, Nat.not_lt.1 hv, ?_⟩
        rcases hr : ColumnReader.readBatch c.reader c.request with ⟨e | a, reader⟩
        · exact .inl ⟨e, reader, rfl, rfl⟩
        · refine .inr ⟨a, reader, rfl, ?_⟩
          -- the counts are checked before they are put in place
          by_cases hn : c.batchSize < a.levelsRead ∨ a.levelsRead < a.valuesRead
          · exact .inl ⟨by omega, _, if_pos hn⟩
          · exact .inr ⟨by omega, if_neg hn⟩
  · unfold ready
    rw [if_neg hi]
    exact .inl ⟨_, rfl, fun e h => by cases h⟩

omit [Inhabited P] in
/-- No answer of a reader makes a cursor unsound. -/
theorem Sound.ready (hc : c.Sound) : c.ready.2.Sound ∧ c.ready.2.batchSize = c.batchSize := by
  rcases c.ready_cases with ⟨x, h, -⟩ | ⟨hi, hv, ⟨e, reader, -, h⟩ | ⟨a, reader, -,
    ⟨-, fault, h⟩ | ⟨⟨h1, h2⟩, h⟩⟩⟩
  · rw [h]
    exact ⟨hc, rfl⟩
  · rw [h]
    exact ⟨⟨⟨hc.levels_le, hc.values_le, hc.ended⟩, hc.values_le_levels, hc.levels_le_batch⟩, rfl⟩
  · rw [h]
    exact ⟨⟨⟨hc.levels_le, hc.values_le, hc.ended⟩, hc.values_le_levels, hc.levels_le_batch⟩, rfl⟩
  · rw [h]
    refine ⟨⟨⟨Nat.zero_le _, Nat.zero_le _, ?_⟩, h2, h1⟩, rfl⟩
    intro he
    have h0 : a.levelsRead = 0 := of_decide_eq_true he
    exact ⟨h0, by show a.valuesRead = 0; omega⟩

/-- The bounds of a column do not change. -/
theorem Moves.bounds (h : c.Moves as c') : c'.bounds = c.bounds := by
  induction h with
  | refl => rfl
  | @ready c c' as _ ih =>
    rw [ih]
    rcases c.ready_cases with ⟨x, h, -⟩ | ⟨-, -, ⟨e, reader, -, h⟩ | ⟨a, reader, -,
      ⟨-, fault, h⟩ | ⟨-, h⟩⟩⟩
    · rw [h]
    · rw [h]
    · rw [h]
      rfl
    · rw [h]
      rfl
  | look _ _ ih => exact ih
  | take _ _ ih => exact ih
  | pass _ _ ih => exact ih

/-- **A cursor stays sound**, whatever its reader says, and so the current batch stays within the
buffers. -/
theorem Moves.sound (h : c.Moves as c') (hc : c.Sound) :
    c'.Sound ∧ c'.batchSize = c.batchSize := by
  induction h with
  | refl => exact ⟨hc, rfl⟩
  | ready _ ih =>
    obtain ⟨hr, hn⟩ := hc.ready
    obtain ⟨hsound, hsize⟩ := ih hr
    exact ⟨hsound, hsize.trans hn⟩
  | look _ _ ih => exact ih hc
  | take hi _ ih => exact ih (hc.picked hi)
  | pass hi _ ih => exact ih (hc.advance hi)

/-- A run of values is taken one by one. -/
theorem moves_skip {n : Nat} (hl : c.levelIndex + n ≤ c.levelsRead)
    (hv : c.valueIndex + n ≤ c.valuesRead) :
    ∃ as, c.Moves as (c.skip n) ∧ as.filterMap Access.value? = c.upcoming n := by
  induction n generalizing c with
  | zero => exact ⟨[], .refl c, rfl⟩
  | succ n ih =>
    have hl' : c.taken.levelIndex + n ≤ c.taken.levelsRead := by
      show c.levelIndex + 1 + n ≤ c.levelsRead
      omega
    have hv' : c.taken.valueIndex + n ≤ c.taken.valuesRead := by
      show c.valueIndex + 1 + n ≤ c.valuesRead
      omega
    obtain ⟨as, hmoves, has⟩ := ih hl' hv'
    have hpass : c.picked.Moves as (c.taken.skip n) :=
      .pass (show c.levelIndex < c.levelsRead by omega) hmoves
    have htake := Moves.take (show c.valueIndex < c.valuesRead by omega) hpass
    rw [← skip_succ] at htake
    refine ⟨_, htake, ?_⟩
    rw [List.filterMap_cons, has, upcoming_succ]
    rfl

end Cursor

section Accounts

variable {ρ P : Type}

/-- A reader and the answers it gave. -/
structure Watched (ρ P : Type) where
  /-- The reader. -/
  inner : ρ
  /-- The answers, in order. -/
  answers : List (Except Error (Answer P)) := []

instance [ColumnReader ρ P] : ColumnReader (Watched ρ P) P where
  readBatch w q :=
    ((ColumnReader.readBatch w.inner q).1,
      ⟨(ColumnReader.readBatch w.inner q).2,
        w.answers ++ [(ColumnReader.readBatch w.inner q).1]⟩)
  supply w := ColumnReader.supply w.inner
  supply_readBatch_ok w := ColumnReader.supply_readBatch_ok w.inner
  supply_readBatch_error w := ColumnReader.supply_readBatch_error w.inner

theorem Watched.answers_of_readBatch [ColumnReader ρ P] {w w' : Watched ρ P} {q : Request}
    {x : Except Error (Answer P)} (h : ColumnReader.readBatch w q = (x, w')) :
    w'.answers = w.answers ++ [x] := by
  obtain ⟨rfl, rfl⟩ := Prod.mk.inj h
  rfl

/-- Asking for a batch writes down one answer at most. -/
theorem Cursor.answers_ready [ColumnReader ρ P] (c : Cursor (Watched ρ P) P) :
    c.reader.answers <+: c.ready.2.reader.answers := by
  have hgrow : ∀ {x : Except Error (Answer P)} {reader : Watched ρ P},
      ColumnReader.readBatch c.reader c.request = (x, reader) →
        c.reader.answers <+: reader.answers := by
    intro x reader ha
    rw [Watched.answers_of_readBatch ha]
    exact List.prefix_append _ _
  rcases c.ready_cases with ⟨x, h, -⟩ | ⟨-, -, ⟨e, reader, ha, h⟩ | ⟨a, reader, ha,
    ⟨-, fault, h⟩ | ⟨-, h⟩⟩⟩
  · have hsame : c.ready.2.reader.answers = c.reader.answers := congrArg (·.2.reader.answers) h
    exact ⟨[], by rw [hsame, List.append_nil]⟩
  · rw [h]
    exact hgrow ha
  · rw [h]
    exact hgrow ha
  · rw [h]
    exact hgrow ha

namespace Answer

variable [Inhabited P]

/-- The slots of a buffer of `size` that an answer leaves to be taken: as many as it says, unless
its counts cannot be true. -/
def offered (size : Nat) (buffer : Array P) : Except Error (Answer P) → List P
  | .error _ => []
  | .ok a =>
    if a.levelsRead ≤ size ∧ a.valuesRead ≤ a.levelsRead then
      (List.range' 0 a.valuesRead).map fun i =>
        (Cursor.overlay size buffer a.values).getD i default
    else []

/-- The buffer after an answer, once the slots that were left to be taken are blank. A refused
answer has filled the buffer all the same. -/
def leave (size : Nat) (buffer : Array P) : Except Error (Answer P) → Array P
  | .error _ => buffer
  | .ok a =>
    if a.levelsRead ≤ size ∧ a.valuesRead ≤ a.levelsRead then
      (List.range' 0 a.valuesRead).foldl (fun values i => values.setIfInBounds i default)
        (Cursor.overlay size buffer a.values)
    else Cursor.overlay size buffer a.values

/-- All slots that the answers of a reader leave to be taken, one behind the other. -/
def slots (size : Nat) : Array P → List (Except Error (Answer P)) → List P
  | _, [] => []
  | buffer, answer :: rest =>
    offered size buffer answer ++ slots size (leave size buffer answer) rest

theorem slots_append (size : Nat) (buffer : Array P) (answers : List (Except Error (Answer P)))
    (answer : Except Error (Answer P)) :
    slots size buffer (answers ++ [answer]) =
      slots size buffer answers ++ offered size (answers.foldl (leave size) buffer) answer := by
  induction answers generalizing buffer with
  | nil => exact List.append_nil _
  | cons first answers ih =>
    rw [List.cons_append, slots, slots, ih, List.append_assoc]
    rfl

end Answer

namespace Cursor

variable [Inhabited P] {c c' : Cursor (Watched ρ P) P} {as : List (Access P)} {xs : List P}

/-- A cursor that has taken the values `xs`: together with those left of the current batch they
are all that the answers left to be taken, and the buffer is as the answers left it. -/
structure Accounts (c : Cursor (Watched ρ P) P) (xs : List P) : Prop where
  slots : xs ++ c.pendingValues = Answer.slots c.batchSize #[] c.reader.answers
  buffer : c.spent.values = c.reader.answers.foldl (Answer.leave c.batchSize) #[]

variable [ColumnReader ρ P]

/-- A batch that comes in is accounted for. -/
theorem Accounts.ready (h : c.Accounts xs) (hc : c.Tidy) : c.ready.2.Accounts xs := by
  obtain ⟨hslots, hbuffer⟩ := h
  rcases c.ready_cases with ⟨x, hr, -⟩ | ⟨hi, hv, hr⟩
  · rw [hr]
    exact ⟨hslots, hbuffer⟩
  · -- behind the current batch nothing is left of it
    obtain ⟨hspent, -, hnil⟩ := hc.spent_eq_self hi hv
    rw [hspent] at hbuffer
    rw [hnil, List.append_nil] at hslots
    rcases hr with ⟨e, reader, ha, hr⟩ | ⟨a, reader, ha, ⟨hn, fault, hr⟩ | ⟨hn, hr⟩⟩
    · rw [hr]
      have hnil' : ({ c with reader := reader } : Cursor (Watched ρ P) P).pendingValues = [] :=
        pendingValues_eq_nil_iff.2 hv
      refine ⟨?_, ?_⟩
      · rw [hnil', List.append_nil, hslots]
        show _ = Answer.slots c.batchSize #[] reader.answers
        rw [Watched.answers_of_readBatch ha, Answer.slots_append]
        exact (List.append_nil _).symm
      · rw [Cursor.spent_eq_self (c := { c with reader := reader }) hi
          (Nat.le_antisymm hc.values_le hv)]
        show c.values = reader.answers.foldl (Answer.leave c.batchSize) #[]
        rw [Watched.answers_of_readBatch ha, List.foldl_append, ← hbuffer]
        rfl
    · rw [hr]
      have hnil' : ({ c.load a with reader := reader } : Cursor (Watched ρ P) P).pendingValues =
          [] := pendingValues_eq_nil_iff.2 hv
      refine ⟨?_, ?_⟩
      · rw [hnil', List.append_nil, hslots]
        show _ = Answer.slots c.batchSize #[] reader.answers
        rw [Watched.answers_of_readBatch ha, Answer.slots_append, Answer.offered, if_neg hn,
          List.append_nil]
      · rw [Cursor.spent_eq_self (c := { c.load a with reader := reader }) hi
          (Nat.le_antisymm hc.values_le hv)]
        show overlay c.batchSize c.values a.values =
          reader.answers.foldl (Answer.leave c.batchSize) #[]
        rw [Watched.answers_of_readBatch ha, List.foldl_append, ← hbuffer]
        exact (if_neg hn).symm
    · rw [hr]
      refine ⟨?_, ?_⟩
      · show xs ++ (c.receive a reader).pendingValues =
          Answer.slots c.batchSize #[] reader.answers
        rw [Watched.answers_of_readBatch ha, Answer.slots_append, ← hslots, ← hbuffer,
          Answer.offered, if_pos hn]
        rfl
      · show (c.receive a reader).spent.values =
          reader.answers.foldl (Answer.leave c.batchSize) #[]
        rw [Watched.answers_of_readBatch ha, List.foldl_append, ← hbuffer]
        exact (if_pos hn).symm

/-- **Every slot is taken at most once, and in order.** -/
theorem Moves.accounts (h : c.Moves as c') (hc : c.Sound) (hx : c.Accounts xs) :
    c'.Accounts (xs ++ as.filterMap Access.value?) := by
  induction h generalizing xs with
  | refl =>
    rw [List.filterMap_nil, List.append_nil]
    exact hx
  | ready _ ih => exact ih hc.ready.1 (hx.ready hc.toTidy)
  | look _ _ ih => exact ih hc hx
  | @take c c' as hi _ ih =>
    have hpick : c.picked.Accounts (xs ++ [c.values.getD c.valueIndex default]) := by
      refine ⟨?_, ?_⟩
      · rw [List.append_assoc]
        show xs ++ (c.values.getD c.valueIndex default :: c.taken.pendingValues) = _
        rw [← pendingValues_taken hi]
        exact hx.slots
      · show c.taken.spent.values = _
        rw [spent_taken hi]
        exact hx.buffer
    have hrest := ih (hc.picked hi) hpick
    rw [List.append_assoc] at hrest
    exact hrest
  | pass hi _ ih => exact ih (hc.advance hi) ⟨hx.slots, hx.buffer⟩

omit [ColumnReader ρ P] in
/-- Nothing was taken from a new cursor. -/
theorem accounts_of_make {reader : ρ} {column : String} {b : LevelBounds} {n : Nat}
    (h : make (⟨reader, []⟩ : Watched ρ P) column b n = .ok c) : c.Accounts [] := by
  obtain ⟨hc, hreader, -, hvalues, hv⟩ := sound_of_make h
  have hle := hc.values_le
  have hnil : c.pendingValues = [] := pendingValues_eq_nil_iff.2 (by omega)
  refine ⟨?_, ?_⟩
  · rw [hnil, hreader]
    rfl
  · rw [hreader]
    show c.blanked (c.valuesRead - c.valueIndex) = #[]
    rw [hv, Nat.zero_sub]
    exact hvalues

end Cursor

end Accounts

end Striping
