import Mathlib.Data.List.Basic
import Mathlib.Tactic.Common
import Striping.Proofs.Stripes

/-!
# Calls to a stripe

**Scope.** A stripe that begins empty, of any column that stores definition levels or is of no
list, and any calls to it: writes of any batches, reads of any length with room for any number of
values, and rewinds.

* `Stripe.Call`, `Stripe.run`: any calls in a row, and their replies.
* `Stripe.Log`, `Stripe.Log.Step`: a list of positions that grows at its end, a list of those seen
  since the last rewind, and what a call may do to them.
* `Stripe.refusal?_eq_none_iff`: a batch is taken exactly if it is the batch of some positions.
* `Stripe.Follows.step`: **every call is a step of the log.**
* `Stripe.run_faithful`: so is every run. What is kept are the positions that were taken, each with
  its own value, and what was seen is the beginning of them.
-/

namespace Striping

section Placing

variable {P : Type} {present : Level} {ls : List Levels} {xs : List P}

theorem Position.map_levels_place (present : Level) (ls : List Levels) (xs : List P) :
    (place present ls xs).map (·.levels) = ls := by
  induction ls generalizing xs with
  | nil => rfl
  | cons l ls ih =>
    rw [place]
    split <;> rw [List.map_cons, ih]

/-- If there are as many values as present positions, each value is dealt out to one of them. -/
theorem Position.place_of_countP
    (h : ls.countP (·.definition == present) = xs.length) :
    (place present ls xs).filterMap (·.value) = xs ∧
      ∀ p ∈ place present ls xs, p.value.isSome ↔ p.levels.definition = present := by
  induction ls generalizing xs with
  | nil =>
    obtain rfl := List.length_eq_zero_iff.1 h.symm
    exact ⟨rfl, fun p hp => (nomatch hp)⟩
  | cons l ls ih =>
    rw [place]
    by_cases hl : l.definition = present
    · have h : ls.countP (·.definition == present) + 1 = xs.length := by
        simpa [List.countP_cons, hl] using h
      obtain ⟨x, xs, rfl⟩ := List.exists_cons_of_length_eq_add_one h.symm
      obtain ⟨hvalues, hpresent⟩ := ih (Nat.succ.inj h)
      rw [if_pos hl]
      refine ⟨congrArg (x :: ·) hvalues, List.forall_mem_cons.2 ⟨?_, hpresent⟩⟩
      exact ⟨fun _ => hl, fun _ => rfl⟩
    · have h : ls.countP (·.definition == present) = xs.length := by
        simpa [List.countP_cons, hl] using h
      obtain ⟨hvalues, hpresent⟩ := ih h
      rw [if_neg hl]
      refine ⟨hvalues, List.forall_mem_cons.2 ⟨?_, hpresent⟩⟩
      exact ⟨fun hx => (nomatch hx), fun hx => absurd hx hl⟩

/-- Positions that have values as their levels say are dealt their own values. -/
theorem Position.place_eq {b : LevelBounds} {ps : List (Position P)}
    (h : ∀ p ∈ ps, p.Paired b) :
    place b.definition (ps.map (·.levels)) (ps.filterMap (·.value)) = ps := by
  induction ps with
  | nil => rfl
  | cons p ps ih =>
    rw [List.forall_mem_cons] at h
    obtain ⟨levels, value⟩ := p
    have hpresent := h.1.present_iff
    rw [List.map_cons, place]
    cases value with
    | none =>
      have hne : levels.definition ≠ b.definition := fun hl => by simpa using hpresent.2 hl
      rw [if_neg hne, List.filterMap_cons_none rfl, ih h.2]
    | some x =>
      rw [if_pos (hpresent.1 rfl), Position.values_cons]
      show _ :: place b.definition _ (ps.filterMap (·.value)) = _
      rw [ih h.2]
      rfl

end Placing

namespace Stripe

variable {P : Type} {s : Stripe P} {b : LevelBounds} {ps : List (Position P)}

/-! ## Batches and positions -/

/-- Positions with these levels and values. -/
theorem exists_paired {ls : List Levels} {xs : List P}
    (hcount : ls.countP (·.definition == b.definition) = xs.length)
    (hd : b.storesDefinitions = false → ∀ l ∈ ls, l.definition = b.definition)
    (hr : b.storesRepetitions = false → ∀ l ∈ ls, l.repetition = 0) :
    ∃ qs : List (Position P), (∀ q ∈ qs, q.Paired b) ∧ qs.map (·.levels) = ls ∧
      qs.filterMap (·.value) = xs := by
  have hlevels := Position.map_levels_place b.definition ls xs
  obtain ⟨hvalues, hpresent⟩ := Position.place_of_countP hcount
  refine ⟨_, fun q hq => ?_, hlevels, hvalues⟩
  have hmem : q.levels ∈ ls := hlevels ▸ List.mem_map_of_mem hq
  exact ⟨hpresent q hq, fun hs => hd hs _ hmem, fun hs => hr hs _ hmem⟩

/-- Two lists of levels, entry by entry. -/
def pairs (ds rs : List Level) : List Levels := (ds.zip rs).map fun e => ⟨e.1, e.2⟩

theorem map_pairs {ds rs : List Level} (h : rs.length = ds.length) :
    (pairs ds rs).map (·.definition) = ds ∧ (pairs ds rs).map (·.repetition) = rs := by
  unfold pairs
  rw [List.map_map, List.map_map]
  exact ⟨List.map_fst_zip (Nat.le_of_eq h.symm), List.map_snd_zip (Nat.le_of_eq h)⟩

/-- A batch whose levels and values are those of some positions is their batch. -/
theorem exists_ofPositions {batch : Batch P} (ds rs : List Level) (hlength : rs.length = ds.length)
    (hcount : ds.countP (· == b.definition) = batch.values.size)
    (hd : batch.definitions = if b.storesDefinitions then some ds.toArray else none)
    (hr : batch.repetitions = if b.storesRepetitions then some rs.toArray else none)
    (hd' : b.storesDefinitions = false → ∀ d ∈ ds, d = b.definition)
    (hr' : b.storesRepetitions = false → ∀ r ∈ rs, r = 0) :
    ∃ qs, (∀ q ∈ qs, q.Paired b) ∧ batch = .ofPositions b qs := by
  obtain ⟨hds, hrs⟩ := map_pairs hlength
  obtain ⟨qs, hq, hlevels, hvalues⟩ : ∃ qs : List (Position P), (∀ q ∈ qs, q.Paired b) ∧
      qs.map (·.levels) = pairs ds rs ∧ qs.filterMap (·.value) = batch.values.toList := by
    refine exists_paired ?_ (fun hs l hl => hd' hs _ ?_) fun hs l hl => hr' hs _ ?_
    · rw [Array.length_toList, ← hcount, ← congrArg (List.countP (· == b.definition)) hds,
        List.countP_map]
      rfl
    · exact hds ▸ List.mem_map_of_mem hl
    · exact hrs ▸ List.mem_map_of_mem hl
  refine ⟨qs, hq, ?_⟩
  have hdefinition : qs.map (·.levels.definition) = ds := by
    rw [← hds, ← hlevels, List.map_map]
    rfl
  have hrepetition : qs.map (·.levels.repetition) = rs := by
    rw [← hrs, ← hlevels, List.map_map]
    rfl
  unfold Batch.ofPositions
  rw [hdefinition, hrepetition, hvalues, ← hd, ← hr, Array.toArray_toList]

/-- Columns that say how many positions a batch has: by definition levels, or else by values. -/
def Counted (b : LevelBounds) : Prop := 0 < b.definition ∨ b.repetition = 0

theorem Counted.repetitions (hb : Counted b) (hd : b.storesDefinitions = false) :
    b.storesRepetitions = false := by
  have hdefinition : ¬ 0 < b.definition := of_decide_eq_false hd
  have hrepetition := hb.resolve_left hdefinition
  unfold LevelBounds.storesRepetitions
  rw [hrepetition]
  rfl

/-- What is checked of a batch. -/
theorem checked_of_refusal? {batch : Batch P} (h : s.refusal? batch = none) :
    batch.definitions.isSome = s.bounds.storesDefinitions ∧
      batch.repetitions.isSome = s.bounds.storesRepetitions ∧
      ∀ ds, batch.definitions = some ds →
        (batch.repetitions.map Array.size).getD ds.size = ds.size ∧
          ds.toList.countP (· == s.bounds.definition) = batch.values.size := by
  unfold refusal? at h
  split at h
  case isTrue => cases h
  case isFalse hkinds =>
    obtain ⟨hd, hr⟩ := not_or.1 hkinds
    refine ⟨by simpa using hd, by simpa using hr, fun ds hds => ?_⟩
    rw [hds] at h
    simp only at h
    split_ifs at h with hcounts hvalues
    rw [Array.countP_toList]
    exact ⟨Decidable.not_not.1 hcounts, Decidable.not_not.1 hvalues⟩

/-- The levels of one kind, or some that stand in for them. -/
def levelsOr (levels : Option (Array Level)) (others : List Level) : List Level :=
  (levels.map Array.toList).getD others

/-- Levels that are there just if they are stored. -/
theorem eq_levelsOr {levels : Option (Array Level)} {stored : Bool} (h : levels.isSome = stored)
    (others : List Level) :
    levels = if stored then some (levelsOr levels others).toArray else none := by
  subst h
  cases levels <;> rfl

theorem mem_levelsOr {levels : Option (Array Level)} {stored : Bool} {n : Nat} {d : Level}
    (h : levels.isSome = stored) (hs : stored = false) :
    ∀ l ∈ levelsOr levels (.replicate n d), l = d := by
  rw [hs, Option.isSome_eq_false_iff, Option.isNone_iff_eq_none] at h
  subst h
  exact fun l => List.eq_of_mem_replicate

/-- The lists of levels are equally long, and as many values are there as are called present. The
levels that are not stored are the same for all positions, of which there are as many as values. -/
theorem levelsOr_counts {batch : Batch P} (hb : Counted s.bounds)
    (hd : batch.definitions.isSome = s.bounds.storesDefinitions)
    (hr : batch.repetitions.isSome = s.bounds.storesRepetitions)
    (hcounts : ∀ ds, batch.definitions = some ds →
      (batch.repetitions.map Array.size).getD ds.size = ds.size ∧
        ds.toList.countP (· == s.bounds.definition) = batch.values.size) {ds : List Level}
    (hds : ds = levelsOr batch.definitions (.replicate batch.values.size s.bounds.definition)) :
    (levelsOr batch.repetitions (.replicate ds.length 0)).length = ds.length ∧
      ds.countP (· == s.bounds.definition) = batch.values.size := by
  cases hdefinitions : batch.definitions with
  | none =>
    rw [hdefinitions] at hd hds
    obtain rfl : ds = .replicate batch.values.size s.bounds.definition := hds
    rw [hb.repetitions hd.symm, Option.isSome_eq_false_iff, Option.isNone_iff_eq_none] at hr
    rw [hr]
    refine ⟨List.length_replicate, ?_⟩
    rw [List.countP_replicate, if_pos (beq_self_eq_true _)]
  | some levels =>
    rw [hdefinitions] at hds
    obtain rfl : ds = levels.toList := hds
    obtain ⟨hsize, hcount⟩ := hcounts levels hdefinitions
    refine ⟨?_, hcount⟩
    cases hrepetitions : batch.repetitions with
    | none => exact List.length_replicate
    | some repetitions =>
      rw [hrepetitions] at hsize
      exact hsize

/-- A batch that is not refused is the batch of some positions. -/
theorem exists_of_refusal? {batch : Batch P} (hb : Counted s.bounds)
    (h : s.refusal? batch = none) :
    ∃ qs, (∀ q ∈ qs, q.Paired s.bounds) ∧ batch = .ofPositions s.bounds qs := by
  obtain ⟨hd, hr, hcounts⟩ := checked_of_refusal? h
  obtain ⟨hlength, hcount⟩ := levelsOr_counts hb hd hr hcounts rfl
  exact exists_ofPositions _ _ hlength hcount (eq_levelsOr hd _) (eq_levelsOr hr _)
    (mem_levelsOr hd) (mem_levelsOr hr)

/-- **A stripe refuses a batch exactly if it is the batch of no positions.** -/
theorem refusal?_eq_none_iff {batch : Batch P} (hb : Counted s.bounds) :
    s.refusal? batch = none ↔
      ∃ qs, (∀ q ∈ qs, q.Paired s.bounds) ∧ batch = .ofPositions s.bounds qs := by
  constructor
  · exact exists_of_refusal? hb
  · rintro ⟨qs, hq, rfl⟩
    exact refusal?_ofPositions hq

/-! ## Stored positions -/

/-- Levels that are stored, or stand in for those that are not. -/
theorem getD_stored {stored : Bool} {levels : Array Level} {f : Position P → Level} {level : Level}
    (hl : levels.toList = if stored then ps.map f else [])
    (hd : stored = false → ∀ p ∈ ps, f p = level) {i : Nat} (hi : i < ps.length) :
    levels.getD i level = f ps[i] := by
  rw [Array.getD_eq_getD_getElem?, ← Array.getElem?_toList, hl]
  cases stored with
  | true => simp [hi]
  | false => exact (hd rfl _ (List.getElem_mem hi)).symm

/-- **The positions that are shown are those that are kept.** -/
theorem Stores.positions_eq (h : s.Stores ps) : s.positions = ps := by
  have hlevels : (List.range s.size).map s.levelsAt = ps.map (·.levels) := by
    rw [h.size]
    refine List.ext_getElem (by simp) fun i hi _ => ?_
    have hi : i < ps.length := by simpa using hi
    rw [List.getElem_map, List.getElem_map, List.getElem_range]
    unfold levelsAt
    rw [getD_stored h.definitions (fun hs p hp => (h.paired p hp).definition_eq hs) hi,
      getD_stored h.repetitions (fun hs p hp => (h.paired p hp).repetition_eq hs) hi]
  unfold positions
  rw [hlevels, h.values, Position.place_eq h.paired]

/-- There are as many values as positions at the greatest definition level. -/
theorem Stores.size_values (h : s.Stores ps) :
    s.values.size = ps.countP (·.levels.definition == s.bounds.definition) := by
  rw [← Array.length_toList, h.values, ← countP_definition h.paired, List.countP_map]
  rfl

/-! ## Calls -/

/-- A call to a stripe. -/
inductive Call (P : Type) where
  /-- Append a batch. -/
  | write (batch : Batch P)
  /-- Read up to `most` positions, into buffers of so many levels of the kinds that are stored and
  of `room` values. -/
  | read (most room : Nat)
  /-- Go back to the first position. -/
  | rewind

/-- What a stripe replies to a call. -/
inductive Reply (P : Type) where
  /-- How a write ended. -/
  | wrote (result : Except Error Unit)
  /-- What was read. -/
  | gave (result : Except Error (Answer P))
  /-- The stripe went back. -/
  | rewound

/-- Makes a call. -/
def call (s : Stripe P) : Call P → Reply P × Stripe P
  | .write batch => (.wrote (s.write batch).1, (s.write batch).2)
  | .read most room =>
    let request := ⟨most, s.bounds.storesDefinitions, s.bounds.storesRepetitions, room⟩
    (.gave (s.read request).1, (s.read request).2)
  | .rewind => (.rewound, s.rewind)

/-- Makes some calls one after the other, whether or not the ones before have failed. -/
def run : Stripe P → List (Call P) → List (Reply P) × Stripe P
  | s, [] => ([], s)
  | s, call :: calls =>
    ((s.call call).1 :: ((s.call call).2.run calls).1, ((s.call call).2.run calls).2)

/-- The positions that a column was given, and those of them that were seen since the last
rewind. -/
structure Log (P : Type) where
  /-- The positions that were taken, in order. -/
  stored : List (Position P)
  /-- The positions that were read since the last rewind, in order. -/
  seen : List (Position P)

/-- What a call may do to the log of a column with the bounds `b`, and what it may reply. -/
inductive Log.Step (b : LevelBounds) (log : Log P) : Call P → Reply P → Log P → Prop where
  /-- The batch of some positions is taken. -/
  | wrote {qs : List (Position P)} (hq : ∀ q ∈ qs, q.Paired b) :
      Step b log (.write (.ofPositions b qs)) (.wrote (.ok ())) ⟨log.stored ++ qs, log.seen⟩
  /-- A batch of no positions is refused, and nothing happens. -/
  | refused {batch : Batch P} {e : Error}
      (hno : ¬∃ qs, (∀ q ∈ qs, q.Paired b) ∧ batch = .ofPositions b qs) :
      Step b log (.write batch) (.wrote (.error e)) log
  /-- The positions behind those already seen are given, as many as are asked for, have room, and
  are there. -/
  | gave {most room : Nat} {a : Answer P} {qs : List (Position P)} (ha : a.Carries b qs)
      (hnext : log.seen ++ qs <+: log.stored)
      (hlength : qs.length = min (min most room) (log.stored.length - log.seen.length)) :
      Step b log (.read most room) (.gave (.ok a)) ⟨log.stored, log.seen ++ qs⟩
  /-- Nothing counts as seen any more. -/
  | rewound : Step b log .rewind .rewound ⟨log.stored, []⟩

/-- What some calls do to the log, one after the other. -/
inductive Log.Steps (b : LevelBounds) : Log P → List (Call P) → List (Reply P) → Log P → Prop where
  | nil (log : Log P) : Steps b log [] [] log
  | cons {log log' log'' : Log P} {call : Call P} {reply : Reply P} {calls : List (Call P)}
      {replies : List (Reply P)} (h : log.Step b call reply log')
      (hs : Steps b log' calls replies log'') :
      Steps b log (call :: calls) (reply :: replies) log''

/-- A stripe of a column with the bounds `b` that has come to where the log is. -/
structure Follows (s : Stripe P) (b : LevelBounds) (log : Log P) : Prop where
  bounds : s.bounds = b
  stores : s.Stores log.stored
  readTo : s.ReadTo log.stored log.seen.length
  seen : log.seen <+: log.stored

variable {log : Log P}

theorem follows_empty (b : LevelBounds) : ({ bounds := b } : Stripe P).Follows b ⟨[], []⟩ where
  bounds := rfl
  stores := ⟨fun p hp => absurd hp List.not_mem_nil, by split <;> rfl, by split <;> rfl, rfl⟩
  readTo := ⟨Nat.le_refl 0, rfl, rfl⟩
  seen := List.prefix_refl []

/-- A place in a stripe is not moved by what is appended. -/
theorem ReadTo.append {i : Nat} {s' : Stripe P} (hi : s.ReadTo ps i)
    (hl : s'.levelsRead = s.levelsRead) (hv : s'.valuesRead = s.valuesRead)
    (qs : List (Position P)) : s'.ReadTo (ps ++ qs) i where
  le := by
    rw [List.length_append]
    exact Nat.le_add_right_of_le hi.le
  levelsRead := hl.trans hi.levelsRead
  valuesRead := by rw [hv, hi.valuesRead, List.take_append_of_le_length hi.le]

theorem Follows.write (h : s.Follows b log) (hb : Counted b) (batch : Batch P) :
    ∃ log', log.Step b (.write batch) (s.call (.write batch)).1 log' ∧
      (s.call (.write batch)).2.Follows b log' := by
  obtain ⟨rfl, hstores, hread, hseen⟩ := h
  show ∃ log', log.Step s.bounds (.write batch) (.wrote (s.write batch).1) log' ∧
    (s.write batch).2.Follows s.bounds log'
  by_cases hpositions : ∃ qs, (∀ q ∈ qs, q.Paired s.bounds) ∧ batch = .ofPositions s.bounds qs
  · obtain ⟨qs, hq, rfl⟩ := hpositions
    obtain ⟨s', hw, hstores', hbounds, hl, hv⟩ := hstores.write hq
    rw [hw]
    exact ⟨_, .wrote hq, hbounds, hstores', hread.append hl hv qs,
      hseen.trans (List.prefix_append _ _)⟩
  · obtain ⟨fault, hfault⟩ : ∃ fault, s.refusal? batch = some fault :=
      Option.ne_none_iff_exists'.1 (mt (refusal?_eq_none_iff hb).1 hpositions)
    have hw : s.write batch = (.error (.invalidArgument fault), s) := by
      unfold Stripe.write
      rw [hfault]
    rw [hw]
    exact ⟨log, .refused hpositions, rfl, hstores, hread, hseen⟩

theorem Follows.read (h : s.Follows b log) (most room : Nat) :
    ∃ log', log.Step b (.read most room) (s.call (.read most room)).1 log' ∧
      (s.call (.read most room)).2.Follows b log' := by
  obtain ⟨rfl, hstores, hread, hseen⟩ := h
  obtain ⟨a, ha, hcarries⟩ := hstores.answer hread most room
  obtain ⟨hread', -⟩ := hread.past hcarries
  have hcall : s.call (.read most room) = (.gave (.ok a), s.past a) := by
    unfold call Stripe.read
    simp only [ha]
    rfl
  generalize hqs : (log.stored.drop log.seen.length).take (min most room) = qs at hcarries
  have hnext : log.seen ++ qs <+: log.stored := by
    obtain ⟨rest, hrest⟩ := hseen
    rw [← hqs, ← hrest, List.drop_left]
    exact List.prefix_append_right_inj _ |>.2 (List.take_prefix _ _)
  rw [hcall]
  refine ⟨_, .gave hcarries hnext ?_, rfl, ?_, ?_, hnext⟩
  · rw [← hqs, List.length_take, List.length_drop]
  · exact ⟨hstores.paired, hstores.definitions, hstores.repetitions, hstores.values⟩
  · rw [List.length_append, ← hcarries.levelsRead]
    exact hread'

/-- **Every call is a step of the log.** -/
theorem Follows.step (h : s.Follows b log) (hb : Counted b) (call : Call P) :
    ∃ log', log.Step b call (s.call call).1 log' ∧ (s.call call).2.Follows b log' := by
  cases call with
  | write batch => exact h.write hb batch
  | read most room => exact h.read most room
  | rewind =>
    refine ⟨_, .rewound, h.bounds, ⟨h.stores.paired, h.stores.definitions, h.stores.repetitions,
      h.stores.values⟩, ⟨Nat.zero_le _, rfl, rfl⟩, List.nil_prefix⟩

/-- So is every run of calls. -/
theorem Follows.run (h : s.Follows b log) (hb : Counted b) (calls : List (Call P)) :
    ∃ log', log.Steps b calls (s.run calls).1 log' ∧ (s.run calls).2.Follows b log' := by
  induction calls generalizing s log with
  | nil => exact ⟨log, .nil log, h⟩
  | cons call calls ih =>
    obtain ⟨log₁, hstep, h₁⟩ := h.step hb call
    obtain ⟨log', hsteps, h'⟩ := ih h₁
    exact ⟨log', .cons hstep hsteps, h'⟩

/-- What is seen of a stripe that has come to where the log is. -/
structure Faithful (s : Stripe P) (log : Log P) : Prop where
  /-- A refused write changes nothing. -/
  write_refused : ∀ batch e, (s.write batch).1 = .error e → (s.write batch).2 = s
  /-- There are as many values as positions at the greatest definition level. -/
  size_values : s.values.size = s.positions.countP (·.levels.definition == s.bounds.definition)
  /-- The positions that are shown are those that were taken. -/
  positions_eq : s.positions = log.stored
  /-- Just the positions at the greatest definition level have a value. -/
  isSome_value : ∀ p ∈ s.positions, p.value.isSome ↔ p.levels.definition = s.bounds.definition
  /-- All of them are counted. -/
  size_eq : s.size = log.stored.length
  /-- Those that were seen are the first ones. -/
  seen_prefix : log.seen <+: log.stored

theorem write_error {batch : Batch P} {e : Error} (h : (s.write batch).1 = .error e) :
    (s.write batch).2 = s := by
  unfold Stripe.write at h ⊢
  split at h
  · rfl
  · cases h

theorem Follows.faithful (h : s.Follows b log) : s.Faithful log where
  write_refused _ _ := write_error
  size_values := by rw [h.stores.positions_eq, h.stores.size_values]
  positions_eq := h.stores.positions_eq
  isSome_value := by
    rw [h.stores.positions_eq]
    exact fun p hp => (h.stores.paired p hp).present_iff
  size_eq := h.stores.size
  seen_prefix := h.seen

/-- **A stripe is faithful to what it is given, whatever is called in between.** It takes just the
batches of positions and keeps these in order, it gives them back in order and once since the last
rewind, and it never fails to. -/
theorem run_faithful {b : LevelBounds} (hb : Counted b) (calls : List (Call P)) :
    ∃ log, Log.Steps b ⟨[], []⟩ calls (run { bounds := b } calls).1 log ∧
      (run { bounds := b } calls).2.Faithful log := by
  obtain ⟨log, hsteps, hfollows⟩ := (follows_empty b).run hb calls
  exact ⟨log, hsteps, hfollows.faithful⟩

/-- Three positions, two of which have values, then a batch with a value too few, a read with room
for one value, a position more, and reads from there and from the first position on. -/
def mixedCalls : List (Call Int32) :=
  [.write ⟨some #[2, 1, 2], some #[0, 0, 1], #[5, 6]⟩, .write ⟨some #[2, 2], some #[0, 1], #[7]⟩,
    .read 8 1, .write ⟨some #[0], some #[0], #[]⟩, .read 2 8, .rewind, .read 8 8]

theorem run_faithful_mixed :
    Counted ⟨2, 1⟩ ∧
      (∃ log, Log.Steps ⟨2, 1⟩ ⟨[], []⟩ mixedCalls (run { bounds := ⟨2, 1⟩ } mixedCalls).1 log ∧
        (run { bounds := ⟨2, 1⟩ } mixedCalls).2.Faithful log) ∧
      (run { bounds := ⟨2, 1⟩ } mixedCalls).2.positions =
        [⟨⟨2, 0⟩, some 5⟩, ⟨⟨1, 0⟩, none⟩, ⟨⟨2, 1⟩, some 6⟩, ⟨⟨0, 0⟩, none⟩] := by
  have hb : Counted ⟨2, 1⟩ := .inl (by decide)
  exact ⟨hb, run_faithful hb mixedCalls, by decide +kernel⟩

end Stripe

end Striping
