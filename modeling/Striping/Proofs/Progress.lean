import Striping.Proofs.Bulk
import Striping.Proofs.Calls

/-!
# Reading goes on and ends

**Scope.** One assembler over any reader that reports no positions after finitely many answers. What
it answers until then may be wrong in any way, and it may fail and go on.

* `Outcome.Loops`: a loop that goes on until its step gives nothing or fails.
  `Outcome.Loops.unique`: it comes to one end at most. `Outcome.loops_upTo`: it comes to that of a
  bounded loop, if a measure below the bound falls with every round.
* `Cursor.Consumes`: moves of a cursor that pass a position. `Node.assemble_consumes`: **every value
  takes a position**, at every node and whatever the levels are.
* `EndsAfter`, `Ending`: the readers.
* `Assembler.reading_ends`: **every loop of reading ends**, after no more rounds than there are
  positions left, so the bounds of the loops are never met.
-/

namespace Striping

namespace Outcome

variable {σ α : Type} {step : σ → Outcome σ (Option α)} {s s' : σ} {o : Outcome σ (List α)}

/-- A loop that takes a step from state to state until one gives nothing or fails, and collects what
the steps before have given. It is not bounded; `Loops step k s o` holds if it goes on for `k`
rounds from `s` and ends with `o`. -/
inductive Loops (step : σ → Outcome σ (Option α)) : Nat → σ → Outcome σ (List α) → Prop where
  | ended {s s' : σ} (h : step s = (.ok none, s')) : Loops step 0 s (.ok [], s')
  | failed {s s' : σ} {e : Error} (h : step s = (.error e, s')) : Loops step 0 s (.error e, s')
  | again {k : Nat} {s s' : σ} {a : α} {o : Outcome σ (List α)} (h : step s = (.ok (some a), s'))
      (hs : Loops step k s' o) : Loops step (k + 1) s (o.map (a :: ·))

/-- A loop comes to one end at most. -/
theorem Loops.unique {k k' : Nat} {o' : Outcome σ (List α)} (h : Loops step k s o)
    (h' : Loops step k' s o') : k = k' ∧ o = o' := by
  induction h generalizing k' o' with
  | ended h =>
    cases h' with
    | ended h' =>
      obtain ⟨-, rfl⟩ := Outcome.ok_inj (h.symm.trans h')
      exact ⟨rfl, rfl⟩
    | failed h' => cases h.symm.trans h'
    | again h' _ => cases h.symm.trans h'
  | failed h =>
    cases h' with
    | ended h' => cases h.symm.trans h'
    | failed h' => cases h.symm.trans h'; exact ⟨rfl, rfl⟩
    | again h' _ => cases h.symm.trans h'
  | again h _ ih =>
    cases h' with
    | ended h' => cases h.symm.trans h'
    | failed h' => cases h.symm.trans h'
    | again h' hs' =>
      obtain ⟨ha, rfl⟩ := Outcome.ok_inj (h.symm.trans h')
      obtain rfl := Option.some.inj ha
      obtain ⟨rfl, rfl⟩ := ih hs'
      exact ⟨rfl, rfl⟩

/-- The same loop, stopped after so many rounds. -/
def upTo (step : σ → Outcome σ (Option α)) : Nat → σ → Outcome σ (List α)
  | 0, s => (.ok [], s)
  | n + 1, s =>
    match step s with
    | (.error e, s) => (.error e, s)
    | (.ok none, s) => (.ok [], s)
    | (.ok (some a), s) => (upTo step n s).map (a :: ·)

section Measure

variable (I : σ → Prop) (μ : σ → Nat)
  (hstep : ∀ s a s', I s → step s = (.ok (some a), s') → I s' ∧ μ s' < μ s)

include hstep

/-- **A loop ends if a measure falls with every round**, and a bound above the measure is not
met. -/
theorem loops_upTo {n : Nat} (hs : I s) (hn : μ s < n) :
    ∃ k ≤ μ s, Loops step k s (upTo step n s) := by
  induction n generalizing s with
  | zero => exact absurd hn (Nat.not_lt_zero _)
  | succ n ih =>
    rw [upTo]
    rcases h : step s with ⟨e | _ | a, s'⟩
    · exact ⟨0, Nat.zero_le _, .failed h⟩
    · exact ⟨0, Nat.zero_le _, .ended h⟩
    · obtain ⟨hs', hlt⟩ := hstep s a s' hs h
      obtain ⟨k, hk, hloop⟩ := ih hs' (by omega)
      exact ⟨k + 1, by omega, .again h hloop⟩

/-- A step that also counts down what it may still give. -/
def counted (step : σ → Outcome σ (Option α)) : σ × Nat → Outcome (σ × Nat) (Option α)
  | (s, 0) => (.ok none, (s, 0))
  | (s, n + 1) => (step s).within (·, n)

/-- A loop that counts down ends after as many rounds, or before if a measure falls. -/
theorem loops_counted (hs : I s) (n : Nat) :
    ∃ k ≤ min n (μ s), ∃ rest,
      Loops (counted step) k (s, n) ((upTo step n s).within (·, rest)) := by
  induction n generalizing s with
  | zero => exact ⟨0, Nat.zero_le _, 0, .ended rfl⟩
  | succ n ih =>
    rw [upTo]
    rcases h : step s with ⟨e | _ | a, s'⟩
    · exact ⟨0, Nat.zero_le _, n, .failed (by rw [counted, h]; rfl)⟩
    · exact ⟨0, Nat.zero_le _, n, .ended (by rw [counted, h]; rfl)⟩
    · obtain ⟨hs', hlt⟩ := hstep s a s' hs h
      obtain ⟨k, hk, rest, hloop⟩ := ih hs'
      exact ⟨k + 1, by omega, rest, .again (by rw [counted, h]; rfl) hloop⟩

end Measure

end Outcome

namespace Cursor

variable {ρ P : Type} [Inhabited P] [ColumnReader ρ P] {c c' c'' : Cursor ρ P}
  {as : List (Access P)}

/-! ## Positions that are passed -/

/-- Moves of a cursor among which a position is passed. -/
def Consumes (c c' : Cursor ρ P) : Prop :=
  ∃ as c₁ bs, c.Moves as c₁ ∧ c₁.levelIndex < c₁.levelsRead ∧ c₁.advance.Moves bs c'

theorem consumes_advance (hi : c.levelIndex < c.levelsRead) : c.Consumes c.advance :=
  ⟨[], c, [], .refl c, hi, .refl _⟩

theorem Consumes.after (hs : c'.Consumes c'') (h : c.Moves as c') : c.Consumes c'' := by
  obtain ⟨bs, c₁, cs, hm, hi, hm'⟩ := hs
  exact ⟨as ++ bs, c₁, cs, h.trans hm, hi, hm'⟩

theorem Consumes.trans_moves (hs : c.Consumes c') (h : c'.Moves as c'') : c.Consumes c'' := by
  obtain ⟨bs, c₁, cs, hm, hi, hm'⟩ := hs
  exact ⟨bs, c₁, cs ++ as, hm, hi, hm'.trans h⟩

omit [Inhabited P] in
/-- Asking for a batch adds nothing to what is left. -/
theorem left_ready (c : Cursor ρ P) : c.ready.2.left ≤ c.left := by
  have hok {a : Answer P} {reader : ρ}
      (ha : ColumnReader.readBatch c.reader c.request = (.ok a, reader)) :
      ColumnReader.supply reader + a.levelsRead ≤ ColumnReader.supply c.reader := by
    have hs := ColumnReader.supply_readBatch_ok c.reader c.request a (by rw [ha])
    rwa [ha] at hs
  rcases c.ready_cases with ⟨x, h, -⟩ | ⟨hi, -, ⟨e, reader, ha, h⟩ | ⟨a, reader, ha,
    ⟨-, fault, h⟩ | ⟨-, h⟩⟩⟩
  · rw [h]
  · have hs := ColumnReader.supply_readBatch_error c.reader c.request e (by rw [ha])
    rw [ha] at hs
    rw [h]
    exact Nat.add_le_add_left hs _
  · have hs := hok ha
    rw [h]
    show c.levelsRead - c.levelIndex + ColumnReader.supply reader ≤ c.left
    unfold left
    omega
  · have hs := hok ha
    rw [h]
    show a.levelsRead - 0 + ColumnReader.supply reader ≤ c.left
    unfold left
    omega

omit [Inhabited P] in
theorem left_advance (hi : c.levelIndex < c.levelsRead) : c.advance.left + 1 = c.left := by
  simp only [left, advance]
  omega

/-- No move adds to what is left. -/
theorem Moves.left_le (h : c.Moves as c') : c'.left ≤ c.left := by
  induction h with
  | refl => exact Nat.le_refl _
  | ready _ ih => exact Nat.le_trans ih (left_ready _)
  | look _ _ ih => exact ih
  | take _ _ ih => exact ih
  | pass hi _ ih =>
    have := left_advance hi
    omega

/-- A position that is passed is no longer left. -/
theorem Consumes.left_lt (h : c.Consumes c') : c'.left < c.left := by
  obtain ⟨as, c₁, bs, hm, hi, hm'⟩ := h
  have := left_advance hi
  have := hm.left_le
  have := hm'.left_le
  omega

theorem Consumes.sound (h : c.Consumes c') (hc : c.Sound) : c'.Sound := by
  obtain ⟨as, c₁, bs, hm, hi, hm'⟩ := h
  exact (hm'.sound ((hm.sound hc).1.advance hi)).1

/-- A cursor asks for the same again and again. -/
theorem Moves.request (h : c.Moves as c') (hc : c.Sound) : c'.request = c.request := by
  unfold Cursor.request
  rw [h.bounds, (h.sound hc).2]

/-- A look leads to a position, if there is one. -/
theorem Sound.moves_peek {l : Levels} (hc : c.Sound) (h : c.peek = (.ok (some l), c')) :
    (∃ as, c.Moves as c') ∧ c'.Sound ∧ c'.levelIndex < c'.levelsRead := by
  have hs := hc.peek_safe
  rw [h] at hs
  obtain ⟨hm, -⟩ | _ := hs
  exact ⟨⟨_, hm⟩, (hm.sound hc).1, (hc.toTidy.peek h).2.2 rfl⟩

end Cursor

namespace Node

open Cursor

variable {ρ : Type} {t : LeafType} [ColumnReader ρ t.Physical] {c c' : Cursor ρ t.Physical}

/-- **Every value takes a position**, whatever the levels are. -/
theorem assemble_consumes {node : Node} {v : Nested t.Value} (hc : c.Sound)
    (h : node.assemble t c = (.ok v, c')) : c.Consumes c' := by
  induction node generalizing c v c' with
  | leaf null level =>
    obtain ⟨l, c₁, hp, -, ⟨-, x, c₂, hv, -, rfl⟩ | ⟨-, -, rfl⟩⟩ := assemble_leaf.1 h
    · obtain ⟨⟨as, hm⟩, -, hi⟩ := hc.moves_peek hp
      obtain ⟨hlt, -, rfl⟩ := takeValue_ok hv
      have hpass : c₁.picked.Consumes c₁.picked.advance := consumes_advance hi
      exact (hpass.after (.take hlt (.refl _))).after hm
    · obtain ⟨⟨as, hm⟩, -, hi⟩ := hc.moves_peek hp
      exact (consumes_advance hi).after hm
  | requiredStruct member ih =>
    obtain ⟨l, c₁, u, hp, -, hu, -⟩ := assemble_requiredStruct.1 h
    obtain ⟨⟨as, hm⟩, hc₁, -⟩ := hc.moves_peek hp
    exact (ih hc₁ hu).after hm
  | optionalStruct null member ih =>
    obtain ⟨l, c₁, hp, -, hcase⟩ := assemble_optionalStruct.1 h
    obtain ⟨⟨as, hm⟩, hc₁, hi⟩ := hc.moves_peek hp
    obtain ⟨-, -, rfl⟩ | ⟨-, u, hu, -⟩ := hcase
    · exact (consumes_advance hi).after hm
    · exact (ih hc₁ hu).after hm
  | list null empty level element ih =>
    obtain ⟨l, c₁, hp, -, hcase⟩ := assemble_list.1 h
    obtain ⟨⟨as, hm⟩, hc₁, hi⟩ := hc.moves_peek hp
    obtain ⟨-, -, rfl⟩ | ⟨-, -, -, rfl⟩ | ⟨-, -, items, hlist, -⟩ := hcase
    · exact (consumes_advance hi).after hm
    · exact (consumes_advance hi).after hm
    · -- the first item takes a position, and the others only move on
      unfold readList at hlist
      split at hlist
      · cases hlist
      · rename_i item c₂ hitem
        have hfirst := ih hc₁ hitem
        have hrest := (hfirst.sound hc₁).readItems_safe (fun c hc => element.assemble_safe hc)
          level (c₂.left + 1)
        obtain ⟨rest, hitems, -⟩ := Outcome.map_eq_ok_iff.1 hlist
        rw [hitems] at hrest
        obtain ⟨hmoves, -⟩ | _ := hrest
        exact (hfirst.trans_moves hmoves).after hm

end Node

/-! ## The loops -/

namespace Cursor

variable {ρ P α : Type} [ColumnReader ρ P] {c c' : Cursor ρ P} {level : Level}
  {read : Cursor ρ P → Outcome (Cursor ρ P) α}

/-- The next item of a list, or nothing if the list does not go on. -/
def nextItem (read : Cursor ρ P → Outcome (Cursor ρ P) α) (level : Level) (c : Cursor ρ P) :
    Outcome (Cursor ρ P) (Option α) :=
  match c.peek with
  | (.error e, c) => (.error e, c)
  | (.ok none, c) => (.ok none, c)
  | (.ok (some next), c) =>
    if next.repetition < level then (.ok none, c)
    else if level < next.repetition then (.error (c.corrupt next (.tooDeep level)), c)
    else Outcome.map some (read c)

theorem readItems_eq_upTo (read : Cursor ρ P → Outcome (Cursor ρ P) α) (level : Level) (n : Nat)
    (c : Cursor ρ P) : readItems read level n c = Outcome.upTo (nextItem read level) n c := by
  induction n generalizing c with
  | zero => rfl
  | succ n ih =>
    rw [readItems, Outcome.upTo, nextItem]
    rcases c.peek with ⟨e | _ | next, c₁⟩
    · rfl
    · rfl
    · simp only
      split
      · rfl
      · split
        · rfl
        · rcases hr : read c₁ with ⟨e | item, c₂⟩
          · rfl
          · exact congrArg (Outcome.map (item :: ·)) (ih c₂)

theorem nextItem_some {item : α} (h : nextItem read level c = (.ok (some item), c')) :
    ∃ l c₁, c.peek = (.ok (some l), c₁) ∧ read c₁ = (.ok item, c') := by
  unfold nextItem at h
  split at h
  · cases h
  · cases h
  · rename_i next c₁ hp
    split_ifs at h
    · cases h
    · cases h
    · obtain ⟨item', hitem, hsome⟩ := Outcome.map_eq_ok_iff.1 h
      obtain rfl := Option.some.inj hsome
      exact ⟨next, c₁, hp, hitem⟩

variable [Inhabited P]

/-- The loop over the items of a list ends, if every item takes a position. -/
theorem readItems_loops
    (hread : ∀ c v c', c.Sound → read c = (.ok v, c') → c.Consumes c') (hc : c.Sound)
    (level : Level) :
    ∃ k ≤ c.left, Outcome.Loops (nextItem read level) k c
      (readItems read level (c.left + 1) c) := by
  rw [readItems_eq_upTo]
  refine Outcome.loops_upTo Sound left ?_ hc (Nat.lt_succ_self _)
  intro c item c' hc h
  obtain ⟨l, c₁, hp, hitem⟩ := nextItem_some h
  obtain ⟨⟨as, hm⟩, hc₁, -⟩ := hc.moves_peek hp
  have hconsumes := (hread c₁ item c' hc₁ hitem).after hm
  exact ⟨hconsumes.sound hc, hconsumes.left_lt⟩

/-- The next run of values, of which up to so many are still wanted. -/
def nextRun : Cursor ρ P × Nat → Outcome (Cursor ρ P × Nat) (Option (List P))
  | (c, most) =>
    if most = 0 then (.ok none, (c, most))
    else
      match c.takeRun most with
      | (.error e, c) => (.error e, (c, most))
      | (.ok [], c) => (.ok none, (c, most))
      | (.ok (x :: xs), c) => (.ok (some (x :: xs)), (c, most - (xs.length + 1)))

/-- The positions of a run are no longer left. -/
theorem left_takeRun {most : Nat} {xs : List P} (hc : c.Sound) (h : c.takeRun most = (.ok xs, c')) :
    c'.Sound ∧ xs.length ≤ most ∧ c'.left + xs.length ≤ c.left := by
  have hsafe := hc.takeRun_safe most
  rw [h] at hsafe
  obtain ⟨hm, -⟩ | _ := hsafe
  refine ⟨(hm.sound hc).1, ?_⟩
  obtain ⟨hr, rfl⟩ | ⟨c₁, n, hr, hn, -, rfl, rfl⟩ := takeRun_ok h
  · exact ⟨Nat.zero_le _, (hc.toTidy.ready hr).2.1⟩
  · have hleft := (hc.toTidy.ready hr).2.1
    have hskip : (c₁.skip n).left + n ≤ c₁.left := by
      simp only [left, skip]
      omega
    rw [length_upcoming]
    exact ⟨by omega, by omega⟩

end Cursor

namespace Assembler

open Cursor

variable {ρ : Type} {t : LeafType} [ColumnReader ρ t.Physical] {a a' : Assembler t ρ}

theorem readRow_consumes {row : Nested t.Value} (hc : a.cursor.Sound)
    (h : a.readRow = (.ok (some row), a')) : a.cursor.Consumes a'.cursor := by
  unfold readRow at h
  split at h
  · cases h
  · cases h
  · rename_i l c hp
    obtain ⟨⟨as, hm⟩, hc₁, -⟩ := hc.moves_peek hp
    split at h
    · cases h
    · split at h
      · cases h
      · rename_i v c' hv
        obtain ⟨-, rfl⟩ := Outcome.ok_inj h
        exact (Node.assemble_consumes hc₁ hv).after hm

theorem readRows_eq_upTo (n : Nat) (a : Assembler t ρ) :
    a.readRows n = Outcome.upTo readRow n a := by
  induction n generalizing a with
  | zero => rfl
  | succ n ih =>
    rw [readRows, Outcome.upTo]
    rcases a.readRow with ⟨e | _ | row, a'⟩
    · rfl
    · rfl
    · exact congrArg (Outcome.map (row :: ·)) (ih a')

/-- A row that is read keeps the cursor sound and leaves less to read. -/
theorem readRow_falls (a : Assembler t ρ) (row : Nested t.Value) (a' : Assembler t ρ)
    (hc : a.cursor.Sound) (h : a.readRow = (.ok (some row), a')) :
    a'.cursor.Sound ∧ a'.cursor.left < a.cursor.left :=
  ⟨(readRow_consumes hc h).sound hc, (readRow_consumes hc h).left_lt⟩

/-- The loop over runs ends. -/
theorem readRun_loops {c : Cursor ρ t.Physical} (hc : c.Sound) {runs most : Nat}
    (hruns : most ≤ runs) :
    ∃ k ≤ min most c.left, ∃ o, Outcome.Loops nextRun k (c, most) o ∧
      readRun runs most c = (o.1.map List.flatten, o.2.1) := by
  induction runs generalizing c most with
  | zero =>
    obtain rfl := Nat.le_zero.1 hruns
    exact ⟨0, Nat.zero_le _, (.ok [], (c, 0)), .ended rfl, rfl⟩
  | succ runs ih =>
    rw [readRun]
    by_cases hmost : most = 0
    · rw [if_pos hmost]
      exact ⟨0, Nat.zero_le _, (.ok [], (c, most)), .ended (if_pos hmost), rfl⟩
    · rw [if_neg hmost]
      rcases h : c.takeRun most with ⟨e | _ | ⟨x, xs⟩, c'⟩
      · exact ⟨0, Nat.zero_le _, (.error e, (c', most)), .failed (by
          rw [nextRun, if_neg hmost, h]), rfl⟩
      · exact ⟨0, Nat.zero_le _, (.ok [], (c', most)), .ended (by
          rw [nextRun, if_neg hmost, h]), rfl⟩
      · obtain ⟨hc', hlength, hleft⟩ := left_takeRun hc h
        rw [List.length_cons] at hlength hleft
        have hfewer : most - (xs.length + 1) ≤ runs := by omega
        obtain ⟨k, hk, o, hloop, hrun⟩ := ih hc' hfewer
        refine ⟨k + 1, by omega, _, .again (by rw [nextRun, if_neg hmost, h]) hloop, ?_⟩
        simp only [hrun]
        obtain ⟨e | lists, s⟩ := o <;> rfl

/-- What a batch in bulk comes to, said by its runs. -/
theorem readDirect_eq {c : Cursor ρ t.Physical} {most : Nat}
    {physical : Except Error (List t.Physical)} (h : readRun most most a.cursor = (physical, c)) :
    (a.readDirect most).1 = physical.bind (fun xs => (xs.mapM t.ofPhysical).map (·.map .scalar)) ∧
      (a.readDirect most).2.cursor = c := by
  unfold readDirect
  rw [h]
  cases physical with
  | error e => exact ⟨rfl, rfl⟩
  | ok xs =>
    simp only [Except.bind]
    cases xs.mapM t.ofPhysical with
    | error e => exact ⟨rfl, rfl⟩
    | ok values => exact ⟨rfl, rfl⟩

/-- Reading exactly so many rows is reading up to so many. -/
theorem readAll_snd (a : Assembler t ρ) (count : Nat) :
    (a.readAll count).2 = (a.readBatch count).2 := by
  unfold readAll
  rcases a.readBatch count with ⟨e | rows, a'⟩
  · rfl
  · simp only
    split <;> rfl

/-- What is true of all reading from here on. -/
structure Ends (a : Assembler t ρ) : Prop where
  /-- A value of any node takes a position. -/
  node_consumes : ∀ (node : Node) (v : Nested t.Value) c',
    node.assemble t a.cursor = (.ok v, c') → a.cursor.Consumes c'
  /-- The loop over the items of a list ends, whatever the items are. -/
  items_end : ∀ (item : Node) (level : Level), ∃ k ≤ a.cursor.left,
    Outcome.Loops (nextItem (item.assemble t) level) k a.cursor
      (readItems (item.assemble t) level (a.cursor.left + 1) a.cursor)
  /-- A row takes a position. -/
  row_consumes : ∀ row a', a.readRow = (.ok (some row), a') → a.cursor.Consumes a'.cursor
  /-- The loop over up to so many rows ends. -/
  rows_end : a.isDirect = false → ∀ most, ∃ k ≤ min most a.cursor.left, ∃ rest,
    Outcome.Loops (Outcome.counted readRow) k (a, most) ((a.readBatch most).within (·, rest))
  /-- The loop over up to so many rows in bulk ends. -/
  runs_end : a.isDirect = true → ∀ most, ∃ k ≤ min most a.cursor.left, ∃ runs rest,
    Outcome.Loops nextRun k (a.cursor, most) (runs, ((a.readBatch most).2.cursor, rest)) ∧
      (a.readBatch most).1 = (runs.map List.flatten).bind fun xs =>
        (xs.mapM t.ofPhysical).map (·.map .scalar)
  /-- There is no other loop in reading exactly so many rows. -/
  all_end : ∀ count, (a.readAll count).2 = (a.readBatch count).2
  /-- The loop over all rows ends. -/
  collect_end : ∃ k ≤ a.cursor.left, Outcome.Loops readRow k a a.collect

/-- **Reading goes on and ends** from every sound cursor. -/
theorem ends_of_sound (hc : a.cursor.Sound) : a.Ends where
  node_consumes _ _ _ h := Node.assemble_consumes hc h
  items_end item level := readItems_loops (fun _ _ _ hc h => Node.assemble_consumes hc h) hc level
  row_consumes _ _ h := readRow_consumes hc h
  rows_end hdirect most := by
    rw [readBatch, if_neg (Bool.eq_false_iff.1 hdirect), readRows_eq_upTo]
    exact Outcome.loops_counted (Sound ∘ cursor) (left ∘ cursor) readRow_falls hc most
  runs_end hdirect most := by
    obtain ⟨k, hk, ⟨runs, c, rest⟩, hloop, hrun⟩ := readRun_loops hc (Nat.le_refl most)
    obtain ⟨hanswer, hcursor⟩ := readDirect_eq hrun
    rw [readBatch, if_pos hdirect, hcursor]
    exact ⟨k, hk, runs, rest, hloop, hanswer⟩
  all_end := a.readAll_snd
  collect_end := by
    unfold collect
    rw [readRows_eq_upTo]
    exact Outcome.loops_upTo (Sound ∘ cursor) (left ∘ cursor) readRow_falls hc
      (Nat.lt_succ_self _)

end Assembler

/-! ## Readers that end -/

section Ending

variable {ρ P : Type} {read : ρ → Request → Outcome ρ (Answer P)} {q : Request}

/-- A reader that is asked for `q` over and over reports no positions after `n` answers. What the
answers before are is left open. -/
def EndsAfter (read : ρ → Request → Outcome ρ (Answer P)) (q : Request) : Nat → ρ → Prop
  | 0, r => ∃ a, (read r q).1 = .ok a ∧ a.levelsRead = 0
  | n + 1, r => EndsAfter read q n (read r q).2

/-- A reader that will report no positions. -/
structure Ending (read : ρ → Request → Outcome ρ (Answer P)) (q : Request) where
  /-- The reader. -/
  reader : ρ
  /-- The number of answers before that. -/
  answers : Nat
  ends : EndsAfter read q answers reader

namespace Ending

/-- The next answer. The report that there are no positions stays the last one. -/
def answer : Ending read q → Outcome (Ending read q) (Answer P)
  | ⟨r, 0, h⟩ => ((read r q).1, ⟨r, 0, h⟩)
  | ⟨r, n + 1, h⟩ => ((read r q).1, ⟨(read r q).2, n, h⟩)

/-- The positions of the next `n` answers. -/
def total (read : ρ → Request → Outcome ρ (Answer P)) (q : Request) : Nat → ρ → Nat
  | 0, _ => 0
  | n + 1, r => Script.count (read r q).1 + total read q n (read r q).2

theorem total_answer (r : Ending read q) :
    total read q r.answer.2.answers r.answer.2.reader + Script.count r.answer.1 =
      total read q r.answers r.reader := by
  obtain ⟨r, _ | n, h⟩ := r
  · obtain ⟨a, ha, hzero⟩ := h
    show 0 + Script.count (read r q).1 = 0
    rw [ha, Script.count, hzero]
  · exact Nat.add_comm _ _

instance : ColumnReader (Ending read q) P where
  readBatch r _ := r.answer
  supply r := total read q r.answers r.reader
  supply_readBatch_ok r _ a h := by
    have htotal := r.total_answer
    rw [h] at htotal
    exact Nat.le_of_eq htotal
  supply_readBatch_error r _ e h := by
    have htotal := r.total_answer
    omega

end Ending

end Ending

namespace Assembler

open Cursor

variable {ρ : Type} {t : LeafType} {read : ρ → Request → Outcome ρ (Answer t.Physical)}

/-- **Reading goes on and ends.** Whatever a reader answers that reports no positions after finitely
many answers: wherever reading has got to, every value of every node takes a position, and the loops
over items, rows and runs end as they do without a bound, after no more rounds than there are
positions left. The reader is always asked for the same. -/
theorem reading_ends {shape : ColumnShape} {options : Options}
    {reader : Ending read ⟨options.bufferLength, shape.column.bounds.storesDefinitions,
      shape.column.bounds.storesRepetitions, options.bufferLength⟩}
    {a : Assembler t (Ending read _)}
    (h : ofShape shape reader options = .ok a) (b : Assembler t (Ending read _))
    (as : List (Access t.Physical)) (hm : a.cursor.Moves as b.cursor) :
    b.Ends ∧ b.cursor.request = ⟨options.bufferLength, shape.column.bounds.storesDefinitions,
      shape.column.bounds.storesRepetitions, options.bufferLength⟩ := by
  obtain ⟨-, hmake⟩ := cursor_of_ofShape h
  have hc := (sound_of_make hmake).1
  refine ⟨ends_of_sound (hm.sound hc).1, ?_⟩
  rw [hm.request hc]
  exact (request_of_make hmake).2

/-- A reader that gives the same answer so many times: two items of a list, the second of which has
no value. -/
def stutter : Nat → Request → Outcome Nat (Answer Int32)
  | 0, _ => (.ok (Answer.mk #[] #[] #[] 0 0), 0)
  | n + 1, _ => (.ok (Answer.mk #[1, 1] #[0, 1] #[7] 2 2), n)

/-- Three rows end, however many are asked for. -/
theorem reading_ends_numbers :
    ∃ a : Assembler .int32 (Ending stutter ⟨2, true, true, 2⟩),
      ofShape .numbers ⟨3, 3, _, rfl, rfl⟩ ⟨2⟩ = .ok a ∧
      (a.run [.readRow, .readBatch 18446744073709551615]).1 =
        [.ok [.list [.scalar (7 : Int32), .scalar (0 : Int32)]],
          .ok [.list [.scalar (7 : Int32), .scalar (0 : Int32)],
            .list [.scalar (7 : Int32), .scalar (0 : Int32)]]] ∧
      (a.run [.readRow]).2.Ends := by
  obtain ⟨a, h, hanswers⟩ : ∃ a : Assembler .int32 (Ending stutter ⟨2, true, true, 2⟩),
      ofShape .numbers ⟨3, 3, _, rfl, rfl⟩ ⟨2⟩ = .ok a ∧
      (a.run [.readRow, .readBatch 18446744073709551615]).1 =
        [.ok [.list [.scalar (7 : Int32), .scalar (0 : Int32)]],
          .ok [.list [.scalar (7 : Int32), .scalar (0 : Int32)],
            .list [.scalar (7 : Int32), .scalar (0 : Int32)]]] := ⟨_, rfl, by cbv⟩
  obtain ⟨-, hmake⟩ := cursor_of_ofShape h
  obtain ⟨as, hm⟩ := run_moves (sound_of_make hmake).1 [.readRow]
  exact ⟨a, h, hanswers, (reading_ends h _ as hm).1⟩

end Assembler

end Striping
