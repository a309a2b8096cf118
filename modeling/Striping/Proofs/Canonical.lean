import Mathlib
import Striping.Physical.Script
import Striping.Proofs.Rows
import Striping.Write.Shredder

/-!
# Streams are canonical

An assembler that reads rows up to the end of the column has checked all it was given.

* `Assembler.readRow_ok`, `Assembler.readRows_ok`: the positions of the rows that were
  read are the ones that were taken.
* `Assembler.readRows_end`: fewer rows than asked for are there only at the end of the
  column.
* `Assembler.readRows_canonical`: **rows that are read to the end shred to exactly what
  was delivered**, and anything else is refused.
-/

namespace Striping.Assembler

variable {t : LeafType} {ρ : Type} [ColumnReader ρ t.Physical] {a a' : Assembler t ρ}

theorem readRow_none (h : a.readRow = (.ok none, a')) :
    a.cursor.peek = (.ok none, a'.cursor) ∧ a' = a.withCursor a'.cursor := by
  unfold readRow at h
  split at h
  · cases h
  · rename_i c hp
    obtain ⟨-, rfl⟩ := Prod.mk.inj h
    exact ⟨hp, rfl⟩
  · split at h
    · cases h
    · split at h
      · cases h
      · cases h

/-- **A row that is read has the positions that were taken.** -/
theorem readRow_ok (hb : a.cursor.bounds = a.shape.column.bounds) {row : Nested t.Value}
    (h : a.readRow = (.ok (some row), a')) :
    ∃ ps, a.shape.root.shred t a.shape.column.name row 0 = .ok ps ∧
      a.cursor.Steps ps a'.cursor ∧ a'.shape = a.shape := by
  unfold readRow at h
  split at h
  · cases h
  · cases h
  · rename_i l c hp
    split at h
    · cases h
    · rename_i h0
      split at h
      · cases h
      · rename_i v c' hv
        obtain ⟨h1, rfl⟩ := Outcome.ok_inj h
        obtain rfl := Option.some.inj h1
        have hread : c.Reads (a.shape.root.shred t a.shape.column.name) v c' :=
          a.shape.leveled.shred_of_assemble ((Cursor.bounds_peek hp).trans hb) hv
        obtain ⟨l', c₁, ps, hp', hs, hsteps⟩ := hread
        obtain rfl := Cursor.levels_eq_of_peek hp hp'
        rw [Decidable.not_not.1 h0] at hs
        exact ⟨ps, hs, .look hp hsteps, rfl⟩

/-- So have several rows. -/
theorem readRows_ok (hb : a.cursor.bounds = a.shape.column.bounds) {n : Nat}
    {rows : List (Nested t.Value)} (h : a.readRows n = (.ok rows, a')) :
    ∃ ps, Node.shredRows t a.shape.column.name a.shape.root rows = .ok ps ∧
      a.cursor.Steps ps a'.cursor ∧ a'.shape = a.shape := by
  induction n generalizing a rows with
  | zero =>
    obtain ⟨rfl, rfl⟩ := Outcome.ok_inj h
    exact ⟨[], rfl, .refl _, rfl⟩
  | succ n ih =>
    rw [readRows] at h
    split at h
    · cases h
    · rename_i a₁ hr
      obtain ⟨rfl, rfl⟩ := Outcome.ok_inj h
      obtain ⟨hp, ha⟩ := readRow_none hr
      exact ⟨[], rfl, .look hp (.refl _), by rw [ha]; rfl⟩
    · rename_i row a₁ hr
      obtain ⟨rest, hrest, rfl⟩ := Outcome.map_eq_ok_iff.1 h
      obtain ⟨ps, hs, hsteps, hshape⟩ := readRow_ok hb hr
      obtain ⟨qs, hq, hsteps', hshape'⟩ := ih (by rw [hsteps.bounds, hb, hshape]) hrest
      rw [hshape] at hq
      exact ⟨ps ++ qs, Node.shredItems_cons.2 ⟨ps, qs, hs, hq, rfl⟩, hsteps.trans hsteps',
        hshape'.trans hshape⟩

/-- Fewer rows than asked for are there only at the end of the column. -/
theorem readRows_end {n : Nat} {rows : List (Nested t.Value)}
    (h : a.readRows n = (.ok rows, a')) (hn : rows.length < n) :
    a'.cursor.peek = (.ok none, a'.cursor) := by
  induction n generalizing a rows with
  | zero => cases hn
  | succ n ih =>
    rw [readRows] at h
    split at h
    · cases h
    · rename_i a₁ hr
      obtain ⟨-, rfl⟩ := Prod.mk.inj h
      exact Cursor.peek_peek (readRow_none hr).1
    · rename_i row a₁ hr
      obtain ⟨rest, hrest, rfl⟩ := Outcome.map_eq_ok_iff.1 h
      rw [List.length_cons] at hn
      exact ih hrest (by omega)

/-- Rows have at least as many positions. -/
theorem length_le_of_shredRows {column : String} {s : ColumnShape}
    {rows : List (Nested t.Value)} {ps : List (Position t.Physical)}
    (h : Node.shredRows t column s.root rows = .ok ps) : rows.length ≤ ps.length := by
  induction rows generalizing ps with
  | nil => exact Nat.zero_le _
  | cons row rows ih =>
    obtain ⟨qs, rs, hq, hr, rfl⟩ := Node.shredItems_cons.1 h
    have hpos := List.length_pos_of_ne_nil (s.leveled.run hq).ne_nil
    have := ih hr
    rw [List.length_cons, List.length_append]
    omega

/-- Rows read up to the end of the column shred to what was delivered. -/
theorem feeds_of_readRows (hc : a.cursor.Tidy) (hb : a.cursor.bounds = a.shape.column.bounds)
    {n : Nat} {rows : List (Nested t.Value)} {c : Cursor ρ t.Physical}
    (h : a.readRows n = (.ok rows, a')) (hp : a'.cursor.peek = (.ok none, c)) :
    ∃ ps ls vs, Node.shredRows t a.shape.column.name a.shape.root rows = .ok ps ∧
      a.cursor.spent.Feeds ls vs ∧ ps.map (·.levels) = a.cursor.pendingLevels ++ ls ∧
      ps.filterMap (·.value) = a.cursor.pendingValues ++ vs := by
  obtain ⟨ps, hs, hsteps, -⟩ := readRows_ok hb h
  have hstreams := Cursor.Streams.of_steps hsteps (.done hp)
  rw [List.append_nil] at hstreams
  obtain ⟨ls, vs, hf, hls, hvs⟩ := hstreams.feeds hc
  exact ⟨ps, ls, vs, hs, hf, hls, hvs⟩

/-- **Only canonical streams are read to the end.** Rows that are read up to the end of the
column pass the check of every shredder of the column, and they shred to exactly the levels
and values that the reader delivered. So if no rows shred to these, reading fails. -/
theorem readRows_canonical {shape : ColumnShape} {reader : ρ} {options : Options}
    (ha : ofShape shape reader options = .ok a) :
    (∀ n rows a₁ a₂, a.readRows n = (.ok rows, a₁) → a₁.readRow = (.ok none, a₂) →
      (∀ (ω : Type) (s : Shredder t ω), s.shape = shape → s.validate rows = .ok ()) ∧
      ∃ ps, Node.shredRows t shape.column.name shape.root rows = .ok ps ∧
        a.cursor.Feeds (ps.map (·.levels)) (ps.filterMap (·.value))) ∧
    ∀ ls vs, a.cursor.Feeds ls vs →
      (¬∃ rows ps, Node.shredRows t shape.column.name shape.root rows = .ok ps ∧
        ps.map (·.levels) = ls ∧ ps.filterMap (·.value) = vs) →
      ∃ n e, (a.readRows n).1 = .error e := by
  obtain ⟨rfl, hm⟩ := cursor_of_ofShape ha
  -- nothing was asked for yet, so all that is delivered is still to come
  obtain ⟨hc, hb, hl, hv⟩ := Cursor.fresh_of_make hm
  obtain ⟨hself, hnl, hnv⟩ := hc.spent_eq_self hl hv
  have hfeeds : ∀ n rows a' c, a.readRows n = (.ok rows, a') → a'.cursor.peek = (.ok none, c) →
      ∃ ps, Node.shredRows t a.shape.column.name a.shape.root rows = .ok ps ∧
        a.cursor.Feeds (ps.map (·.levels)) (ps.filterMap (·.value)) := by
    intro n rows a' c h hp
    obtain ⟨ps, ls, vs, hs, hf, hls, hvs⟩ := feeds_of_readRows hc hb h hp
    rw [hself] at hf
    rw [hnl, List.nil_append] at hls
    rw [hnv, List.nil_append] at hvs
    exact ⟨ps, hs, by rwa [hls, hvs]⟩
  refine ⟨?_, ?_⟩
  · intro n rows a₁ a₂ h hend
    obtain ⟨ps, hs, hf⟩ := hfeeds n rows a₁ _ h (readRow_none hend).1
    refine ⟨?_, ps, hs, hf⟩
    intro ω s hshape
    unfold Shredder.validate Shredder.column
    rw [hshape, forM_eq_ok_iff]
    exact (Node.shredItems_ok_iff fun _ _ => Node.validate_eq_ok_iff).2 ⟨ps, hs⟩
  · intro ls vs hf hno
    -- as many reads as there are positions, and one more, come to the end or fail
    rcases hr : a.readRows (a.cursor.left + 1) with ⟨_ | rows, a₁⟩
    · exact ⟨_, _, by rw [hr]⟩
    · exfalso
      obtain ⟨ps, hs, hsteps, -⟩ := readRows_ok hb hr
      have hlen := length_le_of_shredRows hs
      have hleft := (hsteps.tidy hc).2
      have hend := readRows_end hr (by omega)
      obtain ⟨ps', hs', hf'⟩ := hfeeds _ rows a₁ _ hr hend
      obtain ⟨rfl, rfl⟩ := hf.unique hf'
      exact hno ⟨rows, ps', hs', rfl, rfl⟩

/-- A list of two numbers and an empty list, the first one cut in the middle. -/
def cutNumbers : Script Int32 :=
  ⟨[.ok ⟨#[1], #[0], #[7], 1, 1⟩, .ok ⟨#[1], #[1], #[8], 1, 1⟩, .ok ⟨#[0], #[0], #[], 0, 1⟩]⟩

theorem readRows_canonical_numbers :
    ∃ a a₁ a₂ : Assembler .int32 (Script Int32),
      ofShape .numbers cutNumbers ⟨2⟩ = .ok a ∧
      a.readRows 2 =
        (.ok [.list [.scalar (7 : Int32), .scalar (8 : Int32)], .list []], a₁) ∧
      a₁.readRow = (.ok none, a₂) ∧
      ∃ ps, Node.shredRows .int32 ColumnShape.numbers.column.name ColumnShape.numbers.root
          [.list [.scalar (7 : Int32), .scalar (8 : Int32)], .list []] = .ok ps ∧
        a.cursor.Feeds (ps.map (·.levels)) (ps.filterMap (·.value)) := by
  have ha : ofShape .numbers cutNumbers ⟨2⟩ =
    .ok (⟨.numbers, ⟨cutNumbers, _, _, 2, #[], #[], #[], 0, 0, 0, 0, false⟩, 0⟩ :
      Assembler .int32 (Script Int32)) := rfl
  exact ⟨_, _, _, ha, by cbv, by cbv, ((readRows_canonical ha).1 2 _ _ _ (by cbv) (by cbv)).2⟩

end Striping.Assembler
