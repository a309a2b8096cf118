import Striping.Proofs.Assembly
import Striping.Proofs.Delivery
import Striping.Read.Assembler

/-!
# Reading rows

What an assembler delivers in front of positions that some rows were shredded to.

* `Cursor.Holds.takeRun`: a run that is taken in bulk is as many single positions.
* `Assembler.Holds`: the rows that are left of a column.
* `Assembler.Holds.readBatch`: **a batch is the next rows**, read one by one or in bulk;
  `Assembler.Holds.hasNext`: there is another row as long as there are rows left.
-/

namespace Striping

/-- A position of a column without levels. -/
def Position.flat {P : Type} (x : P) : Position P := ⟨⟨0, 0⟩, some x⟩

namespace Cursor

variable {ρ P : Type} {c c' : Cursor ρ P} {b : LevelBounds}

/-- The cursor after so many values and their positions were taken. -/
def skip [Inhabited P] (c : Cursor ρ P) (n : Nat) : Cursor ρ P :=
  { c with
    values := c.blanked n
    levelIndex := c.levelIndex + n
    valueIndex := c.valueIndex + n }

theorem skip_succ [Inhabited P] (c : Cursor ρ P) (n : Nat) :
    c.skip (n + 1) = c.taken.skip n := by
  unfold skip
  rw [blanked_succ]
  simp only [taken, advance, Nat.add_assoc, Nat.add_comm 1]

variable [ColumnReader ρ P]

variable [Inhabited P] {xs : List P}

/-- As many values can be taken at once as there are positions left in the batch. -/
theorem Holds.skip {n : Nat} (hc : c.Holds (xs.map Position.flat))
    (hn : c.levelIndex + n ≤ c.levelsRead) :
    n ≤ xs.length ∧ c.valueIndex + n ≤ c.valuesRead ∧ c.upcoming n = xs.take n ∧
      (c.skip n).Holds ((xs.drop n).map Position.flat) := by
  induction n generalizing c xs with
  | zero => exact ⟨Nat.zero_le _, hc.tidy.values_le, by rw [List.take_zero]; rfl, hc⟩
  | succ n ih =>
    cases xs with
    | nil =>
      obtain ⟨c₁, hp, -⟩ := hc.look_end
      have hr := (ready_of_lt (by omega)).symm.trans (peek_none hp)
      cases (Prod.mk.inj hr).1
    | cons x xs =>
      obtain ⟨c₁, c₂, hp, hv, hc⟩ := hc.present
      obtain rfl := eq_of_peek (by omega) hp
      obtain ⟨hi, rfl, rfl⟩ := takeValue_ok hv
      have hc : c₁.taken.Holds (xs.map Position.flat) := hc
      have h0 : c₁.taken.levelIndex + n ≤ c₁.taken.levelsRead := by
        show c₁.levelIndex + 1 + n ≤ c₁.levelsRead
        omega
      obtain ⟨h1, h2, h3, h4⟩ := ih hc h0
      have h2 : c₁.valueIndex + 1 + n ≤ c₁.valuesRead := h2
      refine ⟨?_, by omega, ?_, ?_⟩
      · rw [List.length_cons]; omega
      · rw [upcoming_succ, h3, List.take_succ_cons]
      · rw [skip_succ]
        exact h4

/-- **A run taken in bulk** is as many single positions. -/
theorem Holds.takeRun {most : Nat} (hc : c.Holds (xs.map Position.flat)) (hm : 0 < most) :
    ∃ n c', c.takeRun most = (.ok (xs.take n), c') ∧ n ≤ most ∧ n ≤ xs.length ∧
      (xs ≠ [] → 0 < n) ∧ c'.Holds ((xs.drop n).map Position.flat) := by
  cases xs with
  | nil =>
    obtain ⟨c', hp, hc⟩ := hc.look_end
    refine ⟨0, c', ?_, Nat.zero_le _, Nat.le_refl _, fun h => absurd rfl h, hc⟩
    unfold Cursor.takeRun
    rw [peek_none hp]
    rfl
  | cons x xs =>
    obtain ⟨c', hp, hc'⟩ := hc.look
    have hi := (hc.tidy.peek hp).2.2 rfl
    have hn : c'.levelIndex + min most (c'.levelsRead - c'.levelIndex) ≤ c'.levelsRead := by omega
    have hc' : c'.Holds ((x :: xs).map Position.flat) := hc'
    obtain ⟨h1, h2, h3, h4⟩ := hc'.skip hn
    refine ⟨min most (c'.levelsRead - c'.levelIndex), c'.skip _, ?_, by omega, h1,
      fun _ => by omega, h4⟩
    unfold Cursor.takeRun
    rw [(peek_some hp).1, ← h3]
    exact if_neg (by omega)

end Cursor

namespace Assembler

variable {t : LeafType} {ρ : Type} [ColumnReader ρ t.Physical] {c : Cursor ρ t.Physical}

theorem readRun_of_holds {xs : List t.Physical} {runs most : Nat}
    (hc : c.Holds (xs.map Position.flat)) (hr : most ≤ runs) :
    ∃ c', readRun runs most c = (.ok (xs.take most), c') ∧
      c'.Holds ((xs.drop most).map Position.flat) := by
  induction runs generalizing c xs most with
  | zero =>
    obtain rfl : most = 0 := by omega
    exact ⟨c, rfl, hc⟩
  | succ runs ih =>
    by_cases hm : most = 0
    · subst hm
      exact ⟨c, rfl, hc⟩
    · obtain ⟨n, c₁, h1, h2, h3, h4, hc₁⟩ := hc.takeRun (Nat.pos_of_ne_zero hm)
      rw [readRun, if_neg hm, h1]
      cases xs with
      | nil =>
        rw [List.drop_nil] at hc₁ ⊢
        rw [List.take_nil, List.take_nil]
        exact ⟨c₁, rfl, hc₁⟩
      | cons x xs =>
        -- a run takes at least one value, so there are runs left for the values that are left
        obtain ⟨n, rfl⟩ := Nat.exists_eq_add_one.2 (h4 (List.cons_ne_nil x xs))
        have hlen : (xs.take n).length = n := by
          rw [List.length_take]
          rw [List.length_cons] at h3
          omega
        obtain ⟨c₂, h5, hc₂⟩ := ih hc₁ (show most - (n + 1) ≤ runs by omega)
        refine ⟨c₂, ?_, ?_⟩
        · rw [List.take_succ_cons]
          simp only [hlen]
          refine Outcome.map_eq_ok_iff.2 ⟨_, h5, ?_⟩
          rw [← List.take_succ_cons, ← List.take_add]
          congr 1
          omega
        · rw [List.drop_drop] at hc₂
          rwa [show n + 1 + (most - (n + 1)) = most by omega] at hc₂

omit [ColumnReader ρ t.Physical] in
theorem cursor_of_ofShape {shape : ColumnShape} {reader : ρ} {options : Options}
    (h : ofShape shape reader options = .ok a) :
    a.shape = shape ∧ Cursor.make reader shape.column.name shape.column.bounds
      options.bufferLength = .ok a.cursor := by
  unfold ofShape at h
  obtain ⟨-, -, h⟩ := bind_eq_ok_iff.1 h
  split at h
  · obtain ⟨c, hc, h⟩ := bind_eq_ok_iff.1 h
    obtain rfl := Except.ok.inj h
    exact ⟨rfl, hc⟩
  · cases h

theorem readRow_shape (a : Assembler t ρ) : a.readRow.2.shape = a.shape := by
  unfold readRow
  split
  · rfl
  · rfl
  · split
    · rfl
    · split <;> rfl

theorem readRows_shape (a : Assembler t ρ) (n : Nat) : (a.readRows n).2.shape = a.shape := by
  induction n generalizing a with
  | zero => rfl
  | succ n ih =>
    have h := a.readRow_shape
    rw [readRows]
    rcases hr : a.readRow with ⟨e | _ | row, a'⟩
    · rw [hr] at h; exact h
    · rw [hr] at h; exact h
    · rw [hr] at h; exact (ih a').trans h

/-- Reading leaves the shape as it is. -/
theorem readBatch_shape (a : Assembler t ρ) (n : Nat) : (a.readBatch n).2.shape = a.shape := by
  unfold readBatch
  split
  · unfold readDirect
    split
    · rfl
    · split <;> rfl
  · exact a.readRows_shape n

/-- An assembler in front of some rows, which are all that is left of the column. -/
def Holds (a : Assembler t ρ) (rows : List (Nested t.Value)) : Prop :=
  ∃ ps, Node.shredRows t a.shape.column.name a.shape.root rows = .ok ps ∧ a.cursor.Holds ps

namespace Holds

variable {a : Assembler t ρ} {row : Nested t.Value} {rows : List (Nested t.Value)}

/-- The first position of a row starts one. -/
theorem look (h : a.Holds (row :: rows)) :
    ∃ l c ps qs, a.cursor.peek = (.ok (some l), c) ∧ l.repetition = 0 ∧
      a.shape.root.shred t a.shape.column.name row 0 = .ok ps ∧
      Node.shredRows t a.shape.column.name a.shape.root rows = .ok qs ∧
      Position.EndsAt 0 qs ∧ c.Holds (ps ++ qs) := by
  obtain ⟨ps', hs, hc⟩ := h
  obtain ⟨ps, qs, hp, hq, rfl⟩ := Node.shredItems_cons.1 hs
  obtain ⟨l, c, hl, h0, -, hc⟩ := hc.look_run (a.shape.leveled.run hp)
  refine ⟨l, c, ps, qs, hl, h0, hp, hq, ?_, hc⟩
  -- rows are the items of a list around them, so the next one ends all lists of this one
  have he := Cursor.endsAt_items (r := -1) (fun _ _ _ => a.shape.leveled.run) rfl hq .nil
  rwa [List.append_nil] at he

/-- **There is another row exactly as long as rows are left.** -/
theorem hasNext (h : a.Holds rows) :
    ∃ a', a.hasNext = (.ok (!rows.isEmpty), a') ∧ a'.Holds rows := by
  obtain ⟨ps, hs, hc⟩ := h
  cases rows with
  | nil =>
    obtain rfl := Except.ok.inj hs
    obtain ⟨c, hp, hc⟩ := hc.look_end
    refine ⟨a.withCursor c, ?_, [], rfl, hc⟩
    unfold Assembler.hasNext
    rw [hp]
    rfl
  | cons row rows =>
    obtain ⟨qs, rs, hq, hr, rfl⟩ := Node.shredItems_cons.1 hs
    obtain ⟨l, c, hp, -, -, hc⟩ := hc.look_run (a.shape.leveled.run hq)
    refine ⟨a.withCursor c, ?_, _, hs, hc⟩
    unfold Assembler.hasNext
    rw [hp]
    rfl

theorem readRow_end (h : a.Holds []) : ∃ a', a.readRow = (.ok none, a') ∧ a'.Holds [] := by
  obtain ⟨ps, hs, hc⟩ := h
  obtain rfl := Except.ok.inj hs
  obtain ⟨c, hp, hc⟩ := hc.look_end
  refine ⟨a.withCursor c, ?_, [], rfl, hc⟩
  unfold Assembler.readRow
  rw [hp]

theorem readRow (h : a.Holds (row :: rows)) :
    ∃ a', a.readRow = (.ok (some row), a') ∧ a'.Holds rows := by
  obtain ⟨l, c, ps, qs, hp, h0, hps, hqs, he, hc⟩ := h.look
  obtain ⟨c', ha, hc'⟩ := a.shape.leveled.assemble_of_shred hps he hc
  refine ⟨{ a with cursor := c', rowsRead := a.rowsRead + 1 }, ?_, qs, hqs, hc'⟩
  unfold Assembler.readRow
  rw [hp]
  simp only [h0, ne_eq, not_true_eq_false, if_false, ha]

theorem readRows (h : a.Holds rows) (n : Nat) :
    ∃ a', a.readRows n = (.ok (rows.take n), a') ∧ a'.Holds (rows.drop n) := by
  induction n generalizing a rows with
  | zero => exact ⟨a, rfl, h⟩
  | succ n ih =>
    cases rows with
    | nil =>
      obtain ⟨a', hr, h⟩ := h.readRow_end
      rw [Assembler.readRows, hr, List.take_nil]
      exact ⟨a', rfl, h⟩
    | cons row rows =>
      obtain ⟨a₁, hr, h⟩ := h.readRow
      obtain ⟨a₂, hrs, h⟩ := ih h
      rw [Assembler.readRows, hr]
      exact ⟨a₂, Outcome.map_eq_ok_iff.2 ⟨_, hrs, rfl⟩, h⟩

/-- The rows of a column without levels are its values. -/
theorem values (hl : a.shape.root = .leaf none 0) (h : a.Holds rows) :
    ∃ xs : List t.Value, rows = xs.map .scalar ∧
      a.cursor.Holds ((xs.map t.toPhysical).map Position.flat) := by
  obtain ⟨ps, hs, hc⟩ := h
  suffices ∃ xs : List t.Value, rows = xs.map .scalar ∧
      ps = (xs.map t.toPhysical).map Position.flat by
    obtain ⟨xs, h1, rfl⟩ := this
    exact ⟨xs, h1, hc⟩
  clear hc
  rw [hl] at hs
  induction rows generalizing ps with
  | nil => exact ⟨[], rfl, (Except.ok.inj hs).symm⟩
  | cons row rows ih =>
    obtain ⟨qs, rs, hq, hr, rfl⟩ := Node.shredItems_cons.1 hs
    obtain ⟨x, rfl, rfl⟩ := Node.shred_requiredLeaf.1 hq
    obtain ⟨xs, rfl, rfl⟩ := ih rs hr
    exact ⟨x :: xs, rfl, rfl⟩

theorem shred_values {column : String} (xs : List t.Value) :
    Node.shredRows t column (.leaf none 0) (xs.map .scalar) =
      .ok ((xs.map t.toPhysical).map Position.flat) := by
  induction xs with
  | nil => rfl
  | cons x xs ih => exact Node.shredItems_cons.2 ⟨_, _, rfl, ih, rfl⟩

theorem readDirect (hl : a.shape.root = .leaf none 0) (h : a.Holds rows) (n : Nat) :
    ∃ a', a.readDirect n = (.ok (rows.take n), a') ∧ a'.Holds (rows.drop n) := by
  obtain ⟨xs, rfl, hc⟩ := h.values hl
  obtain ⟨c, hrun, hc'⟩ := readRun_of_holds hc (Nat.le_refl n)
  have hx : ((xs.map t.toPhysical).take n).mapM t.ofPhysical = .ok (xs.take n) := by
    rw [mapM_eq_ok_iff, ← List.map_take, List.forall₂_map_left_iff, List.forall₂_same]
    exact fun x _ => t.ofPhysical_toPhysical x
  refine ⟨{ a with cursor := c, rowsRead := a.rowsRead + (xs.take n).length }, ?_, _, ?_, hc'⟩
  · unfold Assembler.readDirect
    rw [hrun]
    simp only [hx, List.map_take]
  · rw [hl, ← List.map_drop, ← List.map_drop]
    exact shred_values _

omit [ColumnReader ρ t.Physical] in
theorem root_of_isDirect (hd : a.isDirect = true) : a.shape.root = .leaf none 0 := by
  unfold Assembler.isDirect at hd
  have hlv := a.shape.leveled
  split at hd
  · rename_i v hr
    rw [hr] at hlv ⊢
    cases hlv with
    | requiredLeaf hv =>
      obtain rfl : v = 0 := Int16.toInt.inj hv
      rfl
  · simp at hd

/-- **A batch is the next rows**, read one by one or in bulk. -/
theorem readBatch (h : a.Holds rows) (n : Nat) :
    ∃ a', a.readBatch n = (.ok (rows.take n), a') ∧ a'.Holds (rows.drop n) := by
  unfold Assembler.readBatch
  by_cases hd : a.isDirect = true
  · rw [if_pos hd]
    exact h.readDirect (root_of_isDirect hd) n
  · rw [if_neg hd]
    exact h.readRows n

/-- So exactly as many rows can be read as there are. -/
theorem readAll (h : a.Holds rows) {n : Nat} (hn : n ≤ rows.length) :
    ∃ a', a.readAll n = (.ok (rows.take n), a') ∧ a'.Holds (rows.drop n) := by
  obtain ⟨a', hr, h⟩ := h.readBatch n
  refine ⟨a', ?_, h⟩
  have hlen : ¬(rows.take n).length < n := by rw [List.length_take]; omega
  unfold Assembler.readAll
  rw [hr]
  simp only [hlen, if_false]

end Holds

end Assembler

end Striping
