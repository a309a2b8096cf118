import Striping.Proofs.Canonical

/-!
# Reading in bulk

A column without levels may be read in bulk. This brings just the rows that come one by one, and
leaves the column at the same place.

* `Cursor.takeRun_ok`: what taking a run does.
* `Assembler.readRows_append`, `Assembler.readRows_take`: rows that are read in one go are read in
  two, and the other way round.
* `Assembler.readRows_of_readBatch`: **a batch is what is read row by row**.
-/

namespace Striping

/-- A column of required leaves has no levels. -/
theorem ColumnShape.bounds_of_root {s : ColumnShape} (h : s.root = .leaf none 0) :
    s.column.bounds = ⟨0, 0⟩ := by
  have hl := s.leveled
  rw [h] at hl
  generalize s.column.bounds = b at hl
  cases hl with
  | requiredLeaf _ hd hr =>
    obtain ⟨definition, repetition⟩ := b
    obtain rfl : 0 = definition := hd
    obtain rfl : repetition = 0 := Int16.toInt.inj hr
    rfl

namespace Cursor

variable {ρ P : Type} [ColumnReader ρ P] {c c' : Cursor ρ P}

omit [ColumnReader ρ P] in
theorem length_upcoming [Inhabited P] (c : Cursor ρ P) (n : Nat) :
    (c.upcoming n).length = n := by
  unfold upcoming
  rw [List.length_map, List.length_range']

omit [ColumnReader ρ P] in
theorem Tidy.skip [Inhabited P] {n : Nat} (hc : c.Tidy) (hl : c.levelIndex + n ≤ c.levelsRead)
    (hv : c.valueIndex + n ≤ c.valuesRead) : (c.skip n).Tidy := ⟨hl, hv, hc.ended⟩

/-- There is nothing to see at a position of a column without levels. -/
theorem peek_of_ready_flat (hb : c.bounds = ⟨0, 0⟩) (h : c.ready = (.ok true, c')) :
    c.peek = (.ok (some ⟨0, 0⟩), c') := by
  have hb' : c'.bounds = ⟨0, 0⟩ := (bounds_ready h).trans hb
  have hl : c'.levels = ⟨0, 0⟩ := by
    unfold levels
    rw [hb']
    rfl
  rw [← hl]
  refine peek_of_ready h ?_
  rw [hl, hb']
  rfl

/-- **What taking a run does**, if it succeeds. -/
theorem takeRun_ok [Inhabited P] {most : Nat} {xs : List P} (h : c.takeRun most = (.ok xs, c')) :
    (c.ready = (.ok false, c') ∧ xs = []) ∨
      ∃ c₁ n, c.ready = (.ok true, c₁) ∧ n = min most (c₁.levelsRead - c₁.levelIndex) ∧
        c₁.valueIndex + n ≤ c₁.valuesRead ∧ xs = c₁.upcoming n ∧ c' = c₁.skip n := by
  unfold takeRun at h
  split at h
  · cases h
  · rename_i c₁ hr
    obtain ⟨rfl, rfl⟩ := Outcome.ok_inj h
    exact .inl ⟨hr, rfl⟩
  · rename_i c₁ hr
    simp only at h
    split at h
    · cases h
    · rename_i hv
      obtain ⟨rfl, rfl⟩ := Outcome.ok_inj h
      exact .inr ⟨c₁, _, hr, rfl, by omega, rfl, rfl⟩

end Cursor

namespace Assembler

variable {t : LeafType} {ρ : Type} [ColumnReader ρ t.Physical] {a a' : Assembler t ρ}
  {rows : List (Nested t.Value)} {m n : Nat}

/-- Reading goes on where it stopped. -/
theorem readRows_append (h : a.readRows m = (.ok rows, a')) (hm : rows.length = m) (n : Nat) :
    a.readRows (m + n) = Outcome.map (rows ++ ·) (a'.readRows n) := by
  induction m generalizing a rows with
  | zero =>
    obtain ⟨rfl, rfl⟩ := Outcome.ok_inj h
    rw [Nat.zero_add]
    rcases a.readRows n with ⟨_ | _, _⟩ <;> rfl
  | succ m ih =>
    rw [readRows] at h
    rw [Nat.succ_add, readRows]
    split at h
    · cases h
    · obtain ⟨rfl, -⟩ := Outcome.ok_inj h
      cases hm
    · rename_i row a₁ hr
      obtain ⟨rest, hrest, rfl⟩ := Outcome.map_eq_ok_iff.1 h
      rw [ih hrest (Nat.succ.inj hm)]
      rcases a'.readRows n with ⟨_ | _, _⟩ <;> rfl

/-- Fewer rows are the first ones. -/
theorem readRows_take (h : a.readRows m = (.ok rows, a')) (hn : n ≤ rows.length) :
    ∃ a₁, a.readRows n = (.ok (rows.take n), a₁) := by
  induction n generalizing a m rows with
  | zero => exact ⟨a, rfl⟩
  | succ n ih =>
    cases m with
    | zero =>
      obtain ⟨rfl, rfl⟩ := Outcome.ok_inj h
      cases hn
    | succ m =>
      rw [readRows] at h ⊢
      split at h
      · cases h
      · obtain ⟨rfl, -⟩ := Outcome.ok_inj h
        cases hn
      · rename_i row a₁ hr
        obtain ⟨rest, hrest, rfl⟩ := Outcome.map_eq_ok_iff.1 h
        obtain ⟨a₂, h₂⟩ := ih hrest (Nat.le_of_succ_le_succ hn)
        exact ⟨a₂, Outcome.map_eq_ok_iff.2 ⟨_, h₂, rfl⟩⟩

/-- Looking at the current position does not change the rows that are read. -/
theorem readRows_of_ready {c : Cursor ρ t.Physical} (h : a.cursor.ready = (.ok true, c))
    (hn : 0 < n) : a.readRows n = (a.withCursor c).readRows n := by
  obtain ⟨n, rfl⟩ := Nat.exists_eq_add_one.2 hn
  rw [readRows, readRows]
  have hr : a.readRow = (a.withCursor c).readRow := by
    unfold readRow
    rw [Cursor.peek_of_ready_true h]
    rfl
  rw [hr]

/-- The assembler after it read so many rows up to a place. -/
def readTo (a : Assembler t ρ) (c : Cursor ρ t.Physical) (n : Nat) : Assembler t ρ :=
  { a with cursor := c, rowsRead := a.rowsRead + n }

omit [ColumnReader ρ t.Physical] in
theorem readTo_readTo (a : Assembler t ρ) (c c' : Cursor ρ t.Physical) (m n : Nat) :
    (a.readTo c m).readTo c' n = a.readTo c' (m + n) := by
  unfold readTo
  rw [Nat.add_assoc]

/-- A row of a column without levels is the next value. -/
theorem readRow_flat {c : Cursor ρ t.Physical} {x : t.Value} (hl : a.shape.root = .leaf none 0)
    (hp : a.cursor.peek = (.ok (some ⟨0, 0⟩), c)) (hv : c.valueIndex < c.valuesRead)
    (hx : c.values.getD c.valueIndex default = t.toPhysical x) :
    a.readRow = (.ok (some (.scalar x)), a.readTo c.taken 1) := by
  have htake : c.takeValue ⟨0, 0⟩ = (.ok (t.toPhysical x), { c with
      values := c.values.setIfInBounds c.valueIndex default
      valueIndex := c.valueIndex + 1 }) := by
    unfold Cursor.takeValue
    rw [if_pos hv, hx]
  have hleaf : (Node.leaf none 0).assemble t c = (.ok (.scalar x), c.taken) :=
    Node.assemble_leaf.2 ⟨_, c, Cursor.peek_peek hp, Int16.le_refl _,
      .inl ⟨Int16.le_refl _, x, _, htake, rfl, rfl⟩⟩
  unfold readRow
  rw [hp]
  simp only [ne_eq, not_true_eq_false, if_false, hl, hleaf]
  rfl

/-- The rows in the current batch of a column without levels are its values. -/
theorem readRows_skip {xs : List t.Value} (hl : a.shape.root = .leaf none 0)
    (hb : a.cursor.bounds = ⟨0, 0⟩) (hn : a.cursor.levelIndex + n ≤ a.cursor.levelsRead)
    (hv : a.cursor.valueIndex + n ≤ a.cursor.valuesRead)
    (hx : a.cursor.upcoming n = xs.map t.toPhysical) :
    a.readRows n = (.ok (xs.map .scalar), a.readTo (a.cursor.skip n) n) := by
  induction n generalizing a xs with
  | zero =>
    obtain rfl := List.map_eq_nil_iff.1 hx.symm
    rfl
  | succ n ih =>
    rw [Cursor.upcoming_succ] at hx
    obtain ⟨x, xs, rfl⟩ : ∃ x rest, xs = x :: rest := by
      cases xs with
      | nil => cases hx
      | cons x xs => exact ⟨x, xs, rfl⟩
    obtain ⟨hx, hxs⟩ := List.cons.inj hx
    have hp := Cursor.peek_of_ready_flat hb (Cursor.ready_of_lt (by omega))
    have hn : a.cursor.levelIndex + 1 + n ≤ a.cursor.levelsRead := by omega
    have hv : a.cursor.valueIndex + 1 + n ≤ a.cursor.valuesRead := by omega
    rw [readRows, readRow_flat hl hp (by omega) hx]
    simp only [ih (a := a.readTo a.cursor.taken 1) hl hb hn hv hxs, readTo_readTo]
    rw [Cursor.skip_succ, Nat.add_comm n 1]
    rfl

/-- At the end of the column there are no rows. -/
theorem readRows_of_ready_false {c : Cursor ρ t.Physical} (h : a.cursor.ready = (.ok false, c))
    (hn : n ≠ 0) : a.readRows n = (.ok [], a.withCursor c) := by
  obtain ⟨n, rfl⟩ := Nat.exists_eq_succ_of_ne_zero hn
  have hp : a.cursor.peek = (.ok none, c) := by
    unfold Cursor.peek
    rw [h]
  have hr : a.readRow = (.ok none, a.withCursor c) := by
    unfold readRow
    rw [hp]
  rw [readRows, hr]

/-- A run brings the next rows of a column without levels. -/
theorem readRows_of_run {c : Cursor ρ t.Physical} {xs : List t.Value}
    (hl : a.shape.root = .leaf none 0) (hb : a.cursor.bounds = ⟨0, 0⟩) (hc : a.cursor.Tidy)
    (hready : a.cursor.ready = (.ok true, c)) (hpos : 0 < n)
    (hn : n ≤ c.levelsRead - c.levelIndex) (hv : c.valueIndex + n ≤ c.valuesRead)
    (hx : c.upcoming n = xs.map t.toPhysical) :
    a.readRows n = (.ok (xs.map .scalar), (a.withCursor c).readTo (c.skip n) n) := by
  have hle := (hc.ready hready).1.levels_le
  have hb' : c.bounds = ⟨0, 0⟩ := (Cursor.bounds_ready hready).trans hb
  have hend : c.levelIndex + n ≤ c.levelsRead := by omega
  rw [readRows_of_ready hready hpos]
  exact readRows_skip hl hb' hend hv hx

/-- **Runs bring the rows one by one.** -/
theorem readRows_of_readRun {c : Cursor ρ t.Physical} {runs : Nat} {xs : List t.Value}
    (hl : a.shape.root = .leaf none 0) (hb : a.cursor.bounds = ⟨0, 0⟩) (hc : a.cursor.Tidy)
    (hr : n ≤ runs) (h : readRun runs n a.cursor = (.ok (xs.map t.toPhysical), c)) :
    a.readRows n = (.ok (xs.map .scalar), a.readTo c xs.length) := by
  induction runs generalizing a n xs with
  | zero =>
    obtain rfl : n = 0 := by omega
    obtain ⟨hx, rfl⟩ := Outcome.ok_inj h
    obtain rfl := List.map_eq_nil_iff.1 hx.symm
    rfl
  | succ runs ih =>
    rw [readRun] at h
    split at h
    · rename_i hn
      subst hn
      obtain ⟨hx, rfl⟩ := Outcome.ok_inj h
      obtain rfl := List.map_eq_nil_iff.1 hx.symm
      rfl
    · rename_i hn
      split at h
      · cases h
      · rename_i c₁ htake
        obtain ⟨hx, rfl⟩ := Outcome.ok_inj h
        obtain rfl := List.map_eq_nil_iff.1 hx.symm
        rcases Cursor.takeRun_ok htake with ⟨hready, -⟩ | ⟨c₂, k, hready, hk, -, hnil, -⟩
        · exact readRows_of_ready_false hready hn
        · -- a run that begins at a position takes it
          have hlt := (hc.ready hready).2.2 rfl
          have hlen := congrArg List.length hnil
          rw [Cursor.length_upcoming] at hlen
          simp only [List.length_nil] at hlen
          omega
      · rename_i x values c₁ htake
        obtain ⟨rest, hrest, hxs⟩ := Outcome.map_eq_ok_iff.1 h
        rcases Cursor.takeRun_ok htake with ⟨-, hnil⟩ | ⟨c₂, k, hready, hk, hv, hvalues, rfl⟩
        · cases hnil
        · have hlen := congrArg List.length hvalues
          rw [Cursor.length_upcoming, List.length_cons] at hlen
          have htidy := (hc.ready hready).1
          have hle := htidy.levels_le
          have hb₂ : c₂.bounds = ⟨0, 0⟩ := (Cursor.bounds_ready hready).trans hb
          -- the values of the run come first, those of the further runs behind it
          obtain ⟨first, others, rfl, hfirst, hothers⟩ := List.map_eq_append_iff.1 hxs
          have hhere := readRows_of_run hl hb hc hready (show 0 < k by omega) (by omega) hv
            (hvalues.symm.trans hfirst.symm)
          have hk' : first.length = k := by
            have := congrArg List.length hfirst
            rw [List.length_map, List.length_cons] at this
            omega
          rw [hlen, ← hothers] at hrest
          have hthere := ih (a := (a.withCursor c₂).readTo (c₂.skip k) k) hl hb₂
            (htidy.skip (by omega) hv) (by omega) hrest
          have happend := readRows_append hhere (by rw [List.length_map, hk']) (n - k)
          rw [hthere, Nat.add_sub_cancel' (by omega)] at happend
          rw [happend, readTo_readTo, List.length_append, hk', List.map_append]
          rfl

/-- **A batch is what is read row by row.** -/
theorem readRows_of_readBatch (hb : a.cursor.bounds = a.shape.column.bounds)
    (hc : a.cursor.Tidy) (h : a.readBatch n = (.ok rows, a')) : a.readRows n = (.ok rows, a') := by
  unfold readBatch at h
  split at h
  · rename_i hd
    have hl := Holds.root_of_isDirect hd
    rw [ColumnShape.bounds_of_root hl] at hb
    unfold readDirect at h
    split at h
    · cases h
    · rename_i physical c hrun
      split at h
      · cases h
      · rename_i xs hxs
        obtain ⟨rfl, rfl⟩ := Outcome.ok_inj h
        have hphysical : physical = xs.map t.toPhysical := by
          have hxs := (mapM_eq_ok_iff.1 hxs).imp fun _ _ => LeafType.ofPhysical_eq_ok_iff.1
          rw [← List.forall₂_eq_eq_eq, List.forall₂_map_right_iff]
          exact hxs
        rw [hphysical] at hrun
        exact readRows_of_readRun hl hb hc (Nat.le_refl n) hrun
  · exact h

end Assembler

end Striping
