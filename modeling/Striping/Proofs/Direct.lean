import Mathlib
import Striping.Physical.Script
import Striping.Proofs.Transparency

/-!
# Reading in bulk fails alike

**Scope.** An assembler of a column of required leaves without nesting, whose stored form is the
value itself, over any `ColumnReader`. The reader runs dry at some time, but may fail before that
and may report fewer values than positions; and any calls may have come before, also failed ones.

* `Cursor.takeRun_error`: the two ways in which taking a run fails.
* `Assembler.readRows_missing`: a run whose values run out fails where they do.
* `Assembler.readRows_of_readRun_error`: **runs fail as the rows do that are read one by one**.
* `Assembler.readDirect_eq_readRows`: **reading in bulk is reading row by row**, in what is
  returned, in how it fails, and after a success in the place that is reached.
-/

namespace Striping

/-- Every stored form of a leaf type that is read in bulk is one of a value. -/
theorem LeafType.exists_toPhysical {t : LeafType} (h : t.isDirect = true) (p : t.Physical) :
    ∃ x : t.Value, p = t.toPhysical x := by
  cases t with
  | bool | int32 | int64 | float32 | float64 | sharedBytes | cell => exact ⟨p, rfl⟩
  | _ => cases h

theorem LeafType.exists_map_toPhysical {t : LeafType} (h : t.isDirect = true)
    (ps : List t.Physical) : ∃ xs : List t.Value, ps = xs.map t.toPhysical := by
  induction ps with
  | nil => exact ⟨[], rfl⟩
  | cons p ps ih =>
    obtain ⟨x, rfl⟩ := LeafType.exists_toPhysical h p
    obtain ⟨xs, rfl⟩ := ih
    exact ⟨x :: xs, rfl⟩

namespace Cursor

variable {ρ P : Type} [ColumnReader ρ P] {c c' : Cursor ρ P}

/-- **The two ways in which taking a run fails**: there is no batch, or it has too few values. -/
theorem takeRun_error [Inhabited P] {most : Nat} {e : Error}
    (h : c.takeRun most = (.error e, c')) :
    c.ready = (.error e, c') ∨
      (c.ready = (.ok true, c') ∧ e = c'.corruptBatch .missingValue ∧
        c'.valuesRead < c'.valueIndex + min most (c'.levelsRead - c'.levelIndex)) := by
  unfold takeRun at h
  split at h
  · rename_i e' c₁ hr
    obtain ⟨he, rfl⟩ := Prod.mk.inj h
    obtain rfl := Except.error.inj he
    exact .inl hr
  · cases h
  · rename_i c₁ hr
    simp only at h
    split at h
    · rename_i hv
      obtain ⟨he, rfl⟩ := Prod.mk.inj h
      exact .inr ⟨hr, (Except.error.inj he).symm, hv⟩
    · cases h

/-- There is nothing to look at where there is no batch. -/
theorem peek_of_ready_error {e : Error} (h : c.ready = (.error e, c')) :
    c.peek = (.error e, c') := by
  unfold peek
  rw [h]

end Cursor

namespace Assembler

variable {t : LeafType} {ρ : Type} [ColumnReader ρ t.Physical] {a : Assembler t ρ} {n : Nat}

/-- A failure of the first row is one of all of them. -/
theorem readRows_of_readRow_error {a' : Assembler t ρ} {e : Error}
    (h : a.readRow = (.error e, a')) (hn : 0 < n) : (a.readRows n).1 = .error e := by
  obtain ⟨n, rfl⟩ := Nat.exists_eq_add_one.2 hn
  rw [readRows, h]

/-- Rows that cannot be read make those fail that are to be read before them as well. -/
theorem readRows_error_append {a' : Assembler t ρ} {rows : List (Nested t.Value)} {m : Nat}
    {e : Error} (h : a.readRows m = (.ok rows, a')) (hm : rows.length = m)
    (he : (a'.readRows n).1 = .error e) : (a.readRows (m + n)).1 = .error e := by
  rw [readRows_append h hm]
  show (a'.readRows n).1.map (rows ++ ·) = .error e
  rw [he]
  rfl

/-- A position of a column without levels whose value is missing cannot be read. -/
theorem readRow_missing {c : Cursor ρ t.Physical} (hl : a.shape.root = .leaf none 0)
    (hb : c.bounds = ⟨0, 0⟩) (hp : a.cursor.peek = (.ok (some ⟨0, 0⟩), c))
    (hv : c.valuesRead ≤ c.valueIndex) :
    a.readRow = (.error (c.corruptBatch .missingValue), a.withCursor c) := by
  have htake : c.takeValue ⟨0, 0⟩ = (.error (c.corruptBatch .missingValue), c) := by
    unfold Cursor.takeValue Cursor.corruptBatch
    rw [if_neg (Nat.not_lt.2 hv), hb]
  have henter : c.enter (.leaf none 0) = (.ok ⟨0, 0⟩, c) := by
    unfold Cursor.enter Cursor.expectLevels
    rw [Cursor.peek_peek hp]
    exact if_neg Int16.lt_irrefl
  have hleaf : (Node.leaf none 0).assemble t c =
      (.error (c.corruptBatch .missingValue), c) := by
    unfold Node.assemble
    rw [henter]
    simp only [Int16.le_refl, if_true]
    unfold Node.readLeaf
    rw [htake]
  unfold readRow
  rw [hp]
  simp only [ne_eq, not_true_eq_false, if_false, hl, hleaf]

/-- **A run whose values run out fails where they do**: the rows before that place can be read. -/
theorem readRows_missing {c : Cursor ρ t.Physical} (ht : t.isDirect = true)
    (hl : a.shape.root = .leaf none 0) (hb : a.cursor.bounds = ⟨0, 0⟩) (hc : a.cursor.Tidy)
    (hready : a.cursor.ready = (.ok true, c))
    (hv : c.valuesRead < c.valueIndex + min n (c.levelsRead - c.levelIndex)) :
    (a.readRows n).1 = .error (c.corruptBatch .missingValue) := by
  have hb' : c.bounds = ⟨0, 0⟩ := (Cursor.bounds_ready hready).trans hb
  have hle := (hc.ready hready).1.values_le
  obtain ⟨k, hk⟩ : ∃ k, k = c.valuesRead - c.valueIndex := ⟨_, rfl⟩
  obtain ⟨m, hm⟩ : ∃ m, n = k + (m + 1) := ⟨n - k - 1, by omega⟩
  -- the values that are there are rows
  obtain ⟨xs, hxs⟩ := LeafType.exists_map_toPhysical ht (c.upcoming k)
  have hlen : xs.length = k := by
    rw [← List.length_map t.toPhysical, ← hxs, Cursor.length_upcoming]
  have hrows := readRows_skip (a := a.withCursor c) hl hb' (show c.levelIndex + k ≤ c.levelsRead by
    omega) (show c.valueIndex + k ≤ c.valuesRead by omega) hxs
  -- behind them there is a position, and no value for it
  have hpeek := Cursor.peek_of_ready_flat (c := c.skip k) hb'
    (Cursor.ready_of_lt (show c.levelIndex + k < c.levelsRead by omega))
  have hmissing := readRow_missing (a := (a.withCursor c).readTo (c.skip k) k) hl
    (show (c.skip k).bounds = ⟨0, 0⟩ from hb') hpeek
    (show c.valuesRead ≤ c.valueIndex + k by omega)
  rw [readRows_of_ready hready (by omega), hm]
  refine readRows_error_append hrows (by rw [List.length_map, hlen]) ?_
  exact readRows_of_readRow_error hmissing (Nat.succ_pos m)

/-- **Runs fail as the rows do that are read one by one.** -/
theorem readRows_of_readRun_error {c : Cursor ρ t.Physical} {runs : Nat} {e : Error}
    (ht : t.isDirect = true) (hl : a.shape.root = .leaf none 0) (hb : a.cursor.bounds = ⟨0, 0⟩)
    (hc : a.cursor.Tidy) (hr : n ≤ runs) (h : readRun runs n a.cursor = (.error e, c)) :
    (a.readRows n).1 = .error e := by
  induction runs generalizing a n with
  | zero => cases h
  | succ runs ih =>
    rw [readRun] at h
    split at h
    · cases h
    · rename_i hn
      split at h
      · rename_i e' c₁ htake
        obtain ⟨he, -⟩ := Prod.mk.inj h
        obtain rfl := Except.error.inj he
        rcases Cursor.takeRun_error htake with hready | ⟨hready, rfl, hv⟩
        · have hrow : a.readRow = (.error e', a.withCursor c₁) := by
            unfold readRow
            rw [Cursor.peek_of_ready_error hready]
          exact readRows_of_readRow_error hrow (Nat.pos_of_ne_zero hn)
        · exact readRows_missing ht hl hb hc hready hv
      · cases h
      · rename_i x values c₁ htake
        have hrest := Outcome.of_map_eq_error h
        rcases Cursor.takeRun_ok htake with ⟨-, hnil⟩ | ⟨c₂, k, hready, hk, hv, hvalues, rfl⟩
        · cases hnil
        · -- the run has succeeded, so its rows are there and the failure is behind them
          have hlen := congrArg List.length hvalues
          rw [Cursor.length_upcoming, List.length_cons] at hlen
          have htidy := (hc.ready hready).1
          have hle := htidy.levels_le
          have hb₂ : c₂.bounds = ⟨0, 0⟩ := (Cursor.bounds_ready hready).trans hb
          obtain ⟨xs, hxs⟩ := LeafType.exists_map_toPhysical ht (c₂.upcoming k)
          have hhere := readRows_of_run hl hb hc hready (show 0 < k by omega) (by omega) hv hxs
          have hcount : xs.length = k := by
            rw [← List.length_map t.toPhysical, ← hxs, Cursor.length_upcoming]
          rw [hlen] at hrest
          have hthere := ih (a := (a.withCursor c₂).readTo (c₂.skip k) k) hl hb₂
            (htidy.skip (by omega) hv) (by omega) hrest
          have hall := readRows_error_append hhere (by rw [List.length_map, hcount]) hthere
          rwa [Nat.add_sub_cancel' (by omega)] at hall

/-- Bulk reading of a tidy assembler is reading row by row. -/
theorem readDirect_of_tidy (ht : t.isDirect = true) (hl : a.shape.root = .leaf none 0)
    (hb : a.cursor.bounds = ⟨0, 0⟩) (hc : a.cursor.Tidy) :
    (a.readDirect n).1 = (a.readRows n).1 ∧
      ∀ rows a', a.readDirect n = (.ok rows, a') → a.readRows n = (.ok rows, a') := by
  have hd : a.isDirect = true := by
    unfold isDirect
    rw [ht, hl]
    rfl
  have hbatch : a.readBatch n = a.readDirect n := if_pos hd
  have hok : ∀ rows a', a.readDirect n = (.ok rows, a') → a.readRows n = (.ok rows, a') := by
    intro rows a' h
    refine readRows_of_readBatch ?_ hc (hbatch.trans h)
    rw [hb, ColumnShape.bounds_of_root hl]
  refine ⟨?_, hok⟩
  rcases h : a.readDirect n with ⟨e | rows, a'⟩
  · unfold readDirect at h
    split at h
    · rename_i e' c hrun
      obtain ⟨he, -⟩ := Prod.mk.inj h
      rw [readRows_of_readRun_error ht hl hb hc (Nat.le_refl n) hrun]
      exact he.symm
    · -- a value that is taken is converted
      rename_i physical c hrun
      obtain ⟨xs, rfl⟩ := LeafType.exists_map_toPhysical ht physical
      have hxs : (xs.map t.toPhysical).mapM t.ofPhysical = .ok xs := by
        rw [mapM_eq_ok_iff, List.forall₂_map_left_iff, List.forall₂_same]
        exact fun x _ => t.ofPhysical_toPhysical x
      rw [hxs] at h
      cases h
  · rw [hok rows a' h]

/-- **Reading in bulk is reading row by row.** Let a column of required leaves be read that stand at
its root and whose stored form is the value itself, from a reader that answers what it likes but
runs dry at some time, and let any calls have been made, whatever came of them. A batch of any
length, which is then read in bulk, brings the rows that come one by one, or fails as they do; and
if the rows can be read, the assembler is left as if they had come one by one, at the same place and
with the same number of rows. -/
theorem readDirect_eq_readRows {shape : ColumnShape} {level : Level} {reader : ρ}
    {options : Options} {b : Assembler t ρ} {calls : List Call}
    (h : ofShape shape reader options = .ok a) (hroot : shape.root = .leaf none level)
    (ht : t.isDirect = true) (hb : (a.run calls).2 = b) (n : Nat) :
    b.readBatch n = b.readDirect n ∧ (b.readDirect n).1 = (b.readRows n).1 ∧
      ∀ rows, (b.readRows n).1 = .ok rows → b.readDirect n = b.readRows n := by
  obtain ⟨rfl, hmake⟩ := cursor_of_ofShape h
  have hshape : b.shape = a.shape := by rw [← hb, run_shape]
  have hd : b.isDirect = true := by
    unfold isDirect
    rw [ht, hshape, hroot]
    rfl
  have hl := Holds.root_of_isDirect hd
  -- no call, and no failure of one, leaves the cursor elsewhere than moves can bring it
  have hsound := (Cursor.sound_of_make hmake).1
  obtain ⟨as, hm⟩ := run_moves hsound calls
  rw [hb] at hm
  have hbounds : b.cursor.bounds = ⟨0, 0⟩ := by
    rw [hm.bounds, (Cursor.fresh_of_make hmake).2.1, ← hshape, ColumnShape.bounds_of_root hl]
  obtain ⟨hsame, hok⟩ := readDirect_of_tidy (n := n) ht hl hbounds (hm.sound hsound).1.toTidy
  refine ⟨if_pos hd, hsame, ?_⟩
  intro rows hrows
  obtain ⟨x, b', hdirect⟩ : ∃ x b', b.readDirect n = (x, b') := ⟨_, _, rfl⟩
  have hx : x = .ok rows := by
    rw [hdirect, hrows] at hsame
    exact hsame
  subst hx
  rw [hdirect, hok rows b' hdirect]

end Assembler

/-- A reader of three numbers that claims to have given four. -/
def shortNumbers : Script Int32 :=
  ⟨[.ok ⟨#[], #[], #[7, 8], 2, 2⟩, .ok ⟨#[], #[], #[9], 1, 2⟩]⟩

/-- Behind the first row two more can be read in bulk. Three more cannot, since the value of the
last one is missing. -/
theorem Assembler.readDirect_eq_readRows_plain :
    ∃ a b : Assembler .int32 (Script Int32),
      ofShape .plain shortNumbers ⟨2⟩ = .ok a ∧ (a.run [.readRow]).2 = b ∧
      b.readBatch 2 = b.readDirect 2 ∧
      (b.readRows 2).1 = .ok [.scalar (8 : Int32), .scalar (9 : Int32)] ∧
      b.readDirect 2 = b.readRows 2 ∧
      (b.readRows 3).1 = .error (.corruptStream "plain" ⟨0, 0⟩ .missingValue) ∧
      (b.readDirect 3).1 = (b.readRows 3).1 := by
  obtain ⟨a, b, h, hb, hrows, herror⟩ : ∃ a b : Assembler .int32 (Script Int32),
      ofShape .plain shortNumbers ⟨2⟩ = .ok a ∧ (a.run [.readRow]).2 = b ∧
      (b.readRows 2).1 = .ok [.scalar (8 : Int32), .scalar (9 : Int32)] ∧
      (b.readRows 3).1 = .error (.corruptStream "plain" ⟨0, 0⟩ .missingValue) :=
    ⟨_, _, rfl, rfl, by cbv, by cbv⟩
  obtain ⟨hbulk, -, hstate⟩ := readDirect_eq_readRows h rfl rfl hb 2
  obtain ⟨-, hsame, -⟩ := readDirect_eq_readRows h rfl rfl hb 3
  exact ⟨a, b, h, hb, hbulk, hrows, hstate _ hrows, herror, hsame⟩

end Striping
