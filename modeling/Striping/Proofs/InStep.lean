import Striping.Physical.Faulty
import Striping.Proofs.Batches
import Striping.Proofs.Bulk
import Striping.Proofs.Merging
import Striping.Record.Reader

/-!
# Columns in step

A record is put together from one row of each column. These rows belong together only if all
columns have read equally many rows before.

**Scope.** One record reader over any `ColumnReader`s, which may answer what they like but run dry
at some time, and any calls in which no column failed.

* `Assembler.row?`: the row of a column at an index.
* `Assembler.HasRead`: how many rows an assembler has read, in whatever batches.
* `RecordReader.ofSchema_ok`, `RecordReader.read_eq_ok`: what it says that a reader was opened, and
  that a call has succeeded.
* `RecordReader.Advances`: a reader after calls in which no column failed.
* `RecordReader.read_inStep`: **as long as no column failed, every record is put together from the
  rows of one index**. `RecordReader.read_outOfStep`: after a column failed it need not be.
-/

namespace Striping

namespace Outcome

variable {σ α : Type}

/-- Parts that took a step together took it one by one. -/
theorem mapEach_eq_ok {step : σ → Outcome σ α} {ss ss' : List σ} {as : List α}
    (h : mapEach step ss = (.ok as, ss')) :
    ∃ outs : List (α × σ), as = outs.map Prod.fst ∧ ss' = outs.map Prod.snd ∧
      List.Forall₂ (fun s out => step s = (.ok out.1, out.2)) ss outs := by
  induction ss generalizing as ss' with
  | nil =>
    obtain ⟨rfl, rfl⟩ := Outcome.ok_inj h
    exact ⟨[], rfl, rfl, .nil⟩
  | cons s ss ih =>
    rw [mapEach] at h
    split at h
    · rename_i a s' hs
      obtain ⟨h1, rfl⟩ := Prod.mk.inj h
      obtain ⟨as, has, rfl⟩ := Striping.map_eq_ok_iff.1 h1
      obtain ⟨outs, rfl, hss, hsteps⟩ := ih (Prod.ext has rfl)
      exact ⟨(a, s') :: outs, rfl, congrArg (s' :: ·) hss, .cons hs hsteps⟩
    · cases h

end Outcome

namespace Assembler

variable {t : LeafType} {ρ : Type} [ColumnReader ρ t.Physical] {a₀ a a' : Assembler t ρ}
  {rows batch : List (Nested t.Value)} {m n : Nat}

/-- The row of a column at an index, as the rows come one by one. -/
def row? (a : Assembler t ρ) (i : Nat) : Option (Nested t.Value) :=
  match (a.readRows (i + 1)).1 with
  | .ok rows => rows[i]?
  | .error _ => none

theorem row?_of_readRows (h : a.readRows m = (.ok rows, a')) {i : Nat} (hi : i < rows.length) :
    a.row? i = some rows[i] := by
  obtain ⟨a₁, h₁⟩ := readRows_take h hi
  unfold row?
  rw [h₁]
  show (rows.take (i + 1))[i]? = _
  rw [List.getElem?_take_of_lt (Nat.lt_succ_self i), List.getElem?_eq_getElem hi]

theorem length_le_of_readRows (h : a.readRows m = (.ok rows, a')) : rows.length ≤ m := by
  induction m generalizing a rows with
  | zero =>
    obtain ⟨rfl, rfl⟩ := Outcome.ok_inj h
    exact Nat.le_refl _
  | succ m ih =>
    rw [readRows] at h
    split at h
    · cases h
    · obtain ⟨rfl, -⟩ := Outcome.ok_inj h
      exact Nat.zero_le _
    · obtain ⟨rest, hrest, rfl⟩ := Outcome.map_eq_ok_iff.1 h
      exact Nat.succ_le_succ (ih hrest)

/-- Holds of an assembler that looks at the end of its column. -/
def Ended (a : Assembler t ρ) : Prop := a.cursor.peek = (.ok none, a.cursor)

/-- Holds of an assembler that is on its way through its column. -/
structure UnderWay (a : Assembler t ρ) : Prop where
  bounds_eq : a.cursor.bounds = a.shape.column.bounds
  tidy : a.cursor.Tidy

theorem UnderWay.readRows (ha : a.UnderWay) (h : a.readRows m = (.ok rows, a')) :
    a'.UnderWay := by
  obtain ⟨ps, -, hsteps, hshape⟩ := readRows_ok ha.bounds_eq h
  refine ⟨?_, (hsteps.tidy ha.tidy).1⟩
  rw [hsteps.bounds, ha.bounds_eq, hshape]

/-- Nothing more is read at the end of a column. -/
theorem Ended.readRows (h : a.Ended) (n : Nat) : a.readRows n = (.ok [], a) := by
  cases n with
  | zero => rfl
  | succ n =>
    have hr : a.readRow = (.ok none, a) := by
      unfold readRow
      rw [h]
      rfl
    rw [Assembler.readRows, hr]

/-- The assembler `a` has read `n` rows since it was `a₀`. -/
def HasRead (a₀ a : Assembler t ρ) (n : Nat) : Prop :=
  ∃ m rows, a₀.readRows m = (.ok rows, a) ∧ rows.length = n

theorem HasRead.refl (a : Assembler t ρ) : a.HasRead a 0 := ⟨0, [], rfl, rfl⟩

/-- **A batch is the next rows.** It is a short one only at the end of the column. -/
theorem HasRead.readBatch (h₀ : a₀.UnderWay) (h : a₀.HasRead a n) {most : Nat}
    (hr : a.readBatch most = (.ok batch, a')) :
    a₀.HasRead a' (n + batch.length) ∧
      List.Forall₂ (fun i row => a₀.row? i = some row) (List.range' n batch.length) batch ∧
      (batch.length ≠ most → a'.Ended) ∧ (a.Ended → batch = [] ∧ a'.Ended) := by
  obtain ⟨m, rows, hrows, rfl⟩ := h
  have ha := h₀.readRows hrows
  have hr := readRows_of_readBatch ha.bounds_eq ha.tidy hr
  have hended : batch.length ≠ most → a'.Ended := by
    intro hne
    have hle := length_le_of_readRows hr
    exact readRows_end hr (by omega)
  have hstay : a.Ended → batch = [] ∧ a' = a := by
    intro he
    obtain ⟨rfl, rfl⟩ := Outcome.ok_inj (hr.symm.trans (he.readRows most))
    exact ⟨rfl, rfl⟩
  by_cases hm : rows.length = m
  · have happend : a₀.readRows (m + most) = (.ok (rows ++ batch), a') := by
      rw [readRows_append hrows hm, hr]
      rfl
    refine ⟨⟨_, _, happend, List.length_append⟩, ?_, hended, ?_⟩
    · refine List.forall₂_iff_get.2 ⟨List.length_range', fun i _ hi => ?_⟩
      have hi' : rows.length + i < (rows ++ batch).length := by
        rw [List.length_append]
        omega
      have := row?_of_readRows happend hi'
      simpa using this
    · intro he
      obtain ⟨rfl, rfl⟩ := hstay he
      exact ⟨rfl, he⟩
  · have hle := length_le_of_readRows hrows
    have he : a.Ended := readRows_end hrows (by omega)
    obtain ⟨rfl, rfl⟩ := hstay he
    exact ⟨⟨m, rows, hrows, rfl⟩, .nil, hended, fun _ => ⟨rfl, he⟩⟩

end Assembler

namespace RecordReader

variable {ρ : Type} [ColumnReader ρ Cell] {r₀ r r' : RecordReader ρ} {most : Nat}
  {batches : List (List (Nested Cell))} {columns : List (Assembler .cell ρ)}
  {records : List Value}

/-- `r` comes of `r₀` by calls in which no column failed. Merging may have failed. -/
inductive Advances : RecordReader ρ → RecordReader ρ → Prop where
  | refl (r : RecordReader ρ) : Advances r r
  | read {r₀ r : RecordReader ρ} {most : Nat} {batches : List (List (Nested Cell))}
      {columns : List (Assembler .cell ρ)} (h : Advances r₀ r)
      (hc : Outcome.mapEach (Assembler.readBatch · most) r.columns = (.ok batches, columns)) :
      Advances r₀ (r.read most).2

/-- A call leaves the columns as they have become, whatever comes of it. -/
theorem columns_of_read (r : RecordReader ρ) (most : Nat) :
    (r.read most).2.columns = (Outcome.mapEach (Assembler.readBatch · most) r.columns).2 ∧
      (r.read most).2.schema = r.schema := by
  unfold read
  rcases Outcome.mapEach (Assembler.readBatch · most) r.columns with ⟨e | batches, columns⟩
  · exact ⟨rfl, rfl⟩
  · simp only
    split <;> exact ⟨rfl, rfl⟩

omit [ColumnReader ρ Cell] in
/-- Only batches of one length are merged. -/
theorem mergeBatches_eq_ok {fields : List Field} {names : List String}
    (hn : names.length = batches.length) (h : mergeBatches fields names batches = .ok records) :
    ∃ n, (∀ batch ∈ batches, batch.length = n) ∧
      List.Forall₂ (fun row record => mergeRecord fields row = .ok record) (rowsOf n batches)
        records := by
  unfold mergeBatches at h
  simp only at h
  split at h
  · cases h
  · rename_i hfind
    refine ⟨_, fun batch hb => ?_, mapM_eq_ok_iff.1 h⟩
    rw [← List.map_snd_zip (Nat.le_of_eq hn.symm)] at hb
    obtain ⟨⟨name, batch⟩, hz, rfl⟩ := List.mem_map.1 hb
    simpa using List.find?_eq_none.1 hfind _ hz

/-- **What a call that succeeds has done.** Each column has delivered a batch, all batches are as
long, and their rows were merged one after the other. -/
theorem read_eq_ok (h : r.read most = (.ok records, r')) :
    ∃ (outs : List (List (Nested Cell) × Assembler .cell ρ)) (n : Nat),
      List.Forall₂ (fun a out => a.readBatch most = (.ok out.1, out.2)) r.columns outs ∧
        (∀ batch ∈ outs.map Prod.fst, batch.length = n) ∧
        List.Forall₂ (fun row record => mergeRecord r.schema.fields row = .ok record)
          (rowsOf n (outs.map Prod.fst)) records := by
  unfold RecordReader.read at h
  split at h
  · cases h
  · rename_i batches columns hc
    obtain ⟨outs, rfl, rfl, houts⟩ := Outcome.mapEach_eq_ok hc
    split at h
    · cases h
    · rename_i hmerge
      obtain ⟨rfl, -⟩ := Outcome.ok_inj h
      have hnames : ((outs.map Prod.snd).map (·.shape.column.name)).length =
          (outs.map Prod.fst).length := by
        rw [List.length_map, List.length_map, List.length_map]
      obtain ⟨n, hn, hrecords⟩ := mergeBatches_eq_ok hnames hmerge
      exact ⟨outs, n, houts, hn, hrecords⟩

/-- The columns of `r` are those of `r₀` after they read on. As long as none of them is at its
end, they have read equally many rows. -/
structure InStep (r₀ r : RecordReader ρ) : Prop where
  schema_eq : r.schema = r₀.schema
  hasRead : List.Forall₂ (fun a₀ a => ∃ n, a₀.HasRead a n) r₀.columns r.columns
  aligned : (∃ n, List.Forall₂ (fun a₀ a => a₀.HasRead a n) r₀.columns r.columns) ∨
    ∃ a ∈ r.columns, a.Ended

theorem InStep.refl (r : RecordReader ρ) : InStep r r where
  schema_eq := rfl
  hasRead := List.forall₂_same.2 fun a _ => ⟨0, .refl a⟩
  aligned := .inl ⟨0, List.forall₂_same.2 fun a _ => .refl a⟩

/-- What a call in which no column fails brings, column by column. -/
theorem forall₂_of_read (h₀ : ∀ a ∈ r₀.columns, a.UnderWay) {outs : List (List (Nested Cell) ×
    Assembler .cell ρ)} (houts : List.Forall₂ (fun a out => a.readBatch most = (.ok out.1, out.2))
      r.columns outs) {n : Nat}
    (h : List.Forall₂ (fun a₀ a => a₀.HasRead a n) r₀.columns r.columns) :
    List.Forall₂ (fun a₀ out => a₀.HasRead out.2 (n + out.1.length) ∧
      List.Forall₂ (fun i row => a₀.row? i = some row) (List.range' n out.1.length) out.1 ∧
      (out.1.length ≠ most → out.2.Ended)) r₀.columns outs := by
  have hboth := (List.forall₂_and_left _ _).2 ⟨h₀, forall₂_trans h houts⟩
  refine hboth.imp ?_
  rintro a₀ out ⟨hu, a, ha, hr⟩
  obtain ⟨h1, h2, h3, -⟩ := ha.readBatch hu hr
  exact ⟨h1, h2, h3⟩

/-- **Columns that do not fail stay in step.** -/
theorem InStep.read (h₀ : ∀ a ∈ r₀.columns, a.UnderWay) (h : InStep r₀ r)
    (hc : Outcome.mapEach (Assembler.readBatch · most) r.columns = (.ok batches, columns)) :
    InStep r₀ (r.read most).2 := by
  obtain ⟨hcolumns, hschema⟩ := columns_of_read r most
  rw [hc] at hcolumns
  obtain ⟨outs, rfl, rfl, houts⟩ := Outcome.mapEach_eq_ok hc
  refine ⟨hschema.trans h.schema_eq, ?_, ?_⟩
  · rw [hcolumns, List.forall₂_map_right_iff]
    have hboth := (List.forall₂_and_left _ _).2 ⟨h₀, forall₂_trans h.hasRead houts⟩
    refine hboth.imp ?_
    rintro a₀ out ⟨hu, a, ⟨n, ha⟩, hr⟩
    exact ⟨_, (ha.readBatch hu hr).1⟩
  · rw [hcolumns]
    rcases h.aligned with ⟨n, hn⟩ | ⟨a, ha, he⟩
    · have hread := forall₂_of_read h₀ houts hn
      by_cases hfull : ∀ out ∈ outs, out.1.length = most
      · refine .inl ⟨n + most, List.forall₂_map_right_iff.2 ?_⟩
        obtain ⟨hlen, hzip⟩ := List.forall₂_iff_zip.1 hread
        refine List.forall₂_iff_zip.2 ⟨hlen, fun hmem => ?_⟩
        rw [← hfull _ (List.of_mem_zip hmem).2]
        exact (hzip hmem).1
      · -- a column that has fewer rows is at its end
        push Not at hfull
        obtain ⟨out, hout, hne⟩ := hfull
        obtain ⟨a₀, -, -, -, he⟩ := exists_of_forall₂ hread hout
        exact .inr ⟨out.2, List.mem_map_of_mem hout, he hne⟩
    · -- and stays there
      obtain ⟨a₀, ha₀, n, hn⟩ := exists_of_forall₂ h.hasRead ha
      obtain ⟨out, hout, hr⟩ := exists_of_forall₂ houts.flip ha
      obtain ⟨-, -, -, hstay⟩ := hn.readBatch (h₀ a₀ ha₀) hr
      exact .inr ⟨out.2, List.mem_map_of_mem hout, (hstay he).2⟩

theorem Advances.inStep (h₀ : ∀ a ∈ r₀.columns, a.UnderWay) (h : r₀.Advances r) :
    InStep r₀ r := by
  induction h with
  | refl => exact .refl _
  | read _ hc ih => exact ih.read h₀ hc

/-- **Columns in step give the rows of one index.** -/
theorem InStep.rows (h₀ : ∀ a ∈ r₀.columns, a.UnderWay) (h : InStep r₀ r)
    (hread : r.read most = (.ok records, r')) :
    ∃ first, List.Forall₂ (fun i record => ∃ row,
        List.Forall₂ (fun a n => a.row? i = some n) r₀.columns row ∧
          mergeRecord r₀.schema.fields row = .ok record)
      (List.range' first records.length) records := by
  obtain ⟨outs, k, houts, hk, hrecords⟩ := read_eq_ok hread
  rw [h.schema_eq] at hrecords
  have hlen := (length_rowsOf k _).symm.trans hrecords.length_eq
  rw [← hlen]
  rcases h.aligned with ⟨n, hn⟩ | ⟨a, ha, he⟩
  · have hbatches : List.Forall₂ (fun a₀ batch => List.Forall₂
        (fun i row => a₀.row? i = some row) (List.range' n k) batch) r₀.columns
          (outs.map Prod.fst) := by
      obtain ⟨hlen, hzip⟩ := List.forall₂_iff_zip.1 (forall₂_of_read h₀ houts hn)
      refine List.forall₂_map_right_iff.2 (List.forall₂_iff_zip.2 ⟨hlen, fun hmem => ?_⟩)
      rw [← hk _ (List.mem_map_of_mem (List.of_mem_zip hmem).2)]
      exact (hzip hmem).2.1
    have hrows := rowsOf_forall₂ hbatches
    rw [List.length_range'] at hrows
    exact ⟨n, forall₂_trans hrows hrecords⟩
  · -- a column at its end has no rows, so there are no records
    obtain ⟨a₀, ha₀, n, hn⟩ := exists_of_forall₂ h.hasRead ha
    obtain ⟨out, hout, hr⟩ := exists_of_forall₂ houts.flip ha
    obtain ⟨-, -, -, hstay⟩ := hn.readBatch (h₀ a₀ ha₀) hr
    obtain rfl : k = 0 := by
      rw [← hk _ (List.mem_map_of_mem hout), (hstay he).1]
      rfl
    obtain rfl := List.forall₂_nil_left_iff.1 hrecords
    exact ⟨0, .nil⟩

omit [ColumnReader ρ Cell] in
/-- A reader that was opened reads the columns of its schema, each with an assembler of its own. -/
theorem ofSchema_ok {schema : Schema} {readers : List ρ} {cache cache' : ShapeCache}
    {options : Options} (h : ofSchema schema readers cache options = (.ok r, cache')) :
    r.schema = schema ∧ schema.columns = .ok (r.columns.map (·.shape.column)) ∧
      List.Forall₂ (fun reader a => Assembler.ofShape a.shape reader options = .ok a) readers
        r.columns := by
  unfold ofSchema at h
  split at h
  · cases h
  · rename_i columns hc
    split at h
    · cases h
    · rename_i hlen
      obtain ⟨assemblers, ha, rfl⟩ := Outcome.map_eq_ok_iff.1 h
      have hlen : readers.length = columns.length := Decidable.not_not.1 hlen
      have hopen : List.Forall₂ (fun column a => column.1 = a.shape.column ∧
          Assembler.ofShape a.shape column.2 options = .ok a) (columns.zip readers) assemblers := by
        refine (ShapeCache.openEach_ok ha).imp fun column a ⟨shape, hshape, hstart⟩ => ?_
        obtain ⟨rfl, -⟩ := Assembler.cursor_of_ofShape hstart
        exact ⟨hshape.symm, hstart⟩
      refine ⟨rfl, ?_, ?_⟩
      · rw [hc, ← map_eq_map_of_forall₂ (hopen.imp fun _ _ h => h.1),
          List.map_fst_zip (Nat.le_of_eq hlen.symm)]
      · rw [← List.map_snd_zip (Nat.le_of_eq hlen), List.forall₂_map_left_iff]
        exact hopen.imp fun _ _ h => h.2

omit [ColumnReader ρ Cell] in
/-- The columns of a new reader are on their way. -/
theorem underWay_of_ofSchema {schema : Schema} {readers : List ρ} {cache cache' : ShapeCache}
    {options : Options} (h : ofSchema schema readers cache options = (.ok r, cache')) :
    r.schema = schema ∧ ∀ a ∈ r.columns, a.UnderWay := by
  obtain ⟨hschema, -, hopen⟩ := ofSchema_ok h
  refine ⟨hschema, fun a hmem => ?_⟩
  obtain ⟨reader, -, hstart⟩ := exists_of_forall₂ hopen hmem
  obtain ⟨htidy, hbounds, -⟩ := Cursor.fresh_of_make (Assembler.cursor_of_ofShape hstart).2
  exact ⟨hbounds, htidy⟩

/-- **Records are put together from the rows of one index** as long as no column has failed.
Calls may ask for any numbers of records, and may fail when the columns are merged or end at
different places. The readers may answer what they like, but run dry at some time. -/
theorem read_inStep {schema : Schema} {readers : List ρ} {cache cache' : ShapeCache}
    {options : Options} (h : ofSchema schema readers cache options = (.ok r₀, cache'))
    (hr : r₀.Advances r) (hread : r.read most = (.ok records, r')) :
    ∃ first, List.Forall₂ (fun i record => ∃ row,
        List.Forall₂ (fun a n => a.row? i = some n) r₀.columns row ∧
          mergeRecord schema.fields row = .ok record)
      (List.range' first records.length) records := by
  obtain ⟨rfl, h₀⟩ := underWay_of_ofSchema h
  exact (hr.inStep h₀).rows h₀ hread

/-- Records of two numbers. -/
def points : Schema where
  name := "points"
  fields := [.mk "x" (.primitive .int32) false, .mk "y" (.primitive .int32) false]

/-- A record of that schema. -/
def point (x y : Int32) : Value := .struct [("x", .int32 x), ("y", .int32 y)]

/-- A reader of some numbers, one at a time. The calls with the given numbers fail. -/
def numbersReader (numbers : List Int32) (failures : List Nat) : Faulty (Script Cell) where
  inner := ⟨numbers.map fun n => .ok { values := #[.int32 n], valuesRead := 1, levelsRead := 1 }⟩
  failures := failures
  error := .physical "source" "disk gone"

/-- Of two records the second one is read after the first one. -/
theorem read_inStep_points :
    ∃ r₀ cache r r', ofSchema points [numbersReader [1, 2] [], numbersReader [10, 20] []] .empty
        ⟨1⟩ = (.ok r₀, cache) ∧
      r₀.Advances r ∧ r.read 1 = (.ok [point 2 20], r') ∧
      ∃ first, List.Forall₂ (fun i record => ∃ row,
          List.Forall₂ (fun a n => a.row? i = some n) r₀.columns row ∧
            mergeRecord points.fields row = .ok record)
        (List.range' first 1) [point 2 20] := by
  obtain ⟨r₀, cache, hopen, hfirst, hsecond⟩ : ∃ r₀ cache,
      ofSchema points [numbersReader [1, 2] [], numbersReader [10, 20] []] .empty ⟨1⟩ =
        (.ok r₀, cache) ∧
      (Outcome.mapEach (Assembler.readBatch · 1) r₀.columns).1 =
        .ok [[.scalar (.int32 1)], [.scalar (.int32 10)]] ∧
      ((r₀.read 1).2.read 1).1 = .ok [point 2 20] := ⟨_, _, rfl, by cbv, by cbv⟩
  have hr : r₀.Advances (r₀.read 1).2 := .read (.refl r₀) (Prod.ext hfirst rfl)
  have hread : (r₀.read 1).2.read 1 = (.ok [point 2 20], _) := Prod.ext hsecond rfl
  exact ⟨r₀, cache, _, _, hopen, hr, hread, read_inStep hopen hr hread⟩

/-- **After a column failed, rows of different records are put together.** The second column fails
when it is first asked, after the first column has read its first row. The next call succeeds. It
gives the second number of the one column together with the first number of the other one. -/
theorem read_outOfStep :
    ∃ r₀ cache e r r', ofSchema points [numbersReader [1, 2] [], numbersReader [10, 20] [1]]
        .empty ⟨1⟩ = (.ok r₀, cache) ∧
      r₀.read 1 = (.error e, r) ∧ r.read 1 = (.ok [point 2 10], r') ∧
      ¬∃ i : Nat, ([1, 2] : List Int32)[i]? = some 2 ∧
        ([10, 20] : List Int32)[i]? = some 10 := by
  obtain ⟨r₀, cache, hopen, hfirst, hsecond⟩ : ∃ r₀ cache,
      ofSchema points [numbersReader [1, 2] [], numbersReader [10, 20] [1]] .empty ⟨1⟩ =
        (.ok r₀, cache) ∧
      (r₀.read 1).1 = .error (.physical "source" "disk gone") ∧
      ((r₀.read 1).2.read 1).1 = .ok [point 2 10] := ⟨_, _, rfl, by cbv, by cbv⟩
  refine ⟨r₀, cache, _, _, _, hopen, Prod.ext hfirst rfl, Prod.ext hsecond rfl, ?_⟩
  rintro ⟨_ | _ | i, h, h'⟩
  · exact absurd h (by decide)
  · exact absurd h' (by decide)
  · cases h

end RecordReader

end Striping
