import Mathlib
import Striping.Proofs.Batches
import Striping.Proofs.InStep
import Striping.Proofs.NormalForm
import Striping.Proofs.RoundTrip
import Striping.Record.Reader

/-!
# Records are read as they were written

All columns of a schema are written and read side by side.

* `RecordWriter.Keeps`: the records that a writer has put into its stripes.
  `RecordWriter.Keeps.writeEach`: **they are those of the accepted batches**.
* `RecordReader.Holds`: the records that are left to be read. `RecordReader.Holds.read`:
  **a batch is the normal forms of the next ones**.
* `RecordReader.readEach_writeEach`: **the round trip**, for batches and buffers of any
  lengths.
-/

namespace Striping

section Opening

/-- Columns that have shapes are opened if each can be opened. -/
theorem ShapeCache.openEach_opens {χ β : Type} {start : ColumnShape → χ → Except Error β}
    {columns : List (Column × χ)}
    (hshape : ∀ column ∈ columns, ∃ shape, ColumnShape.infer column.1 = .ok shape)
    (hstart : ∀ shape x, ∃ b, start shape x = .ok b) (cache : ShapeCache) :
    ∃ bs cache', cache.openEach start columns = (.ok bs, cache') := by
  induction columns generalizing cache with
  | nil => exact ⟨[], cache, rfl⟩
  | cons column columns ih =>
    obtain ⟨column, x⟩ := column
    rw [List.forall_mem_cons] at hshape
    obtain ⟨shape, hs⟩ := hshape.1
    have hbuild : ∃ shared cache', cache.build column = (.ok shared, cache') := by
      unfold build
      rw [hs]
      exact ⟨_, _, rfl⟩
    obtain ⟨shared, cache', hget⟩ : ∃ shared cache', cache.getOrBuild column =
        (.ok shared, cache') := by
      unfold getOrBuild
      split
      · split
        · exact ⟨_, _, rfl⟩
        · exact hbuild
      · exact hbuild
    obtain ⟨b, hb⟩ := hstart shared.shape x
    obtain ⟨bs, cache'', hbs⟩ := ih hshape.2 cache'
    refine ⟨b :: bs, cache'', ?_⟩
    rw [openEach, hget]
    simp only [hb, hbs]
    rfl

variable {schema : Schema} {columns : List Column} {options : Options}

/-- The columns of a schema have shapes, whatever they are opened on. -/
theorem Schema.infer_of_mem_zip {χ : Type} {xs : List χ} (hc : schema.columns = .ok columns) :
    ∀ column ∈ columns.zip xs, ∃ shape, ColumnShape.infer column.1 = .ok shape :=
  fun _ h => Schema.infer_of_mem_columns hc (List.of_mem_zip h).1

/-- A record writer opens on one writer for each column. -/
theorem RecordWriter.ofSchema_opens {ω : Type} {writers : List ω}
    (hc : schema.columns = .ok columns) (hn : writers.length = columns.length)
    (ho : 0 < options.bufferLength) (cache : ShapeCache) :
    ∃ w cache', ofSchema schema writers cache options = (.ok w, cache') := by
  have hstart : ∀ shape (writer : ω), ∃ s : Shredder .cell ω,
      Shredder.ofShape shape writer options = .ok s := fun _ _ => Shredder.ofShape_ok rfl ho
  obtain ⟨shredders, cache', h⟩ : ∃ shredders cache', cache.openEach
      (fun shape writer => Shredder.ofShape shape writer options) (columns.zip writers) =
      (.ok shredders, cache') :=
    ShapeCache.openEach_opens (Schema.infer_of_mem_zip hc) hstart cache
  unfold ofSchema
  rw [hc]
  simp only [hn, ne_eq, not_true_eq_false, if_false, h]
  exact ⟨_, _, rfl⟩

/-- A record reader opens on one reader for each column. -/
theorem RecordReader.ofSchema_opens {ρ : Type} {readers : List ρ}
    (hc : schema.columns = .ok columns) (hn : readers.length = columns.length)
    (ho : 0 < options.bufferLength) (cache : ShapeCache) :
    ∃ r cache', ofSchema schema readers cache options = (.ok r, cache') := by
  have hstart : ∀ shape (reader : ρ), ∃ a : Assembler .cell ρ,
      Assembler.ofShape shape reader options = .ok a := fun _ _ => Assembler.ofShape_ok rfl ho
  obtain ⟨assemblers, cache', h⟩ : ∃ assemblers cache', cache.openEach
      (fun shape reader => Assembler.ofShape shape reader options) (columns.zip readers) =
      (.ok assemblers, cache') :=
    ShapeCache.openEach_opens (Schema.infer_of_mem_zip hc) hstart cache
  unfold ofSchema
  rw [hc]
  simp only [hn, ne_eq, not_true_eq_false, if_false, h]
  exact ⟨_, _, rfl⟩

end Opening

namespace RecordWriter

variable {w w' : RecordWriter (Stripe Cell)} {schema : Schema} {records more : List Value}

/-- A shredder that keeps its rows of some records. -/
def KeepsOf (fields : List Field) (records : List Value) (s : Shredder .cell (Stripe Cell)) :
    Prop :=
  ∃ rows, s.slicesOf fields records = .ok rows ∧ s.Kept rows

/-- A writer that has put just these records into its stripes. -/
structure Keeps (w : RecordWriter (Stripe Cell)) (records : List Value) : Prop where
  usable : w.failedColumn = none
  kept : ∀ s ∈ w.columns, KeepsOf w.schema.fields records s

/-- A new writer on the empty stripes of its columns keeps nothing. -/
theorem keeps_of_ofSchema {columns : List Column} {cache cache' : ShapeCache} {options : Options}
    (hc : schema.columns = .ok columns)
    (h : ofSchema schema (columns.map .ofColumn) cache options = (.ok w, cache')) :
    w.WritesTo schema ∧ w.Keeps [] := by
  obtain ⟨hs, -, hu, columns', hc', -, hopen⟩ := ofSchema_ok h
  obtain rfl := Except.ok.inj (hc.symm.trans hc')
  refine ⟨hs, hu, ?_⟩
  intro s hmem
  refine ⟨[], rfl, ?_⟩
  obtain ⟨⟨column, stripe⟩, hz, shape, rfl, hshape⟩ := exists_of_forall₂ hopen hmem
  obtain rfl : Stripe.ofColumn shape.column = stripe := by
    rw [← List.map_prod_left_eq_zip] at hz
    obtain ⟨c, -, hc⟩ := List.mem_map.1 hz
    obtain ⟨rfl, rfl⟩ := Prod.mk.inj hc
    rfl
  exact (Shredder.kept_of_ofShape hshape).1

/-- A shredder keeps its rows of further records if they pass the check. -/
theorem KeepsOf.write {fields : List Field} {s : Shredder .cell (Stripe Cell)}
    {rows : List (Nested Cell)} (h : KeepsOf fields records s)
    (hr : s.slicesOf fields more = .ok rows) (hv : s.validate rows = .ok ()) :
    ∃ s', s'.shape = s.shape ∧ ∃ n, s.write rows = (.ok n, s') ∧
      KeepsOf fields (records ++ more) s' := by
  obtain ⟨kept, hkept, hk⟩ := h
  obtain ⟨s', hw, hk', hshape⟩ := hk.write hv
  refine ⟨s', hshape, _, hw, kept ++ rows, ?_, hk'⟩
  unfold Shredder.slicesOf at hkept hr ⊢
  rw [hshape, mapM_eq_ok_iff]
  exact List.rel_append (mapM_eq_ok_iff.1 hkept) (mapM_eq_ok_iff.1 hr)

/-- **A batch is refused without an effect or kept as a whole.** -/
theorem Keeps.write (h : w.Keeps records) (more : List Value) :
    (∃ e, w.prepare more = .error e ∧ w.write more = (.error e, w)) ∨
      ∃ rows w', w.prepare more = .ok rows ∧ w.write more = (.ok more.length, w') ∧
        w'.Keeps (records ++ more) ∧ w'.schema = w.schema ∧
        w'.columns.map (·.shape) = w.columns.map (·.shape) := by
  cases hprep : w.prepare more with
  | error e => exact .inl ⟨e, rfl, write_of_prepare_error hprep⟩
  | ok rows =>
    refine .inr ⟨rows, ?_⟩
    obtain ⟨-, -, hrows, hv⟩ := prepare_eq_ok_iff.1 hprep
    -- a stripe takes every batch, so the case of a failure is empty
    have hstep : ∀ s rows, KeepsOf w.schema.fields records s →
        s.slicesOf w.schema.fields more = .ok rows → s.validate rows = .ok () →
        ∃ s', s'.shape = s.shape ∧
          ((∃ n, s.write rows = (.ok n, s') ∧ KeepsOf w.schema.fields (records ++ more) s') ∨
            ∃ e, s.write rows = (.error e, s') ∧ False) := by
      intro s rows hk hr hv
      obtain ⟨s', hshape, hwritten⟩ := hk.write hr hv
      exact ⟨s', hshape, .inl hwritten⟩
    obtain ⟨columns, hshapes, ⟨hwc, hq⟩ | ⟨e, before, s, after, -, -, -, hf, -⟩⟩ :=
      writeColumns_cases hstep h.kept hrows hv
    · refine ⟨{ w with columns := columns, recordsWritten := w.recordsWritten + more.length },
        rfl, ?_, ⟨h.usable, hq⟩, rfl, hshapes⟩
      unfold RecordWriter.write
      rw [hprep]
      simp only [hwc]
    · exact hf.elim

/-- **Several batches leave just the records of those that were accepted.** -/
theorem Keeps.writeEach (h : w.Keeps records) (hs : w.WritesTo schema)
    (calls : List (List Value)) :
    (w.writeEach calls).1.Keeps (records ++ (w.writeEach calls).2.flatten) ∧
      (w.writeEach calls).1.WritesTo schema := by
  induction calls generalizing w records with
  | nil =>
    rw [RecordWriter.writeEach, List.flatten_nil, List.append_nil]
    exact ⟨h, hs⟩
  | cons call calls ih =>
    rw [RecordWriter.writeEach]
    rcases h.write call with ⟨e, -, hw⟩ | ⟨rows, w', -, hw, h', hsame, hshapes⟩
    · rw [hw]
      exact ih h hs
    · rw [hw, List.flatten_cons, ← List.append_assoc]
      exact ih h' (hs.of_same hsame hshapes)

/-- A batch is accepted exactly if it passes the checks. -/
theorem Keeps.write_eq_ok_iff (h : w.Keeps records) :
    (∃ w', w.write more = (.ok more.length, w')) ↔ ∃ rows, w.prepare more = .ok rows := by
  rcases h.write more with ⟨e, hp, hw⟩ | ⟨rows, w', hp, hw, -⟩
  · rw [hp, hw]
    constructor
    · rintro ⟨_, h⟩; cases h
    · rintro ⟨_, h⟩; cases h
  · exact ⟨fun _ => ⟨rows, hp⟩, fun _ => ⟨w', hw⟩⟩

/-- Closing changes nothing. -/
theorem Keeps.close (h : w.Keeps records) : w.close = (.ok (), w) := by
  have hu : w.checkUsable = .ok () := by
    unfold checkUsable
    rw [h.usable]
  have hstep : ∀ s ∈ w.columns, ∃ a s', s.close = (.ok a, s') ∧ id s' = id s ∧ True := by
    intro s hs
    obtain ⟨rows, -, hk⟩ := h.kept s hs
    exact ⟨(), s, hk.ready.close, rfl, trivial⟩
  obtain ⟨as, ss, hrun, hid, -⟩ := Outcome.mapEach_ok hstep
  rw [List.map_id, List.map_id] at hid
  subst hid
  unfold RecordWriter.close
  rw [hu]
  simp only [hrun]
  rfl

end RecordWriter

namespace RecordReader

variable {ρ : Type} [ColumnReader ρ Cell] {r r' : RecordReader ρ} {schema : Schema}
  {records : List Value}

/-- An assembler in front of its slices of some records. -/
def HoldsOf (fields : List Field) (records : List Value) (a : Assembler .cell ρ) : Prop :=
  ∃ rows, (records.mapM fun record => projectRecord fields record a.shape.column.path) =
    .ok rows ∧ a.Holds rows

/-- A reader of the columns of a schema that is in front of just these records. -/
structure Holds (r : RecordReader ρ) (schema : Schema) (records : List Value) : Prop where
  schema_eq : r.schema = schema
  columns_eq : schema.columns = .ok (r.columns.map (·.shape.column))
  holds : ∀ a ∈ r.columns, HoldsOf schema.fields records a

/-- An assembler reads its slices of the next records. -/
theorem HoldsOf.readBatch {fields : List Field} {a : Assembler .cell ρ}
    (h : HoldsOf fields records a) (n : Nat) :
    ∃ batch a', a.readBatch n = (.ok batch, a') ∧ a'.shape = a.shape ∧
      ((records.take n).mapM fun record => projectRecord fields record a'.shape.column.path) =
        .ok batch ∧ HoldsOf fields (records.drop n) a' := by
  obtain ⟨rows, hrows, ha⟩ := h
  obtain ⟨a', hread, ha'⟩ := ha.readBatch n
  have hshape : a'.shape = a.shape := by
    have := a.readBatch_shape n
    rwa [hread] at this
  have hrows := mapM_eq_ok_iff.1 hrows
  refine ⟨rows.take n, a', hread, hshape, ?_, rows.drop n, ?_, ha'⟩
  · rw [hshape]
    exact mapM_eq_ok_iff.2 (List.forall₂_take n hrows)
  · rw [hshape]
    exact mapM_eq_ok_iff.2 (List.forall₂_drop n hrows)

omit [ColumnReader ρ Cell] in
/-- **The slices of records are merged into their normal forms.** -/
theorem mergeBatches_of_project (hs : schema.Sane) {columns : List (Assembler .cell ρ)}
    (hc : schema.columns = .ok (columns.map (·.shape.column)))
    {batches : List (List (Nested Cell))}
    (h : List.Forall₂ (fun a batch => (records.mapM fun record =>
      projectRecord schema.fields record a.shape.column.path) = .ok batch) columns batches)
    (names : List String) :
    mergeBatches schema.fields names batches =
      .ok (records.map (normalizeRecord schema.fields)) := by
  have hlen : ∀ batch ∈ batches, batch.length = records.length := by
    intro batch hb
    obtain ⟨a, -, ha⟩ := exists_of_forall₂ h hb
    exact (mapM_eq_ok_iff.1 ha).length_eq.symm
  have hrows : (batches.head?.map List.length).getD 0 = records.length := by
    cases batches with
    | nil =>
      rw [List.forall₂_nil_right_iff.1 h] at hc
      exact absurd rfl (Schema.columns_ne_nil hs hc)
    | cons batch batches => exact hlen batch List.mem_cons_self
  have hmerge : (rowsOf records.length batches).mapM (mergeRecord schema.fields) =
      .ok (records.map (normalizeRecord schema.fields)) := by
    refine mapM_eq_ok_iff.2 (List.forall₂_map_right_iff.2 (List.Forall₂.flip ?_))
    refine (rowsOf_forall₂ (h.imp fun a batch hb => mapM_eq_ok_iff.1 hb)).imp ?_
    intro record row hrow
    exact mergeRecord_of_project hs hc (List.forall₂_map_left_iff.2 hrow)
  unfold mergeBatches
  simp only [hrows]
  split
  · -- no batch is longer or shorter than the first
    rename_i name batch hfind
    have hbatch := hlen batch (List.of_mem_zip (List.mem_of_find?_eq_some hfind)).2
    have hbad := List.find?_some hfind
    simp [hbatch] at hbad
  · exact hmerge

/-- **A batch is the normal forms of the next records.** -/
theorem Holds.read (hs : schema.Sane) (h : r.Holds schema records) (n : Nat) :
    ∃ r', r.read n = (.ok ((records.take n).map (normalizeRecord schema.fields)), r') ∧
      r'.Holds schema (records.drop n) := by
  obtain ⟨batches, columns, hread, hshapes, hb⟩ :=
    Outcome.mapEach_ok fun a ha => (h.holds a ha).readBatch n
  have hcolumns : schema.columns = .ok (columns.map (·.shape.column)) := by
    rw [h.columns_eq, ColumnShape.map_column_eq hshapes]
  have hmerge := mergeBatches_of_project hs hcolumns (hb.imp fun _ _ h => h.1)
  have hrest : ∀ a ∈ columns, HoldsOf schema.fields (records.drop n) a := by
    intro a ha
    obtain ⟨batch, -, -, hrest⟩ := exists_of_forall₂ hb.flip ha
    exact hrest
  refine ⟨{ r with
    columns := columns
    recordsRead := r.recordsRead + ((records.take n).map (normalizeRecord schema.fields)).length },
    ?_, h.schema_eq, hcolumns, hrest⟩
  unfold RecordReader.read
  rw [hread]
  simp only [h.schema_eq, hmerge]

/-- There is another record exactly as long as records are left. -/
theorem Holds.hasNext (hs : schema.Sane) (h : r.Holds schema records) :
    r.hasNext.1 = .ok (decide (0 < records.length)) := by
  have hne := Schema.columns_ne_nil hs h.columns_eq
  unfold RecordReader.hasNext
  split
  · rename_i hnil
    rw [hnil] at hne
    exact absurd rfl hne
  · rename_i first rest hc
    obtain ⟨rows, hrows, ha⟩ := h.holds first (hc ▸ List.mem_cons_self)
    obtain ⟨a', hnext, -⟩ := ha.hasNext
    have hlen := (mapM_eq_ok_iff.1 hrows).length_eq
    rw [hnext, hlen]
    cases rows <;> rfl

/-- Reads several batches of up to so many records, up to the first that fails. -/
def readEach : RecordReader ρ → List Nat → Outcome (RecordReader ρ) (List (List Value))
  | r, [] => (.ok [], r)
  | r, most :: sizes =>
    match r.read most with
    | (.ok records, r) => Outcome.map (records :: ·) (r.readEach sizes)
    | (.error e, r) => (.error e, r)

/-- **Several batches are the records in order**, cut as they are asked for. -/
theorem Holds.readEach (hs : schema.Sane) (h : r.Holds schema records) (sizes : List Nat) :
    ∃ r', r.readEach sizes =
        (.ok (sizes.splitLengths (records.map (normalizeRecord schema.fields))), r') ∧
      r'.Holds schema (records.drop sizes.sum) := by
  induction sizes generalizing r records with
  | nil => exact ⟨r, rfl, h⟩
  | cons n sizes ih =>
    obtain ⟨r₁, hread, h₁⟩ := h.read hs n
    obtain ⟨r₂, hrest, h₂⟩ := ih h₁
    refine ⟨r₂, ?_, ?_⟩
    · rw [RecordReader.readEach, hread, List.splitLengths_cons, ← List.map_take, ← List.map_drop]
      exact Outcome.map_eq_ok_iff.2 ⟨_, hrest, rfl⟩
    · rw [List.drop_drop] at h₂
      rwa [List.sum_cons]

/-- A reader of the stripes of a writer is in front of the records that were put there. -/
theorem holds_of_keeps {w : RecordWriter (Stripe Cell)} (hw : w.WritesTo schema)
    (hk : w.Keeps records) {r : RecordReader (Stripe Cell)} {cache cache' : ShapeCache}
    {options : Options}
    (h : ofSchema schema (w.columns.map Shredder.writer) cache options = (.ok r, cache')) :
    r.Holds schema records := by
  obtain ⟨hschema, hcolumns, hopen⟩ := ofSchema_ok h
  refine ⟨hschema, hcolumns, fun a hmem => ?_⟩
  rw [List.forall₂_map_left_iff] at hopen
  -- the stripe is read with the shape it was written with, as its column has no other
  have hshapes : List.Forall₂ (fun s a => s.shape = a.shape) w.columns r.columns := by
    have hmap := Except.ok.inj (hw.columns_eq.symm.trans hcolumns)
    rw [← List.forall₂_eq_eq_eq, List.forall₂_map_left_iff, List.forall₂_map_right_iff] at hmap
    exact hmap.imp fun _ _ => ColumnShape.eq_of_column
  obtain ⟨s, hs, hstart, hshape⟩ := exists_of_forall₂ (forall₂_and hopen hshapes) hmem
  obtain ⟨rows, hrows, hkept⟩ := hk.kept s hs
  refine ⟨rows, ?_, hkept.holds (hshape ▸ hstart)⟩
  rw [← hshape, ← hw.schema_eq]
  exact hrows

/-- **Records are read as they were written.** Whatever the lengths of the buffers and
whatever shapes were kept before, a batch is accepted if it passes the checks, and the accepted
batches are read back in batches of any sizes: all records, in order, each in its normal form
and up to the last bit. There is another record just as long as fewer were asked for than there
are. -/
theorem readEach_writeEach (hs : schema.Sane) {columns : List Column}
    (hc : schema.columns = .ok columns) {writing reading : Options}
    (hw : 0 < writing.bufferLength) (hr : 0 < reading.bufferLength) (cache cache' : ShapeCache) :
    ∃ w₀ cache₁, RecordWriter.ofSchema schema (columns.map Stripe.ofColumn) cache writing =
        (.ok w₀, cache₁) ∧
      ∀ calls w accepted, w₀.writeEach calls = (w, accepted) →
        (∀ records, (∃ w', w.write records = (.ok records.length, w')) ↔
          ∃ rows, w.prepare records = .ok rows) ∧
        ∃ w₁ r₀ cache₂, w.close = (.ok (), w₁) ∧
          ofSchema schema (w₁.columns.map Shredder.writer) cache' reading = (.ok r₀, cache₂) ∧
          ∀ sizes, ∃ batches r, r₀.readEach sizes = (.ok batches, r) ∧
            batches = sizes.splitLengths
              (accepted.flatten.map (normalizeRecord schema.fields)) ∧
            (accepted.flatten.length ≤ sizes.sum →
              batches.flatten = accepted.flatten.map (normalizeRecord schema.fields)) ∧
            r.hasNext.1 = .ok (decide (sizes.sum < accepted.flatten.length)) := by
  have hlen : (columns.map Stripe.ofColumn : List (Stripe Cell)).length = columns.length :=
    List.length_map _
  obtain ⟨w₀, cache₁, hopen⟩ := RecordWriter.ofSchema_opens hc hlen hw cache
  refine ⟨w₀, cache₁, hopen, ?_⟩
  intro calls w accepted hcalls
  obtain ⟨hto, hkeeps⟩ := RecordWriter.keeps_of_ofSchema hc hopen
  -- whatever was refused on the way, the stripes hold the accepted batches in a row
  obtain ⟨hk, hto⟩ := hkeeps.writeEach hto calls
  rw [hcalls, List.nil_append] at hk
  rw [hcalls] at hto
  have hlen : (w.columns.map Shredder.writer).length =
      (w.columns.map (·.shape.column)).length := by
    rw [List.length_map, List.length_map]
  obtain ⟨r₀, cache₂, hropen⟩ := ofSchema_opens hto.columns_eq hlen hr cache'
  refine ⟨fun records => hk.write_eq_ok_iff, w, r₀, cache₂, hk.close, hropen, ?_⟩
  intro sizes
  obtain ⟨r, hread, hrest⟩ := (holds_of_keeps hto hk hropen).readEach hs sizes
  refine ⟨_, r, hread, rfl, ?_, ?_⟩
  · intro hle
    exact List.flatten_splitLengths _ _ (by rw [List.length_map]; exact hle)
  · rw [hrest.hasNext hs, List.length_drop]
    show Except.ok (decide (0 < accepted.flatten.length - sizes.sum)) = _
    congr 1
    rw [decide_eq_decide]
    omega

/-- Records with a list, a struct and a map. -/
def houses : Schema where
  name := "houses"
  fields := [.mk "id" (.primitive .int32) false,
    .mk "tags" (.list (.mk "element" (.primitive .int32) true)) false,
    .mk "home" (.struct [.mk "floor" (.primitive .int32) false,
      .mk "door" (.primitive .int32) true]) true,
    .mk "scores" (.map (.mk keyName (.primitive .int32) false)
      (.mk valueName (.primitive .double) true)) true]

/-- A record of that schema without tags and a home. -/
def bare : Value :=
  .struct [("id", .int32 1), ("scores", .map [(.int32 7, .double ⟨0⟩), (.int32 8, .null)])]

/-- A record whose members are out of order, and whose home has no door. -/
def doorless : Value :=
  .struct [("home", .struct [("floor", .int32 3)]), ("tags", .list [.int32 5, .null]),
    ("id", .int32 2)]

/-- Two records in two batches, with one between them that is refused, through a write buffer
of two positions and a read buffer of one. -/
theorem readEach_writeEach_houses :
    ∃ columns w₀ cache w w₁ r₀ cache' r,
      houses.columns = .ok columns ∧
      RecordWriter.ofSchema houses (columns.map Stripe.ofColumn) .empty ⟨2⟩ = (.ok w₀, cache) ∧
      w₀.writeEach [[bare], [.struct [("id", .null)]], [doorless]] = (w, [[bare], [doorless]]) ∧
      w.close = (.ok (), w₁) ∧
      ofSchema houses (w₁.columns.map Shredder.writer) .empty ⟨1⟩ = (.ok r₀, cache') ∧
      r₀.readEach [1, 1, 1] = (.ok
        [[.struct [("id", .int32 1), ("tags", .list []), ("home", .null),
          ("scores", .map [(.int32 7, .double ⟨0⟩), (.int32 8, .null)])]],
        [.struct [("id", .int32 2), ("tags", .list [.int32 5, .null]),
          ("home", .struct [("floor", .int32 3), ("door", .null)]), ("scores", .null)]],
        []], r) ∧
      r.hasNext.1 = .ok false := by
  have hs : houses.Sane := by
    simp [Schema.Sane, houses, DataType.Obeys, Field.Obeys, Field.AllObey, GroupRule.sane,
      Field.name, keyName, valueName]
  obtain ⟨columns, w₀, cache, hc, hopen, haccepted⟩ : ∃ columns w₀ cache,
      houses.columns = .ok columns ∧
      RecordWriter.ofSchema houses (columns.map Stripe.ofColumn) .empty ⟨2⟩ = (.ok w₀, cache) ∧
      (w₀.writeEach [[bare], [.struct [("id", .null)]], [doorless]]).2 = [[bare], [doorless]] :=
    ⟨_, _, _, rfl, rfl, by cbv⟩
  obtain ⟨w₀', cache₁, hopen', hround⟩ := readEach_writeEach hs hc
    (show 0 < (⟨2⟩ : Options).bufferLength by decide)
    (show 0 < (⟨1⟩ : Options).bufferLength by decide) .empty .empty
  obtain ⟨h, -⟩ := Prod.mk.inj (hopen.symm.trans hopen')
  obtain rfl := Except.ok.inj h
  generalize hw : w₀.writeEach [[bare], [.struct [("id", .null)]], [doorless]] = wa at haccepted
  obtain ⟨w, accepted⟩ := wa
  obtain rfl : accepted = [[bare], [doorless]] := haccepted
  obtain ⟨-, w₁, r₀, cache₂, hclose, hread, hreads⟩ := hround _ w _ hw
  obtain ⟨batches, r, hbatches, rfl, -, hnext⟩ := hreads [1, 1, 1]
  exact ⟨columns, w₀, cache, w, w₁, r₀, cache₂, r, hc, hopen, hw, hclose, hread, hbatches, hnext⟩

end RecordReader

end Striping
