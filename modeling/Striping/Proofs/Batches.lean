import Striping.Physical.Faulty
import Striping.Physical.Stripe
import Striping.Proofs.Emission
import Striping.Record.Writer

/-!
# Batches of records are written to all columns or to none

**Scope.** A record writer over physical writers of any kind. The batches that a physical
writer took are recorded next to it, so its failures may come in any pattern, and a write
that fails has no effect there.

* `Shredder.Received`, `Shredder.Broke`: a column that was handed all of the accepted
  batches, and one whose writer failed in the middle of the next.
* `RecordWriter.Intact`, `RecordWriter.Broken`: the two states a record writer can be in.
* `RecordWriter.writeColumns_cases`: **after the checks only a physical writer can fail**,
  and the columns behind it are not touched.
* `RecordWriter.Intact.write`, `RecordWriter.Broken.write`: what one batch does.
* `RecordWriter.writeEach_allOrNothing`: what any number of batches do.
-/

namespace Striping

variable {ω : Type}

theorem ShapeCache.getOrBuild_column {cache cache' : ShapeCache} {column : Column}
    {shared : SharedShape} (h : cache.getOrBuild column = (.ok shared, cache')) :
    shared.shape.column = column := by
  have hbuild : cache.build column = (.ok shared, cache') → shared.shape.column = column := by
    intro h
    unfold build at h
    split at h
    · rename_i shape hs
      obtain ⟨rfl, -⟩ := Outcome.ok_inj h
      exact ColumnShape.column_of_infer hs
    · cases h
  unfold getOrBuild at h
  split at h
  · split at h
    · rename_i hc
      obtain ⟨rfl, -⟩ := Outcome.ok_inj h
      exact hc
    · exact hbuild h
  · exact hbuild h

/-- Each column is opened with a shape of its own, whatever the cache holds. -/
theorem ShapeCache.openEach_ok {χ β : Type} {start : ColumnShape → χ → Except Error β}
    {cache cache' : ShapeCache} {columns : List (Column × χ)} {bs : List β}
    (h : cache.openEach start columns = (.ok bs, cache')) :
    List.Forall₂ (fun column b => ∃ shape, shape.column = column.1 ∧ start shape column.2 = .ok b)
      columns bs := by
  induction columns generalizing cache bs with
  | nil =>
    obtain ⟨rfl, -⟩ := Outcome.ok_inj h
    exact .nil
  | cons column columns ih =>
    obtain ⟨column, x⟩ := column
    rw [openEach] at h
    split at h
    · cases h
    · rename_i shared cache₁ hs
      split at h
      · cases h
      · rename_i b hb
        obtain ⟨bs, hbs, rfl⟩ := Outcome.map_eq_ok_iff.1 h
        exact .cons ⟨_, getOrBuild_column hs, hb⟩ (ih hbs)

/-- A batch that fails is not written down. -/
theorem Recorded.writeBatch_error {P : Type} [ColumnWriter ω P] {r : Recorded ω P} {b : Batch P}
    {e : Error} {inner : ω} (h : ColumnWriter.writeBatch r.inner b = (.error e, inner)) :
    ColumnWriter.writeBatch r b = (.error e, (⟨inner, r.batches⟩ : Recorded ω P)) := by
  simp only [ColumnWriter.writeBatch, h]

/-- A batch that is taken is written down. -/
theorem Recorded.writeBatch_ok {P : Type} [ColumnWriter ω P] {r : Recorded ω P} {b : Batch P}
    {inner : ω} (h : ColumnWriter.writeBatch r.inner b = (.ok (), inner)) :
    ColumnWriter.writeBatch r b = (.ok (), (⟨inner, r.batches.push b⟩ : Recorded ω P)) := by
  simp only [ColumnWriter.writeBatch, h]

/-- A recorded writer takes batches up to the first at which the writer fails. -/
theorem Recorded.forEach_writeBatch {P : Type} [ColumnWriter ω P] (r : Recorded ω P)
    (bs : List (Batch P)) :
    (∃ inner, Outcome.forEach ColumnWriter.writeBatch r bs =
        (.ok (), ⟨inner, (r.batches.toList ++ bs).toArray⟩)) ∨
      ∃ e taken b rest before inner, bs = taken ++ b :: rest ∧
        ColumnWriter.writeBatch before b = (.error e, inner) ∧
        Outcome.forEach ColumnWriter.writeBatch r bs =
          (.error e, ⟨inner, (r.batches.toList ++ taken).toArray⟩) := by
  induction bs generalizing r with
  | nil =>
    refine .inl ⟨r.inner, ?_⟩
    rw [List.append_nil]
    rfl
  | cons b bs ih =>
    rcases hb : ColumnWriter.writeBatch r.inner b with ⟨e | ⟨⟩, inner⟩
    · have hw := writeBatch_error hb
      refine .inr ⟨e, [], b, bs, r.inner, inner, rfl, hb, ?_⟩
      rw [Outcome.forEach, hw, List.append_nil]
    · have hw := writeBatch_ok hb
      rw [Outcome.forEach, hw]
      have hpush : ∀ cs, (r.batches.push b).toList ++ cs = r.batches.toList ++ b :: cs := by
        intro cs
        rw [Array.toList_push, List.append_assoc]
        rfl
      rcases ih ⟨inner, r.batches.push b⟩ with
        ⟨inner', h⟩ | ⟨e, taken, b', rest, before, inner', rfl, hf, h⟩
      · rw [hpush] at h
        exact .inl ⟨inner', h⟩
      · rw [hpush] at h
        exact .inr ⟨e, b :: taken, b', rest, before, inner', rfl, hf, h⟩

/-- Parts with the same shapes have the same columns. -/
theorem ColumnShape.map_column_eq {α β : Type} {f : α → ColumnShape} {g : β → ColumnShape}
    {as : List α} {bs : List β} (h : as.map f = bs.map g) :
    as.map (fun a => (f a).column) = bs.map (fun b => (g b).column) := by
  have hc := congrArg (List.map ColumnShape.column) h
  rwa [List.map_map, List.map_map] at hc

namespace Shredder

section Rows

variable {t : LeafType} [ColumnWriter ω t.Physical] {s s' : Shredder t (Recorded ω t.Physical)}
  {batches : List (List (Nested t.Value))} {rows : List (Nested t.Value)}

/-- A shredder that has handed to its writer just the positions of these batches, in order
and cut to the length of its buffer. -/
structure Received (s : Shredder t (Recorded ω t.Physical))
    (batches : List (List (Nested t.Value))) : Prop where
  ready : s.Ready
  rowsWritten : s.rowsWritten = batches.flatten.length
  taken : ∃ streams, batches.mapM (Node.shredRows t s.column s.shape.root) = .ok streams ∧
    s.writer.batches.toList = streams.flatMap s.pieces

/-- A shredder whose writer failed with `e` at a piece of one batch more. The pieces before
that one were taken, nothing behind them was, and the batch is not counted. -/
structure Broke (s : Shredder t (Recorded ω t.Physical))
    (batches : List (List (Nested t.Value))) (rows : List (Nested t.Value)) (e : Error) :
    Prop where
  failed : s.failed = true
  rowsWritten : s.rowsWritten = batches.flatten.length
  taken : ∃ streams stream part piece rest before,
    batches.mapM (Node.shredRows t s.column s.shape.root) = .ok streams ∧
    Node.shredRows t s.column s.shape.root rows = .ok stream ∧
    s.pieces stream = part ++ piece :: rest ∧
    s.writer.batches.toList = streams.flatMap s.pieces ++ part ∧
    ColumnWriter.writeBatch before piece = (.error e, s.writer.inner)

omit [ColumnWriter ω t.Physical] in
/-- The length of the buffer and the column are all that the pieces depend on. -/
theorem After.pieces {w : Recorded ω t.Physical} (h : s.After s' w) : s'.pieces = s.pieces := by
  funext ps
  unfold Shredder.pieces
  rw [h.shape, h.capacity]

omit [ColumnWriter ω t.Physical] in
theorem received_of_ofShape {shape : ColumnShape} {w : ω} {options : Options}
    (h : ofShape shape (⟨w, #[]⟩ : Recorded ω t.Physical) options = .ok s) :
    s.Received [] ∧ s.shape = shape := by
  obtain ⟨hr, hs, hw, hn, -⟩ := ready_of_ofShape h
  exact ⟨⟨hr, hn, [], rfl, by rw [hw]; rfl⟩, hs⟩

/-- **Rows that pass the check are received, unless the writer fails.** -/
theorem Received.write (h : s.Received batches) (hv : s.validate rows = .ok ()) :
    ∃ s', s'.shape = s.shape ∧
      ((s.write rows = (.ok rows.length, s') ∧ s'.Received (batches ++ [rows])) ∨
        ∃ e, s.write rows = (.error e, s') ∧ s'.Broke batches rows e) := by
  obtain ⟨ps, hp⟩ := validate_eq_ok_iff.1 hv
  obtain ⟨streams, hstreams, htaken⟩ := h.taken
  -- the writer takes all pieces of the batch, or those in front of the one it fails at
  rcases Recorded.forEach_writeBatch s.writer (s.pieces ps) with
    ⟨inner, hw⟩ | ⟨e, part, piece, rest, before, inner, hpieces, hfail, hw⟩
  · obtain ⟨s', ha, hwrite, ⟨-, hf, hn⟩ | ⟨e, he, -⟩⟩ := h.ready.write hp hw
    · have hcolumn : s'.column = s.column := congrArg (·.column.name) ha.shape
      refine ⟨s', ha.shape, .inl ⟨hwrite, ha.ready hf, ?_, streams ++ [ps], ?_, ?_⟩⟩
      · rw [hn, h.rowsWritten, List.flatten_append, List.length_append, List.flatten_singleton]
      · rw [hcolumn, ha.shape, mapM_eq_ok_iff]
        exact List.rel_append (mapM_eq_ok_iff.1 hstreams) (.cons hp .nil)
      · rw [ha.writer, ha.pieces, List.flatMap_append, List.flatMap_singleton, ← htaken]
    · cases he
  · obtain ⟨s', ha, hwrite, ⟨he, -⟩ | ⟨e', he, hf, hn⟩⟩ := h.ready.write hp hw
    · cases he
    · obtain rfl := Except.error.inj he
      have hcolumn : s'.column = s.column := congrArg (·.column.name) ha.shape
      refine ⟨s', ha.shape, .inr ⟨e, hwrite, hf, by rw [hn, h.rowsWritten], streams, ps, part,
        piece, rest, before, ?_, ?_, ?_, ?_, ?_⟩⟩
      · rw [hcolumn, ha.shape]; exact hstreams
      · rw [hcolumn, ha.shape]; exact hp
      · rw [ha.pieces]; exact hpieces
      · rw [ha.writer, ha.pieces, ← htaken]
      · rw [ha.writer]; exact hfail

end Rows

section Records

/-- The rows that the column of a shredder sees of some records. -/
def slicesOf (s : Shredder .cell ω) (fields : List Field) (records : List Value) :
    Except Error (List (Nested Cell)) :=
  records.mapM fun record => projectRecord fields record s.shape.column.path

/-- A shredder that received its rows of these batches of records. -/
def ReceivedOf (s : Shredder .cell (Recorded ω Cell)) (fields : List Field)
    (accepted : List (List Value)) : Prop :=
  ∃ batches, accepted.mapM (s.slicesOf fields) = .ok batches ∧ s.Received batches

/-- The rows of a column are as many as the records. -/
theorem length_flatten_slicesOf {s : Shredder .cell ω} {fields : List Field}
    {accepted : List (List Value)} {batches : List (List (Nested Cell))}
    (h : accepted.mapM (s.slicesOf fields) = .ok batches) :
    batches.flatten.length = accepted.flatten.length := by
  rw [mapM_eq_ok_iff] at h
  induction h with
  | nil => rfl
  | cons hrows _ ih =>
    have := (mapM_eq_ok_iff.1 hrows).length_eq
    rw [List.flatten_cons, List.flatten_cons, List.length_append, List.length_append, ih, this]

theorem ReceivedOf.rowsWritten {s : Shredder .cell (Recorded ω Cell)} {fields : List Field}
    {accepted : List (List Value)} (h : s.ReceivedOf fields accepted) :
    s.rowsWritten = accepted.flatten.length := by
  obtain ⟨batches, hb, hr⟩ := h
  rw [hr.rowsWritten]
  exact length_flatten_slicesOf hb

variable [ColumnWriter ω Cell]

/-- A shredder whose writer failed with `e` at its rows of one batch of records more. -/
def BrokeOn (s : Shredder .cell (Recorded ω Cell)) (fields : List Field)
    (accepted : List (List Value)) (records : List Value) (e : Error) : Prop :=
  ∃ batches rows, accepted.mapM (s.slicesOf fields) = .ok batches ∧
    s.slicesOf fields records = .ok rows ∧ s.Broke batches rows e

theorem ReceivedOf.write {s : Shredder .cell (Recorded ω Cell)} {fields : List Field}
    {accepted : List (List Value)} {records : List Value} {rows : List (Nested Cell)}
    (h : s.ReceivedOf fields accepted) (hrows : s.slicesOf fields records = .ok rows)
    (hv : s.validate rows = .ok ()) :
    ∃ s', s'.shape = s.shape ∧
      ((∃ n, s.write rows = (.ok n, s') ∧ s'.ReceivedOf fields (accepted ++ [records])) ∨
        ∃ e, s.write rows = (.error e, s') ∧ s'.BrokeOn fields accepted records e) := by
  obtain ⟨batches, hbatches, hr⟩ := h
  obtain ⟨(s' : Shredder .cell (Recorded ω Cell)), hshape, h⟩ := hr.write hv
  have hsame : s'.slicesOf fields = s.slicesOf fields := by
    funext records
    unfold slicesOf
    rw [hshape]
  refine ⟨s', hshape, ?_⟩
  rcases h with ⟨hw, hr'⟩ | ⟨e, hw, hb⟩
  · refine .inl ⟨_, hw, batches ++ [rows], ?_, hr'⟩
    rw [hsame, mapM_eq_ok_iff]
    exact List.rel_append (mapM_eq_ok_iff.1 hbatches) (.cons hrows .nil)
  · exact .inr ⟨e, hw, batches, rows, by rw [hsame]; exact hbatches, by rw [hsame]; exact hrows, hb⟩

end Records

end Shredder

namespace RecordWriter

section Columns

variable {w : RecordWriter ω} {schema : Schema} {fields : List Field} {records : List Value}
  {columns : List (Shredder .cell ω)} {rows : List (List (Nested Cell))}

/-- A record writer that has the columns of a schema, in order. -/
structure WritesTo (w : RecordWriter ω) (schema : Schema) : Prop where
  schema_eq : w.schema = schema
  columns_eq : schema.columns = .ok (w.columns.map (·.shape.column))

/-- The columns of a schema stay those of the schema. -/
theorem WritesTo.of_same {w' : RecordWriter ω} (h : w.WritesTo schema)
    (hs : w'.schema = w.schema) (hc : w'.columns.map (·.shape) = w.columns.map (·.shape)) :
    w'.WritesTo schema :=
  ⟨hs.trans h.schema_eq, h.columns_eq.trans (congrArg _ (ColumnShape.map_column_eq hc).symm)⟩

/-- What is checked before anything is written. -/
theorem prepare_eq_ok_iff : w.prepare records = .ok rows ↔
    w.failedColumn = none ∧ (∀ r ∈ records, Value.checkRecord w.schema.fields r = .ok ()) ∧
      w.columns.mapM (·.slicesOf w.schema.fields records) = .ok rows ∧
      validateColumns w.columns rows = .ok () := by
  unfold prepare
  rw [bind_eq_ok_iff, ← forM_eq_ok_iff]
  have hu : w.checkUsable = .ok () ↔ w.failedColumn = none := by
    unfold checkUsable
    cases w.failedColumn with
    | none => exact ⟨fun _ => rfl, fun _ => rfl⟩
    | some c =>
      constructor
      · intro h; cases h
      · intro h; cases h
  constructor
  · rintro ⟨⟨⟩, h1, h⟩
    obtain ⟨⟨⟩, h2, h⟩ := bind_eq_ok_iff.1 h
    obtain ⟨rows', h3, h⟩ := bind_eq_ok_iff.1 h
    obtain ⟨⟨⟩, h4, h⟩ := bind_eq_ok_iff.1 h
    obtain rfl := Except.ok.inj h
    exact ⟨hu.1 h1, h2, h3, h4⟩
  · rintro ⟨h1, h2, h3, h4⟩
    refine ⟨(), hu.2 h1, bind_eq_ok_iff.2 ⟨(), h2, bind_eq_ok_iff.2 ⟨rows, h3, ?_⟩⟩⟩
    exact bind_eq_ok_iff.2 ⟨(), h4, rfl⟩

theorem ofSchema_ok {writers : List ω} {cache cache' : ShapeCache} {options : Options}
    (h : ofSchema schema writers cache options = (.ok w, cache')) :
    w.WritesTo schema ∧ w.recordsWritten = 0 ∧ w.failedColumn = none ∧
      ∃ columns, schema.columns = .ok columns ∧ columns.length = writers.length ∧
        List.Forall₂ (fun column s => ∃ shape : ColumnShape, shape.column = column.1 ∧
          Shredder.ofShape shape column.2 options = .ok s) (columns.zip writers) w.columns := by
  unfold ofSchema at h
  split at h
  · cases h
  · rename_i columns hc
    split at h
    · cases h
    · rename_i hlen
      obtain ⟨shredders, hs, rfl⟩ := Outcome.map_eq_ok_iff.1 h
      have hopen := ShapeCache.openEach_ok hs
      have hlen : columns.length = writers.length := (Decidable.not_not.1 hlen).symm
      refine ⟨⟨rfl, ?_⟩, rfl, rfl, columns, hc, hlen, hopen⟩
      have hshape : List.Forall₂ (fun column s => column.1 = s.shape.column)
          (columns.zip writers) shredders := by
        refine hopen.imp fun column s ⟨shape, h1, h2⟩ => ?_
        rw [← h1, (Shredder.ready_of_ofShape h2).2.1]
      rw [hc, ← List.map_fst_zip (Nat.le_of_eq hlen), map_eq_map_of_forall₂ hshape]

variable [ColumnWriter ω Cell]

/-- A batch that does not pass the checks has no effect. -/
theorem write_of_prepare_error {e : Error} (h : w.prepare records = .error e) :
    w.write records = (.error e, w) := by
  unfold write
  rw [h]

/-- **After the checks a batch is written column by column**, up to the first column whose
writer fails. -/
theorem writeColumns_cases {P Q : Shredder .cell ω → Prop} {R : Error → Shredder .cell ω → Prop}
    (step : ∀ s rows, P s → s.slicesOf fields records = .ok rows → s.validate rows = .ok () →
      ∃ s', s'.shape = s.shape ∧ ((∃ n, s.write rows = (.ok n, s') ∧ Q s') ∨
        ∃ e, s.write rows = (.error e, s') ∧ R e s'))
    (hp : ∀ s ∈ columns, P s) (hr : columns.mapM (·.slicesOf fields records) = .ok rows)
    (hv : validateColumns columns rows = .ok ()) :
    ∃ columns', columns'.map (·.shape) = columns.map (·.shape) ∧
      ((writeColumns columns rows = (none, columns') ∧ ∀ s ∈ columns', Q s) ∨
        ∃ e before s after, writeColumns columns rows = (some (s.column, e), columns') ∧
          columns' = before ++ s :: after ∧ (∀ s ∈ before, Q s) ∧ R e s ∧ ∀ s ∈ after, P s) := by
  induction columns generalizing rows with
  | nil =>
    obtain rfl := Except.ok.inj hr
    exact ⟨[], rfl, .inl ⟨rfl, fun s hs => absurd hs List.not_mem_nil⟩⟩
  | cons s columns ih =>
    rw [mapM_eq_ok_iff] at hr
    obtain _ | @⟨_, row, _, rows, hrow, hrows⟩ := hr
    rw [validateColumns] at hv
    split at hv
    · cases hv
    · rename_i hval
      rw [List.forall_mem_cons] at hp
      obtain ⟨s', hshape, ⟨n, hw, hq⟩ | ⟨e, hw, hf⟩⟩ := step s row hp.1 hrow hval
      · obtain ⟨columns', hshapes, h⟩ := ih hp.2 (mapM_eq_ok_iff.2 hrows) hv
        refine ⟨s' :: columns', by rw [List.map_cons, List.map_cons, hshape, hshapes], ?_⟩
        rw [writeColumns, hw]
        rcases h with ⟨hwc, hqs⟩ | ⟨e, before, s₁, after, hwc, rfl, hqs, hf, hps⟩
        · refine .inl ⟨?_, List.forall_mem_cons.2 ⟨hq, hqs⟩⟩
          simp only [hwc]
        · refine .inr ⟨e, s' :: before, s₁, after, ?_, rfl, List.forall_mem_cons.2 ⟨hq, hqs⟩, hf,
            hps⟩
          simp only [hwc]
      · -- the columns behind a failure are not written
        refine ⟨s' :: columns, by rw [List.map_cons, List.map_cons, hshape], ?_⟩
        rw [writeColumns, hw]
        exact .inr ⟨e, [], s', columns, rfl, rfl, fun s hs => absurd hs List.not_mem_nil, hf,
          hp.2⟩

end Columns

variable [ColumnWriter ω Cell]

/-- Writes several batches, whether or not the ones before were refused. Also gives those
that were accepted. -/
def writeEach : RecordWriter ω → List (List Value) → RecordWriter ω × List (List Value)
  | w, [] => (w, [])
  | w, records :: calls =>
    match w.write records with
    | (.ok _, w) => ((w.writeEach calls).1, records :: (w.writeEach calls).2)
    | (.error _, w) => w.writeEach calls

variable {w w' : RecordWriter (Recorded ω Cell)} {accepted : List (List Value)}
  {records : List Value} {e : Error} {before after : List (Shredder .cell (Recorded ω Cell))}
  {s : Shredder .cell (Recorded ω Cell)}

/-- A writer none of whose columns failed: they all hold just the accepted batches. -/
structure Intact (w : RecordWriter (Recorded ω Cell)) (accepted : List (List Value)) : Prop where
  usable : w.failedColumn = none
  recordsWritten : w.recordsWritten = accepted.flatten.length
  received : ∀ s ∈ w.columns, s.ReceivedOf w.schema.fields accepted

/-- A writer that was stopped by a failure of the physical writer of the column `s`. The
columns before that one hold one batch more than the accepted ones, the column itself a part
of it, and those behind it none of it. -/
structure Broken (w : RecordWriter (Recorded ω Cell)) (accepted : List (List Value))
    (records : List Value) (e : Error) (before : List (Shredder .cell (Recorded ω Cell)))
    (s : Shredder .cell (Recorded ω Cell))
    (after : List (Shredder .cell (Recorded ω Cell))) : Prop where
  columns : w.columns = before ++ s :: after
  failedColumn : w.failedColumn = some s.column
  recordsWritten : w.recordsWritten = accepted.flatten.length
  whole : ∀ s ∈ before, s.ReceivedOf w.schema.fields (accepted ++ [records])
  part : s.BrokeOn w.schema.fields accepted records e
  none : ∀ s ∈ after, s.ReceivedOf w.schema.fields accepted

/-- **What one batch does.** It is refused before anything is written, or all columns receive
it, or a physical writer fails. -/
theorem Intact.write (hw : w.Intact accepted) (records : List Value) :
    (∃ e, w.prepare records = .error e ∧ w.write records = (.error e, w)) ∨
      ∃ w', w'.schema = w.schema ∧ w'.columns.map (·.shape) = w.columns.map (·.shape) ∧
        ((w.write records = (.ok records.length, w') ∧ w'.Intact (accepted ++ [records])) ∨
          ∃ e before s after, w.write records = (.error e, w') ∧
            w'.Broken accepted records e before s after) := by
  cases hprep : w.prepare records with
  | error e => exact .inl ⟨e, rfl, write_of_prepare_error hprep⟩
  | ok rows =>
    refine .inr ?_
    obtain ⟨-, -, hrows, hv⟩ := prepare_eq_ok_iff.1 hprep
    obtain ⟨columns, hshapes, ⟨hwc, hq⟩ | ⟨e, before, s, after, hwc, hc, hq, hf, hp⟩⟩ :=
      writeColumns_cases (fun s rows => Shredder.ReceivedOf.write) hw.received hrows hv
    · refine ⟨{ w with columns := columns, recordsWritten := w.recordsWritten + records.length },
        rfl, hshapes, .inl ⟨?_, hw.usable, ?_, hq⟩⟩
      · unfold RecordWriter.write
        rw [hprep]
        simp only [hwc]
      · show w.recordsWritten + records.length = _
        rw [hw.recordsWritten, List.flatten_append, List.length_append, List.flatten_singleton]
    · refine ⟨{ w with columns := columns, failedColumn := some s.column }, rfl, hshapes,
        .inr ⟨e, before, s, after, ?_, hc, rfl, hw.recordsWritten, hq, hf, hp⟩⟩
      unfold RecordWriter.write
      rw [hprep]
      simp only [hwc]

/-- After a failure nothing is written any more. -/
theorem Broken.checkUsable (h : w.Broken accepted records e before s after) :
    w.checkUsable = .error (.writerFailed s.column) := by
  unfold RecordWriter.checkUsable
  rw [h.failedColumn]

theorem Broken.write (h : w.Broken accepted records e before s after) (later : List Value) :
    w.write later = (.error (.writerFailed s.column), w) := by
  refine write_of_prepare_error ?_
  unfold prepare
  rw [h.checkUsable]
  rfl

theorem Broken.close (h : w.Broken accepted records e before s after) :
    w.close = (.error (.writerFailed s.column), w) := by
  unfold RecordWriter.close
  rw [h.checkUsable]

theorem Broken.writeEach (h : w.Broken accepted records e before s after)
    (calls : List (List Value)) : w.writeEach calls = (w, []) := by
  induction calls with
  | nil => rfl
  | cons call calls ih => rw [RecordWriter.writeEach, h.write call]; exact ih

/-- **What several batches do.** -/
theorem Intact.writeEach {schema : Schema} (hw : w.Intact accepted) (hs : w.WritesTo schema)
    (calls : List (List Value)) :
    (w.writeEach calls).1.WritesTo schema ∧
      ((w.writeEach calls).1.Intact (accepted ++ (w.writeEach calls).2) ∨
        ∃ records ∈ calls, ∃ e before s after,
          (w.writeEach calls).1.Broken (accepted ++ (w.writeEach calls).2) records e before s
            after) := by
  induction calls generalizing w accepted with
  | nil => exact ⟨hs, .inl (by rw [RecordWriter.writeEach, List.append_nil]; exact hw)⟩
  | cons call calls ih =>
    rw [RecordWriter.writeEach]
    -- a refused batch leaves the writer as it was, and an accepted one is put behind the others
    rcases hw.write call with
      ⟨e, -, h⟩ | ⟨w', hsame, hshapes, ⟨h, hw'⟩ | ⟨e, before, s, after, h, hb⟩⟩
    · rw [h]
      obtain ⟨h1, h2 | ⟨records, hmem, h2⟩⟩ := ih hw hs
      · exact ⟨h1, .inl h2⟩
      · exact ⟨h1, .inr ⟨records, List.mem_cons_of_mem _ hmem, h2⟩⟩
    · rw [h]
      dsimp only
      rw [List.append_cons]
      obtain ⟨h1, h2 | ⟨records, hmem, h2⟩⟩ := ih hw' (hs.of_same hsame hshapes)
      · exact ⟨h1, .inl h2⟩
      · exact ⟨h1, .inr ⟨records, List.mem_cons_of_mem _ hmem, h2⟩⟩
    · -- a failure ends the run, whatever comes after it
      rw [h]
      simp only [hb.writeEach, List.append_nil]
      exact ⟨hs.of_same hsame hshapes, .inr ⟨call, List.mem_cons_self, e, before, s, after, hb⟩⟩

/-- **Batches of records are written to all columns or to none.** A writer on which any
batches were tried is in one of two states. It is intact: each column holds just the accepted
batches, as many rows as there are records, and the next batch is refused by the checks
without an effect, or accepted by all columns, or stopped by a physical writer. Or a physical
writer has stopped one of the batches, and everything from then on is refused without an
effect. -/
theorem writeEach_allOrNothing {schema : Schema} {writers : List ω} {cache cache' : ShapeCache}
    {options : Options} {w₀ : RecordWriter (Recorded ω Cell)}
    (h : ofSchema schema (writers.map fun w => (⟨w, #[]⟩ : Recorded ω Cell)) cache options =
      (.ok w₀, cache'))
    (calls : List (List Value)) :
    ∃ w accepted, w₀.writeEach calls = (w, accepted) ∧ w.WritesTo schema ∧
      ((w.Intact accepted ∧ (∀ s ∈ w.columns, s.rowsWritten = w.recordsWritten) ∧ ∀ records,
          (∃ e, w.prepare records = .error e ∧ w.write records = (.error e, w)) ∨
          (∃ w', w.write records = (.ok records.length, w') ∧
            w'.Intact (accepted ++ [records])) ∨
          ∃ e w' before s after, w.write records = (.error e, w') ∧
            w'.Broken accepted records e before s after) ∨
        ∃ records ∈ calls, ∃ e before s after, w.Broken accepted records e before s after ∧
          (∀ later, w.write later = (.error (.writerFailed s.column), w)) ∧
          w.close = (.error (.writerFailed s.column), w)) := by
  obtain ⟨hs, hn, hu, columns, -, -, hopen⟩ := ofSchema_ok h
  -- every column was opened on a writer of its own, with nothing recorded
  have hw : w₀.Intact [] := by
    refine ⟨hu, hn, ?_⟩
    intro s hmem
    refine ⟨[], rfl, ?_⟩
    obtain ⟨⟨column, r⟩, hr, shape, -, hshape⟩ := exists_of_forall₂ hopen hmem
    obtain ⟨w, -, rfl⟩ := List.mem_map.1 (List.of_mem_zip hr).2
    exact (Shredder.received_of_ofShape hshape).1
  obtain ⟨hs', h⟩ := hw.writeEach hs calls
  simp only [List.nil_append] at h
  refine ⟨_, _, rfl, hs', ?_⟩
  rcases h with hi | ⟨records, hmem, e, before, s, after, hb⟩
  · have hcount : ∀ s ∈ (w₀.writeEach calls).1.columns,
        s.rowsWritten = (w₀.writeEach calls).1.recordsWritten := by
      intro s hs
      rw [hi.recordsWritten, (hi.received s hs).rowsWritten]
    refine .inl ⟨hi, hcount, ?_⟩
    intro records
    rcases hi.write records with hr | ⟨w', -, -, ha | hb⟩
    · exact .inl hr
    · exact .inr (.inl ⟨w', ha⟩)
    · obtain ⟨e, before, s, after, hb⟩ := hb
      exact .inr (.inr ⟨e, w', before, s, after, hb⟩)
  · exact .inr ⟨records, hmem, e, before, s, after, hb, hb.write, hb.close⟩

/-- Records of a number and a list of numbers. -/
def pairs : Schema where
  name := "pairs"
  fields := [.mk "id" (.primitive .int32) false,
    .mk "tags" (.list (.mk "element" (.primitive .int32) false)) false]

/-- A record of that schema. -/
def pair (id : Int32) (tags : List Int32) : Value :=
  .struct [("id", .int32 id), ("tags", .list (tags.map .int32))]

/-- Stripes for the columns of the schema. The third write to the second one fails. -/
def pairWriters : List (Faulty (Stripe Cell)) :=
  [⟨{ bounds := ⟨0, 0⟩ }, [], .physical "id" "disk", 0⟩,
    ⟨{ bounds := ⟨1, 1⟩ }, [3], .physical "tags" "disk", 0⟩]

/-- Of four batches one is accepted, one is refused, one is stopped when two of its three
numbers were written, and one comes too late. -/
theorem writeEach_allOrNothing_pairs :
    ∃ w₀ cache w records e before s after,
      ofSchema pairs (pairWriters.map fun w => (⟨w, #[]⟩ : Recorded _ Cell)) .empty ⟨2⟩ =
        (.ok w₀, cache) ∧
      w₀.writeEach [[pair 1 [7]], [.struct [("id", .null)]], [pair 2 [8, 9, 10]], [pair 3 []]] =
        (w, [[pair 1 [7]]]) ∧
      w.Broken [[pair 1 [7]]] records e before s after ∧
      w.columns.map (fun s => s.writer.batches.toList.map (·.values.size)) = [[1, 1], [1, 2]] ∧
      w.close = (.error (.writerFailed s.column), w) := by
  obtain ⟨w₀, cache, h, haccepted, hfailed, hsizes⟩ : ∃ w₀ cache,
      ofSchema pairs (pairWriters.map fun w => (⟨w, #[]⟩ : Recorded _ Cell)) .empty ⟨2⟩ =
        (.ok w₀, cache) ∧
      (w₀.writeEach [[pair 1 [7]], [.struct [("id", .null)]], [pair 2 [8, 9, 10]],
        [pair 3 []]]).2 = [[pair 1 [7]]] ∧
      (w₀.writeEach [[pair 1 [7]], [.struct [("id", .null)]], [pair 2 [8, 9, 10]],
        [pair 3 []]]).1.failedColumn.isSome = true ∧
      (w₀.writeEach [[pair 1 [7]], [.struct [("id", .null)]], [pair 2 [8, 9, 10]],
        [pair 3 []]]).1.columns.map (fun s => s.writer.batches.toList.map (·.values.size)) =
          [[1, 1], [1, 2]] := ⟨_, _, rfl, rfl, rfl, rfl⟩
  obtain ⟨w, accepted, hrun, -, hstate⟩ := writeEach_allOrNothing h
    [[pair 1 [7]], [.struct [("id", .null)]], [pair 2 [8, 9, 10]], [pair 3 []]]
  rw [hrun] at haccepted hfailed hsizes
  obtain rfl : accepted = [[pair 1 [7]]] := haccepted
  rcases hstate with ⟨hi, -⟩ | ⟨records, -, e, before, s, after, hb, -, hclose⟩
  · rw [hi.usable] at hfailed
    cases hfailed
  · exact ⟨w₀, cache, w, records, e, before, s, after, h, hrun, hb, hsizes, hclose⟩

end RecordWriter

end Striping
