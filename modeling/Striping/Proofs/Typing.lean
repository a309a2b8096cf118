import Striping.Proofs.Calls
import Striping.Proofs.Conformance
import Striping.Proofs.InStep
import Striping.Proofs.Transparency

/-!
# Records have the types of their schema

**Scope.** Columns of any contents, over any `ColumnReader`s. These may answer what they like but
run dry at some time, and calls may have failed before.

* `Schema.Types`: the records that a schema describes. They have just the members that it declares,
  in its order.
* `Schema.Legible`: the schemas in which nothing but optional members and structs without members
  is without columns.
* `Field.Fits`: slices that the columns of a field may hold. `DataType.types_of_merge`: **slices
  that fit are merged into a value of the type**.
* `Assembler.Sound`: what holds of an assembler after any calls. `Assembler.Sound.conforms`: the
  rows that it reads are such slices.
* `RecordReader.Reaches`: a reader after any calls. `RecordReader.Reaches.readsFrom`: it still
  reads the columns of its schema.
* `RecordReader.read_typed`: **every record that is read has the types of the schema**.
  `RecordReader.read_untyped`: a list without columns that is read as a struct.
-/

namespace Striping

section Types

mutual

/-- The values that a member may be read as. -/
def Field.Types : Field → Value → Prop
  | .mk _ type optional, v => (optional = true ∧ v = .null) ∨ type.Types v

/-- The values of a type, null not being one of them. -/
def DataType.Types : DataType → Value → Prop
  | .primitive leaf, v => v.matchesType (.primitive leaf) = true ∧ v ≠ .null
  | .list element, v => ∃ items, v = .list items ∧ ∀ item ∈ items, element.Types item
  | .map key value, v =>
    ∃ entries, v = .map entries ∧ ∀ entry ∈ entries, key.Types entry.1 ∧ value.Types entry.2
  | .struct fields, v => ∃ members, v = .struct members ∧ Field.AllType fields members

/-- Just the members that are declared, in their order. -/
def Field.AllType : List Field → List (String × Value) → Prop
  | [], members => members = []
  | f :: fields, members =>
    ∃ v rest, members = (f.name, v) :: rest ∧ f.Types v ∧ Field.AllType fields rest

end

/-- The records that a schema describes. -/
def Schema.Types (s : Schema) (record : Value) : Prop := (DataType.struct s.fields).Types record

end Types

section Legibility

mutual

/-- A field that can be told from its columns: if it has none, it is optional or a struct without
members. -/
def Field.Legible : Field → Prop
  | .mk _ type optional =>
    (type.leafCount = 0 → optional = true ∨ type = .struct []) ∧
      (type.leafCount ≠ 0 → type.Legible)

/-- A type that can be told from its columns. -/
def DataType.Legible : DataType → Prop
  | .primitive _ => True
  | .list element => element.Legible
  | .map key value => key.Legible ∧ value.Legible
  | .struct fields => Field.AllLegible fields

/-- Fields all of which can be told from their columns. -/
def Field.AllLegible : List Field → Prop
  | [] => True
  | f :: fields => f.Legible ∧ Field.AllLegible fields

end

/-- A schema whose members can be told from their columns. -/
def Schema.Legible (s : Schema) : Prop := Field.AllLegible s.fields

end Legibility

section Fitting

/-- Slices that the columns of a field may hold. -/
def Field.Fits (f : Field) (slices : List (Nested Cell)) : Prop :=
  List.Forall₂ (fun l n => n.Conforms l.frames) f.leaves slices

/-- Slices that the columns of several fields may hold. -/
def Field.AllFit (fields : List Field) (slices : List (Nested Cell)) : Prop :=
  List.Forall₂ (fun l n => n.Conforms l.frames) (Field.allLeaves fields) slices

/-- Slices that the columns of a field of this type may hold. -/
def DataType.Fits (type : DataType) (repetition : Repetition) (slices : List (Nested Cell)) :
    Prop :=
  List.Forall₂ (fun l n => n.Conforms (⟨repetition, type.frameKind⟩ :: l.frames)) type.leaves slices

variable {slices : List (Nested Cell)} {repetition : Repetition}

theorem Field.fits_iff {f : Field} : f.Fits slices ↔ f.type.Fits f.repetition slices := by
  obtain ⟨name, type, optional⟩ := f
  unfold Field.Fits
  rw [Field.leaves, List.forall₂_map_left_iff]
  rfl

/-- Only the columns of an optional field may all be null. -/
theorem Field.Fits.optional {f : Field} {others : List (Nested Cell)}
    (h : f.Fits (.null :: others)) : f.isOptional = true := by
  rw [Field.fits_iff] at h
  obtain ⟨l, -, hl⟩ := exists_of_forall₂ h List.mem_cons_self
  obtain ⟨name, type, optional⟩ := f
  exact Field.optional_of_conforms hl

/-- The slices in the columns of a list or a map hold items that fit what is inside of it. -/
theorem forall₂_of_conforms_lists {k : FrameKind} (hk : k = .list ∨ k = .map)
    {leaves : List LeafColumn} {group : String} {lists : List (List (Nested Cell))}
    (h : List.Forall₂ (fun (l : LeafColumn) (n : Nested Cell) =>
        n.Conforms (⟨repetition, k⟩ :: l.frames))
      (leaves.map (LeafColumn.under group .repeatedGroup)) (lists.map Nested.list)) :
    List.Forall₂ (fun l column => ∀ n ∈ column, n.Conforms l.frames) leaves lists := by
  rw [List.forall₂_map_left_iff, List.forall₂_map_right_iff] at h
  refine h.imp fun l column hc => ?_
  rcases (Nested.conforms_list hk).1 hc with ⟨-, hnull⟩ | ⟨items, hitems, hall⟩
  · cases hnull
  · obtain rfl := Nested.list.inj hitems
    exact hall

/-- The slices in the columns of a struct have members that fit its fields. -/
theorem DataType.Fits.struct {fields : List Field} {columns : List (Nested Cell)}
    (h : (DataType.struct fields).Fits repetition (columns.map .struct)) :
    Field.AllFit fields columns := by
  unfold DataType.Fits at h
  rw [DataType.leaves, List.forall₂_map_right_iff] at h
  refine h.imp fun l n hn => ?_
  rcases Nested.conforms_struct.1 hn with ⟨-, hnull⟩ | ⟨u, hu, hconforms⟩
  · cases hnull
  · obtain rfl := Nested.struct.inj hu
    exact hconforms

/-- Whatever comes of columns of lists or maps that are taken apart comes of a row that fits what is
inside of them. -/
theorem exists_row_of_transpose {k : FrameKind} (hk : k = .list ∨ k = .map)
    {leaves : List LeafColumn} {group : String}
    (hf : List.Forall₂ (fun (l : LeafColumn) n => n.Conforms (⟨repetition, k⟩ :: l.frames))
      (leaves.map (LeafColumn.under group .repeatedGroup)) slices)
    {field : String} {rows : List (List (Nested Cell))} (ht : transpose field slices = .ok rows)
    {β : Type} {f : List (Nested Cell) → Except Error β} {bs : List β} (hm : rows.mapM f = .ok bs)
    {b : β} (hb : b ∈ bs) :
    ∃ row, List.Forall₂ (fun l n => n.Conforms l.frames) leaves row ∧ f row = .ok b := by
  obtain ⟨n, lists, rfl, hn, rfl⟩ := transpose_eq_ok ht
  obtain ⟨row, hrow, hrowb⟩ := exists_of_forall₂ (mapM_eq_ok_iff.1 hm) hb
  exact ⟨row, forall₂_of_mem_rowsOf hn (forall₂_of_conforms_lists hk hf) hrow, hrowb⟩

end Fitting

section Merging

/-- A legible field without columns is merged into a value of its type. -/
theorem Field.types_of_merge_nil {f : Field} (hl : f.Legible) (hn : f.leafCount = 0) {v : Value}
    (hm : f.merge [] = .ok v) : f.Types v := by
  obtain ⟨name, type, optional⟩ := f
  rw [Field.merge] at hm
  obtain rfl := Except.ok.inj hm
  cases optional with
  | true => exact .inl ⟨rfl, rfl⟩
  | false =>
    obtain hoptional | rfl := hl.1 hn
    · cases hoptional
    · exact .inr ⟨[], rfl, rfl⟩

mutual

theorem Field.types_of_merge : (f : Field) → f.Legible → ∀ slices v, f.Fits slices →
    f.merge slices = .ok v → f.Types v
  | .mk name type optional, hl => by
    intro slices v hf hm
    have hlen : slices.length = type.leafCount := by
      rw [← hf.length_eq, Field.length_leaves, Field.leafCount]
    cases slices with
    | nil => exact Field.types_of_merge_nil hl hlen.symm hm
    | cons first others =>
      rw [Field.merge] at hm
      split at hm
      · rename_i hfirst
        split at hm
        · obtain rfl := Except.ok.inj hm
          cases first with
          | null => exact .inl ⟨hf.optional, rfl⟩
          | _ => cases hfirst
        · cases hm
      · have hne : type.leafCount ≠ 0 := by
          rw [← hlen]
          exact Nat.succ_ne_zero _
        exact .inr (type.types_of_merge (hl.2 hne) name _ _ v (List.cons_ne_nil _ _)
          (Field.fits_iff.1 hf) hm)

/-- **Slices that fit are merged into a value of the type.** -/
theorem DataType.types_of_merge : (type : DataType) → type.Legible → ∀ name repetition slices v,
    slices ≠ [] → type.Fits repetition slices → type.merge name slices = .ok v → type.Types v
  | .primitive leaf, _ => by
    intro name repetition slices v hne _ hm
    cases slices with
    | nil => exact absurd rfl hne
    | cons first others =>
      cases first with
      | scalar cell =>
        obtain ⟨hmatch, hv, -⟩ := Primitive.toValue_eq_ok hm
        exact ⟨hmatch, hv⟩
      | _ => cases hm
  | .list element, hl => by
    intro name repetition slices v _ hf hm
    rw [DataType.merge] at hm
    split at hm
    · cases hm
    · rename_i rows htranspose
      obtain ⟨items, hitems, rfl⟩ := map_eq_ok_iff.1 hm
      refine ⟨items, rfl, fun item hitem => ?_⟩
      obtain ⟨row, hrow, hmerge⟩ :=
        exists_row_of_transpose (.inl rfl) hf htranspose hitems hitem
      exact element.types_of_merge hl row item hrow hmerge
  | .map key value, ⟨hlk, hlv⟩ => by
    intro name repetition slices v _ hf hm
    rw [DataType.merge] at hm
    split at hm
    · cases hm
    · rename_i rows htranspose
      obtain ⟨entries, hentries, rfl⟩ := map_eq_ok_iff.1 hm
      refine ⟨entries, rfl, fun entry hentry => ?_⟩
      obtain ⟨row, hrow, hmerge⟩ :=
        exists_row_of_transpose (.inr rfl) hf htranspose hentries hentry
      -- the slices of the key come first
      obtain ⟨hkey, hvalue⟩ := forall₂_split hrow key.length_leaves
      obtain ⟨k, hk, hmerge⟩ := bind_eq_ok_iff.1 hmerge
      obtain ⟨v, hv, hmerge⟩ := bind_eq_ok_iff.1 hmerge
      obtain rfl := Except.ok.inj hmerge
      exact ⟨key.types_of_merge hlk _ k hkey hk, value.types_of_merge hlv _ v hvalue hv⟩
  | .struct fields, hl => by
    intro name repetition slices v _ hf hm
    obtain ⟨members, hmembers, rfl⟩ := map_eq_ok_iff.1 hm
    have hlen : slices.length = Field.leafCounts fields := by
      rw [← hf.length_eq, DataType.leaves, Field.length_allLeaves]
    obtain ⟨columns, rfl, hmerge⟩ := mergeMembers_eq_ok hlen hmembers
    exact ⟨members, rfl, Field.allType_of_mergeFields fields hl _ _ hf.struct hmerge⟩

theorem Field.allType_of_mergeFields : (fields : List Field) → Field.AllLegible fields →
    ∀ slices members, Field.AllFit fields slices → mergeFields fields slices = .ok members →
      Field.AllType fields members
  | [], _ => fun _ _ _ hm => (Except.ok.inj hm).symm
  | f :: fields, ⟨hl, hls⟩ => by
    intro slices members hf hm
    obtain ⟨hown, hrest⟩ := forall₂_split hf f.length_leaves
    rw [mergeFields] at hm
    split at hm
    · cases hm
    · rename_i v hv
      obtain ⟨rest, hmerge, rfl⟩ := map_eq_ok_iff.1 hm
      exact ⟨v, rest, rfl, f.types_of_merge hl _ v hown hv,
        Field.allType_of_mergeFields fields hls _ _ hrest hmerge⟩

end

/-- So one row of all columns is merged into a record that the schema describes. -/
theorem Schema.types_of_mergeRecord {s : Schema} (hl : s.Legible) {row : List (Nested Cell)}
    {record : Value} (hf : Field.AllFit s.fields row)
    (hm : mergeRecord s.fields row = .ok record) : s.Types record := by
  obtain ⟨members, hmembers, rfl⟩ := map_eq_ok_iff.1 hm
  exact ⟨members, rfl, Field.allType_of_mergeFields s.fields hl _ _ hf hmembers⟩

end Merging

/-- Parts that take a step one by one, up to the first that fails, have taken it or are as they
were. -/
theorem Outcome.forall₂_mapEach {σ α : Type} (step : σ → Outcome σ α) (ss : List σ) :
    List.Forall₂ (fun s s' => s' = s ∨ s' = (step s).2) ss (mapEach step ss).2 := by
  induction ss with
  | nil => exact .nil
  | cons s ss ih =>
    rw [mapEach]
    rcases hs : step s with ⟨e | a, s'⟩
    · exact .cons (.inr (by rw [hs])) (List.forall₂_same.2 fun s _ => .inl rfl)
    · exact .cons (.inr (by rw [hs])) ih

namespace Assembler

variable {t : LeafType} {ρ : Type} [ColumnReader ρ t.Physical] {a a' : Assembler t ρ}
  {rows : List (Nested t.Value)}

/-- What holds of every assembler, whatever its reader says: its cursor is sound, and reads the
column of its shape. -/
structure Sound (a : Assembler t ρ) : Prop where
  bounds_eq : a.cursor.bounds = a.shape.column.bounds
  cursor : a.cursor.Sound

omit [ColumnReader ρ t.Physical] in
theorem sound_of_ofShape {shape : ColumnShape} {reader : ρ} {options : Options}
    (h : ofShape shape reader options = .ok a) : a.Sound := by
  obtain ⟨rfl, hmake⟩ := cursor_of_ofShape h
  exact ⟨(Cursor.fresh_of_make hmake).2.1, (Cursor.sound_of_make hmake).1⟩

/-- No call makes an assembler unsound. -/
theorem Sound.call (h : a.Sound) (call : Call) : (a.call call).2.Sound := by
  obtain ⟨as, hmoves, -⟩ := call_kept h.cursor call
  refine ⟨?_, (hmoves.sound h.cursor).1⟩
  rw [hmoves.bounds, h.bounds_eq, call_shape]

/-- **All rows that are read conform to the frames of the column.** -/
theorem Sound.conforms (h : a.Sound) {most : Nat} (hr : a.readBatch most = (.ok rows, a')) :
    ∀ row ∈ rows, row.Conforms a.shape.column.frames := by
  have hread := readRows_of_readBatch h.bounds_eq h.cursor.toTidy hr
  obtain ⟨ps, hshred, -, -⟩ := readRows_ok h.bounds_eq hread
  exact ColumnShape.conforms_of_shredRows hshred

end Assembler

namespace RecordReader

variable {ρ : Type} [ColumnReader ρ Cell] {r₀ r r' : RecordReader ρ} {schema : Schema}
  {most : Nat} {records : List Value}

/-- `r` comes of `r₀` by any calls, whether or not they have failed. -/
inductive Reaches : RecordReader ρ → RecordReader ρ → Prop where
  | refl (r : RecordReader ρ) : Reaches r r
  | read {r₀ r : RecordReader ρ} (h : Reaches r₀ r) (most : Nat) : Reaches r₀ (r.read most).2
  | hasNext {r₀ r : RecordReader ρ} (h : Reaches r₀ r) : Reaches r₀ r.hasNext.2

/-- A reader of the columns of a schema. -/
structure ReadsFrom (r : RecordReader ρ) (schema : Schema) : Prop where
  schema_eq : r.schema = schema
  columns_eq : schema.columns = .ok (r.columns.map (·.shape.column))
  sound : ∀ a ∈ r.columns, a.Sound

omit [ColumnReader ρ Cell] in
theorem readsFrom_of_ofSchema {readers : List ρ} {cache cache' : ShapeCache} {options : Options}
    (h : ofSchema schema readers cache options = (.ok r, cache')) : r.ReadsFrom schema := by
  obtain ⟨hschema, hcolumns, hopen⟩ := ofSchema_ok h
  refine ⟨hschema, hcolumns, fun a hmem => ?_⟩
  obtain ⟨reader, -, hstart⟩ := exists_of_forall₂ hopen hmem
  exact Assembler.sound_of_ofShape hstart

/-- Calls to some of the columns leave a reader of the schema. -/
theorem ReadsFrom.of_calls (h : r.ReadsFrom schema) (hs : r'.schema = r.schema)
    (hc : List.Forall₂ (fun a a' => a' = a ∨ ∃ call, a' = (a.call call).2) r.columns r'.columns) :
    r'.ReadsFrom schema := by
  have hkeep : List.Forall₂ (fun a a' => a.shape.column = a'.shape.column ∧ (a.Sound → a'.Sound))
      r.columns r'.columns := by
    refine hc.imp fun a a' ha => ?_
    obtain rfl | ⟨call, rfl⟩ := ha
    · exact ⟨rfl, id⟩
    · exact ⟨congrArg ColumnShape.column (a.call_shape call).symm, fun hsound => hsound.call call⟩
  refine ⟨hs.trans h.schema_eq, ?_, fun a' ha' => ?_⟩
  · rw [h.columns_eq, map_eq_map_of_forall₂ (hkeep.imp fun _ _ h => h.1)]
  · obtain ⟨a, ha, -, hsound⟩ := exists_of_forall₂ hkeep ha'
    exact hsound (h.sound a ha)

/-- Reading leaves a reader of the schema, also when it fails. -/
theorem ReadsFrom.read (h : r.ReadsFrom schema) (most : Nat) :
    (r.read most).2.ReadsFrom schema := by
  obtain ⟨hcolumns, hschema⟩ := columns_of_read r most
  refine h.of_calls hschema ?_
  rw [hcolumns]
  exact (Outcome.forall₂_mapEach _ _).imp fun a a' ha => ha.imp id fun ha => ⟨.readBatch most, ha⟩

theorem ReadsFrom.hasNext (h : r.ReadsFrom schema) : r.hasNext.2.ReadsFrom schema := by
  unfold RecordReader.hasNext
  split
  · exact h
  · rename_i first rest hc
    refine h.of_calls rfl ?_
    rw [hc]
    exact .cons (.inr ⟨.hasNext, rfl⟩) (List.forall₂_same.2 fun a _ => .inl rfl)

/-- **A reader stays a reader of its schema**, whatever is called and whatever fails. -/
theorem Reaches.readsFrom (hr : r₀.Reaches r) (h : r₀.ReadsFrom schema) : r.ReadsFrom schema := by
  induction hr with
  | refl => exact h
  | read _ most ih => exact ih.read most
  | hasNext _ ih => exact ih.hasNext

/-- The rows that are merged fit the fields of the schema. -/
theorem ReadsFrom.allFit (h : r.ReadsFrom schema)
    {outs : List (List (Nested Cell) × Assembler .cell ρ)}
    (houts : List.Forall₂ (fun a out => a.readBatch most = (.ok out.1, out.2)) r.columns outs)
    {n : Nat} (hn : ∀ batch ∈ outs.map Prod.fst, batch.length = n) :
    ∀ row ∈ rowsOf n (outs.map Prod.fst), Field.AllFit schema.fields row := by
  have hleaves := Schema.columns_eq_ok_iff.1 h.columns_eq
  rw [List.forall₂_map_right_iff] at hleaves
  have hreads := (List.forall₂_and_left _ _).2 ⟨h.sound, houts⟩
  have hbatches : List.Forall₂ (fun (l : LeafColumn) batch => ∀ n ∈ batch, n.Conforms l.frames)
      (Field.allLeaves schema.fields) (outs.map Prod.fst) := by
    rw [List.forall₂_map_right_iff]
    refine (forall₂_trans hleaves hreads).imp ?_
    rintro l out ⟨a, hmake, hsound, hread⟩
    rw [← LeafColumn.frames_of_column hmake]
    exact hsound.conforms hread
  exact fun row hrow => forall₂_of_mem_rowsOf hn hbatches hrow

/-- **Records have the types of the schema.** -/
theorem ReadsFrom.types (h : r.ReadsFrom schema) (hl : schema.Legible)
    (hread : r.read most = (.ok records, r')) : ∀ record ∈ records, schema.Types record := by
  obtain ⟨outs, n, houts, hn, hrecords⟩ := read_eq_ok hread
  rw [h.schema_eq] at hrecords
  intro record hrecord
  obtain ⟨row, hrow, hmerged⟩ := exists_of_forall₂ hrecords hrecord
  exact schema.types_of_mergeRecord hl (h.allFit houts hn row hrow) hmerged

/-- **Every record that is read has the types of its schema**, at every depth, whatever the columns
hold. It has just the members that are declared, in their order; only optional members are null; and
every other value has the form of its type. Any calls may have come before, also calls that failed,
and the readers may answer what they like, if only they run dry at some time. A member without
columns has to be optional, or a struct without members. -/
theorem read_typed (hl : schema.Legible) {readers : List ρ} {cache cache' : ShapeCache}
    {options : Options} (h : ofSchema schema readers cache options = (.ok r₀, cache'))
    (hr : r₀.Reaches r) (hread : r.read most = (.ok records, r')) :
    ∀ record ∈ records, schema.Types record :=
  (hr.readsFrom (readsFrom_of_ofSchema h)).types hl hread

/-- Records with members that have no columns: a struct without members, and a list of such
structs. -/
def guests : Schema where
  name := "guests"
  fields := [.mk "id" (.primitive .int32) false,
    .mk "mark" (.struct []) false,
    .mk "rooms" (.list (.mk elementName (.struct []) false)) true,
    .mk "tags" (.list (.mk elementName (.primitive .int32) true)) true]

/-- A reader of a list of a number and a null. Its first call fails. -/
def tagsReader : Faulty (Script Cell) where
  inner := ⟨[
    .ok { definitions := #[3, 2], repetitions := #[0, 1], values := #[.int32 5], valuesRead := 1,
          levelsRead := 2 }]⟩
  failures := [1]
  error := .physical "source" "disk gone"

/-- A record of that schema. -/
def guest : Value :=
  .struct [("id", .int32 2), ("mark", .struct []), ("rooms", .null),
    ("tags", .list [.int32 5, .null])]

/-- What is read after a column has failed belongs to different rows, and has the types of the
schema all the same. -/
theorem read_typed_guests :
    ∃ r₀ cache e r r', guests.Legible ∧
      ofSchema guests [numbersReader [1, 2] [], tagsReader] .empty ⟨2⟩ = (.ok r₀, cache) ∧
      r₀.read 1 = (.error e, r) ∧ r₀.Reaches r ∧ r.read 1 = (.ok [guest], r') ∧
      guests.Types guest := by
  have hl : guests.Legible := by
    simp [guests, Schema.Legible, Field.AllLegible, Field.Legible, DataType.Legible,
      DataType.leafCount, Field.leafCount, Field.leafCounts]
  obtain ⟨r₀, cache, hopen, hfirst, hsecond⟩ : ∃ r₀ cache,
      ofSchema guests [numbersReader [1, 2] [], tagsReader] .empty ⟨2⟩ = (.ok r₀, cache) ∧
      (r₀.read 1).1 = .error (.physical "source" "disk gone") ∧
      ((r₀.read 1).2.read 1).1 = .ok [guest] := ⟨_, _, rfl, by cbv, by cbv⟩
  have hr : r₀.Reaches (r₀.read 1).2 := .read (.refl r₀) 1
  have hread : (r₀.read 1).2.read 1 = (.ok [guest], _) := Prod.ext hsecond rfl
  exact ⟨r₀, cache, _, _, _, hl, hopen, Prod.ext hfirst rfl, hr, hread,
    read_typed hl hopen hr hread guest List.mem_cons_self⟩

/-- Records with a list that has no columns, but has to be there. -/
def rooms : Schema where
  name := "rooms"
  fields := [.mk "id" (.primitive .int32) false,
    .mk "rooms" (.list (.mk elementName (.struct []) false)) false]

/-- **A list without columns is read as a struct.** -/
theorem read_untyped :
    ∃ r₀ cache r', ofSchema rooms [numbersReader [1] []] .empty ⟨1⟩ = (.ok r₀, cache) ∧
      r₀.read 1 = (.ok [.struct [("id", .int32 1), ("rooms", .struct [])]], r') ∧
      ¬rooms.Types (.struct [("id", .int32 1), ("rooms", .struct [])]) := by
  obtain ⟨r₀, cache, hopen, hread⟩ : ∃ r₀ cache,
      ofSchema rooms [numbersReader [1] []] .empty ⟨1⟩ = (.ok r₀, cache) ∧
      (r₀.read 1).1 = .ok [.struct [("id", .int32 1), ("rooms", .struct [])]] :=
    ⟨_, _, rfl, by cbv⟩
  refine ⟨r₀, cache, _, hopen, Prod.ext hread rfl, ?_⟩
  simp [rooms, Schema.Types, DataType.Types, Field.AllType, Field.Types]

end RecordReader

end Striping
