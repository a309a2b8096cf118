import Striping.Proofs.Rows
import Striping.Proofs.Stripes

/-!
# Columns are read as they were written

* `Node.fits_of_shredRows`: the positions of rows fit the column.
* `Shredder.Kept`: rows that a shredder has put into a stripe. `Shredder.Kept.write`,
  `Shredder.Kept.writeAll`: **they are those of all batches it took**.
* `Shredder.Kept.holds`: an assembler of the stripe is in front of just these rows.
* `Shredder.readAll_writeAll`: **the round trip**, for buffers of any lengths.
-/

namespace Striping

variable {t : LeafType}

/-- The positions of rows fit the column. -/
theorem ColumnShape.fits_of_shredRows (s : ColumnShape) {column : String}
    {rows : List (Nested t.Value)} {ps : List (Position t.Physical)}
    (h : Node.shredRows t column s.root rows = .ok ps) : ∀ p ∈ ps, p.Fits s.column.bounds := by
  have hb := s.bounds_nonneg
  induction rows generalizing ps with
  | nil =>
    obtain rfl := Except.ok.inj h
    intro p hp
    cases hp
  | cons row rows ih =>
    obtain ⟨qs, rs, hq, hr, rfl⟩ := Node.shredItems_cons.1 h
    have hrun := (s.leveled.run hq).fits (Int.le_refl 0) (Int.le_refl 0)
      ⟨Int.le_refl 0, hb.2⟩
    exact fun p hp => (List.mem_append.1 hp).elim (hrun p) (ih hr p)

theorem Options.validate_ok {o : Options} (h : 0 < o.bufferLength) : o.validate = .ok () := by
  unfold Options.validate
  rw [if_neg (by omega)]

/-- A column opens for reading if the leaf type fits it and the buffer has a length. -/
theorem Assembler.ofShape_ok {ρ : Type} {shape : ColumnShape} {reader : ρ} {options : Options}
    (hf : t.fits shape.column.physicalType = true) (ho : 0 < options.bufferLength) :
    ∃ a : Assembler t ρ, Assembler.ofShape shape reader options = .ok a := by
  unfold Assembler.ofShape Cursor.make
  rw [Options.validate_ok ho, hf, if_neg (show ¬options.bufferLength = 0 by omega)]
  exact ⟨_, rfl⟩

namespace Shredder

/-- So does one for writing. -/
theorem ofShape_ok {ω : Type} {shape : ColumnShape} {writer : ω} {options : Options}
    (hf : t.fits shape.column.physicalType = true) (ho : 0 < options.bufferLength) :
    ∃ s : Shredder t ω, Shredder.ofShape shape writer options = .ok s := by
  unfold Shredder.ofShape WriteBuffer.make
  rw [Options.validate_ok ho, hf, dif_pos ho]
  exact ⟨_, rfl⟩

/-- Writes several batches, up to the first that fails. -/
def writeAll {ω : Type} [ColumnWriter ω t.Physical] (s : Shredder t ω)
    (batches : List (List (Nested t.Value))) : Outcome (Shredder t ω) Unit :=
  Outcome.forEach (fun s rows => Outcome.map (fun _ => ()) (s.write rows)) s batches

variable {s s' : Shredder t (Stripe t.Physical)} {rows more : List (Nested t.Value)}

/-- A shredder in front of a stripe that keeps just these rows and was not read from. -/
structure Kept (s : Shredder t (Stripe t.Physical)) (rows : List (Nested t.Value)) : Prop where
  ready : s.Ready
  bounds : s.writer.bounds = s.shape.column.bounds
  stores : ∃ ps, Node.shredRows t s.column s.shape.root rows = .ok ps ∧ s.writer.Stores ps
  levelsRead : s.writer.levelsRead = 0
  valuesRead : s.writer.valuesRead = 0

theorem kept_of_ofShape {shape : ColumnShape} {options : Options}
    (h : ofShape shape (.ofColumn shape.column) options = .ok s) :
    s.Kept [] ∧ s.shape = shape := by
  obtain ⟨hr, rfl, hw, -, -⟩ := ready_of_ofShape h
  refine ⟨⟨hr, ?_, ⟨[], rfl, ?_⟩, ?_, ?_⟩, rfl⟩
  · rw [hw]; rfl
  · rw [hw]; exact Stripe.stores_ofColumn _
  · rw [hw]; rfl
  · rw [hw]; rfl

/-- **Rows that pass the check are kept behind the others.** -/
theorem Kept.write (h : s.Kept rows) (hv : s.validate more = .ok ()) :
    ∃ s', s.write more = (.ok more.length, s') ∧ s'.Kept (rows ++ more) ∧ s'.shape = s.shape := by
  obtain ⟨qs, hq⟩ := validate_eq_ok_iff.1 hv
  obtain ⟨ps, hp, hs⟩ := h.stores
  have hn := s.buffer.capacity_pos
  -- the runs handed to the stripe are cut from the positions of the rows
  have hfit : ∀ run ∈ chunks s.buffer.capacity qs, ∀ p ∈ run, p.Fits s.writer.bounds := by
    intro run hrun p hp
    rw [h.bounds]
    exact s.shape.fits_of_shredRows hq p (mem_of_mem_chunks hn hrun hp)
  obtain ⟨w, hw, hst, hb, hl, hr⟩ :=
    hs.forEach_write fun run hrun p hp => (hfit run hrun p hp).paired
  rw [h.bounds] at hw hb
  rw [flatten_chunks hn] at hst
  obtain ⟨s', ⟨h1, -, h3, h4⟩, hwrite, ⟨-, h5, -⟩ | ⟨e, he, -⟩⟩ := h.ready.write hq hw
  · refine ⟨s', hwrite, ⟨⟨h5, by rwa [h1]⟩, by rw [h3, h1, hb], ⟨ps ++ qs, ?_, by rwa [h3]⟩,
      by rw [h3, hl, h.levelsRead], by rw [h3, hr, h.valuesRead]⟩, h1⟩
    unfold column
    rw [h1]
    exact Node.shredItems_append.2 ⟨ps, qs, hp, hq, rfl⟩
  · cases he

/-- **So are the rows of several batches**, and a batch is taken if its rows pass. -/
theorem Kept.writeAll (h : s.Kept rows) (batches : List (List (Nested t.Value))) :
    ((s.writeAll batches).1 = .ok () ↔ ∀ rows ∈ batches, s.validate rows = .ok ()) ∧
      ∀ s', s.writeAll batches = (.ok (), s') →
        s'.Kept (rows ++ batches.flatten) ∧ s'.shape = s.shape := by
  induction batches generalizing s rows with
  | nil =>
    refine ⟨⟨fun _ rows hr => absurd hr List.not_mem_nil, fun _ => rfl⟩, ?_⟩
    intro s' hs
    obtain ⟨-, rfl⟩ := Prod.mk.inj hs
    rw [List.flatten_nil, List.append_nil]
    exact ⟨h, rfl⟩
  | cons batch batches ih =>
    unfold Shredder.writeAll at ih ⊢
    rw [Outcome.forEach, List.forall_mem_cons]
    cases hv : s.validate batch with
    | error e =>
      rw [h.ready.write_error hv]
      refine ⟨⟨?_, ?_⟩, ?_⟩
      · intro h
        cases h
      · intro h
        cases h.1
      · intro s' hs
        cases (Prod.mk.inj hs).1
    | ok =>
      obtain ⟨s₁, hw, hk, hshape⟩ := h.write hv
      obtain ⟨h1, h2⟩ := ih hk
      rw [hw]
      -- what is left of the batches passes as before
      simp only [validate_of_shape hshape] at h1
      refine ⟨?_, ?_⟩
      · show (Outcome.forEach _ s₁ batches).1 = _ ↔ _
        rw [h1]
        exact ⟨fun h => ⟨rfl, h⟩, And.right⟩
      · intro s' hs
        obtain ⟨h3, h4⟩ := h2 s' hs
        rw [List.flatten_cons, ← List.append_assoc]
        exact ⟨h3, h4.trans hshape⟩

/-- **An assembler of the stripe is in front of just these rows.** -/
theorem Kept.holds (h : s.Kept rows) {options : Options}
    {a : Assembler t (Stripe t.Physical)}
    (ha : Assembler.ofShape s.shape s.writer options = .ok a) : a.Holds rows := by
  obtain ⟨ps, hp, hs⟩ := h.stores
  obtain ⟨hshape, hm⟩ := Assembler.cursor_of_ofShape ha
  obtain ⟨hn, hq⟩ := Cursor.request_of_make hm
  have hserve := hs.serves ⟨Nat.zero_le _, h.levelsRead, h.valuesRead⟩ hn
  rw [h.bounds, ← hq] at hserve
  exact ⟨ps, by rw [hshape]; exact hp, hserve.holds hm (s.shape.fits_of_shredRows hp)⟩

/-- **Columns are read as they were written.** Whatever the lengths of the buffers, the
batches that a shredder took are read back as they are, in order and up to the last bit,
and then the column is at its end. A batch is taken if its rows pass the check. -/
theorem readAll_writeAll {column : Column} {shape : ColumnShape} {writing reading : Options}
    (hshape : ColumnShape.infer column = .ok shape)
    (hfit : t.fits column.physicalType = true)
    (hw : 0 < writing.bufferLength) (hr : 0 < reading.bufferLength) :
    ∃ s : Shredder t (Stripe t.Physical), ofColumn column (.ofColumn column) writing = .ok s ∧
      ∀ batches : List (List (Nested t.Value)),
        ((s.writeAll batches).1 = .ok () ↔ ∀ rows ∈ batches, s.validate rows = .ok ()) ∧
        ∀ s', s.writeAll batches = (.ok (), s') →
          ∃ s₁ a a', s'.close = (.ok (), s₁) ∧
            Assembler.ofColumn column s₁.writer reading = .ok a ∧
            a.readAll batches.flatten.length = (.ok batches.flatten, a') ∧
            a'.hasNext.1 = .ok false := by
  obtain rfl := ColumnShape.column_of_infer hshape
  obtain ⟨s, hs⟩ : ∃ s : Shredder t (Stripe t.Physical),
    ofShape shape (.ofColumn shape.column) writing = .ok s := ofShape_ok hfit hw
  obtain ⟨hk, rfl⟩ := kept_of_ofShape hs
  have hopen : ofColumn s.shape.column (.ofColumn s.shape.column) writing = .ok s := by
    unfold ofColumn
    rw [hshape]
    exact hs
  refine ⟨s, hopen, ?_⟩
  intro batches
  obtain ⟨hok, hrun⟩ := hk.writeAll batches
  refine ⟨hok, ?_⟩
  intro s' hs'
  obtain ⟨hk', hsh⟩ := hrun s' hs'
  rw [List.nil_append] at hk'
  rw [← hsh] at hfit hshape ⊢
  obtain ⟨a, ha⟩ : ∃ a : Assembler t (Stripe t.Physical),
    Assembler.ofShape s'.shape s'.writer reading = .ok a := Assembler.ofShape_ok hfit hr
  obtain ⟨a', hread, hrest⟩ := (hk'.holds ha).readAll (Nat.le_refl _)
  rw [List.take_length] at hread
  rw [List.drop_length] at hrest
  obtain ⟨a'', hnext, -⟩ := hrest.hasNext
  refine ⟨s', a, a', hk'.ready.close, ?_, hread, by rw [hnext]; rfl⟩
  unfold Assembler.ofColumn
  rw [hshape]
  exact ha

/-- Lists of numbers in two batches, through a write buffer of two positions and a read
buffer of one. -/
theorem readAll_writeAll_numbers :
    ∃ (s s' s₁ : Shredder .int32 (Stripe Int32)) (a a' : Assembler .int32 (Stripe Int32)),
      ofColumn ColumnShape.numbers.column (.ofColumn ColumnShape.numbers.column) ⟨2⟩ = .ok s ∧
      s.writeAll [[.list [.scalar (7 : Int32), .scalar (8 : Int32), .scalar (9 : Int32)]],
        [.list [], .list [.scalar (-1 : Int32)]]] = (.ok (), s') ∧
      s'.close = (.ok (), s₁) ∧
      Assembler.ofColumn ColumnShape.numbers.column s₁.writer ⟨1⟩ = .ok a ∧
      a.readAll 3 = (.ok [.list [.scalar (7 : Int32), .scalar (8 : Int32), .scalar (9 : Int32)],
        .list [], .list [.scalar (-1 : Int32)]], a') ∧
      a'.hasNext.1 = .ok false := by
  have hshape : ColumnShape.infer ColumnShape.numbers.column = .ok .numbers := rfl
  have hfit : LeafType.int32.fits ColumnShape.numbers.column.physicalType = true := rfl
  have hw : 0 < (⟨2⟩ : Options).bufferLength := by decide
  have hr : 0 < (⟨1⟩ : Options).bufferLength := by decide
  obtain ⟨s, hs, h⟩ := readAll_writeAll hshape hfit hw hr
  have hs' : ofShape .numbers (.ofColumn ColumnShape.numbers.column) ⟨2⟩ = .ok s := by
    rw [← hs]
    unfold ofColumn
    rw [hshape]
    rfl
  obtain ⟨-, hroot, -⟩ := ready_of_ofShape hs'
  obtain ⟨hok, hread⟩ := h [[.list [.scalar (7 : Int32), .scalar (8 : Int32),
    .scalar (9 : Int32)]], [.list [], .list [.scalar (-1 : Int32)]]]
  have hv : (s.writeAll [[.list [.scalar (7 : Int32), .scalar (8 : Int32),
      .scalar (9 : Int32)]], [.list [], .list [.scalar (-1 : Int32)]]]).1 = .ok () := by
    refine hok.2 fun rows hrows => ?_
    unfold validate
    rw [hroot]
    rcases List.mem_cons.1 hrows with rfl | hrows
    · rfl
    · obtain rfl := List.mem_singleton.1 hrows
      rfl
  obtain ⟨s₁, a, a', hclose, hopen, hall, hnext⟩ := hread _ (Prod.ext hv rfl)
  exact ⟨s, _, s₁, a, a', hs, Prod.ext hv rfl, hclose, hopen, hall, hnext⟩

end Shredder

end Striping
