import Mathlib
import Striping.Proofs.Batches
import Striping.Proofs.Overlap
import Striping.Proofs.Places
import Striping.Proofs.RoundTrip

/-!
# What the levels of two columns have in common

Two columns that begin in the same groups store the same of those groups, whatever lies further in.

* `sharedLevels`: what is left of the levels of a column when it is seen from a group around it.
* `Node.Follows.sharesLevels`: **what is left are the levels of the value down to the group**.
* `Batch.levels`, `Shredder.levels`: the levels that a writer was handed, with those in their
  places that the column does not store.
* `RecordWriter.write_sharedLevels`: **a batch of records has the same levels in two columns**, as
  far as they are in the same groups.
-/

namespace Striping

variable {α : Type}

/-- What the frames add to the definition level. -/
def Frame.definitionTotal (frames : List Frame) : Int :=
  (frames.map (·.definitionStep.toInt)).sum

/-- What the frames add to the repetition level. -/
def Frame.repetitionTotal (frames : List Frame) : Int :=
  (frames.map (·.repetitionStep.toInt)).sum

/-- What is left of levels in a group at definition level `d` below `r` lists. Positions that go
on in lists further in are dropped, and no definition level is greater than that of the group. -/
def sharedLevels (d r : Int) (ls : List (Int × Int)) : List (Int × Int) :=
  (ls.filter fun l => l.2 ≤ r).map fun l => (min l.1 d, l.2)

/-- What is left of levels of the column in the group that its first `k` frames lead to. -/
def Column.sharedLevels (c : Column) (k : Nat) (ls : List (Int × Int)) : List (Int × Int) :=
  Striping.sharedLevels (Frame.definitionTotal (c.frames.take k))
    (Frame.repetitionTotal (c.frames.take k)) ls

section Totals

variable {f : Frame} {frames : List Frame}

@[simp] theorem Frame.definitionTotal_nil : Frame.definitionTotal [] = 0 := rfl

@[simp] theorem Frame.repetitionTotal_nil : Frame.repetitionTotal [] = 0 := rfl

@[simp] theorem Frame.definitionTotal_cons : Frame.definitionTotal (f :: frames) =
    f.definitionStep.toInt + Frame.definitionTotal frames := List.sum_cons

@[simp] theorem Frame.repetitionTotal_cons : Frame.repetitionTotal (f :: frames) =
    f.repetitionStep.toInt + Frame.repetitionTotal frames := List.sum_cons

/-- Optional and repeated frames add to the definition level. -/
theorem Frame.definitionTotal_eq_count :
    Frame.definitionTotal frames = Frame.definitionCount frames := by
  induction frames with
  | nil => rfl
  | cons f frames ih => rw [Frame.definitionTotal_cons, Frame.definitionCount_cons, ih]

theorem Frame.definitionTotal_nonneg : 0 ≤ Frame.definitionTotal frames := by
  rw [Frame.definitionTotal_eq_count]
  exact Int.natCast_nonneg _

theorem Frame.repetitionTotal_nonneg : 0 ≤ Frame.repetitionTotal frames := by
  induction frames with
  | nil => exact Int.le_refl 0
  | cons f frames ih =>
    rw [Frame.repetitionTotal_cons, f.repetitionStep_toInt]
    split <;> omega

end Totals

section Shared

variable {d r : Int} {l : Int × Int} {ls ls' : List (Int × Int)}

theorem sharedLevels_append :
    sharedLevels d r (ls ++ ls') = sharedLevels d r ls ++ sharedLevels d r ls' := by
  unfold sharedLevels
  rw [List.filter_append, List.map_append]

theorem sharedLevels_flatMap {f : α → List (Int × Int)} {as : List α} :
    sharedLevels d r (as.flatMap f) = as.flatMap fun a => sharedLevels d r (f a) := by
  induction as with
  | nil => rfl
  | cons a as ih => rw [List.flatMap_cons, List.flatMap_cons, sharedLevels_append, ih]

/-- Nothing is left of lists further in. -/
theorem sharedLevels_of_lt (h : ∀ l ∈ ls, r < l.2) : sharedLevels d r ls = [] := by
  unfold sharedLevels
  rw [List.map_eq_nil_iff, List.filter_eq_nil_iff]
  intro l hl
  have := h l hl
  simpa using this

theorem sharedLevels_cons_of_le (h : l.2 ≤ r) :
    sharedLevels d r (l :: ls) = (min l.1 d, l.2) :: sharedLevels d r ls := by
  simp [sharedLevels, h]

end Shared

namespace Place

variable {f g : Frame} {frames : List Frame} {d r c first : Int} {p : Place α} {ps : List (Place α)}

/-- All places but the first one go on in a list of the part of the column. -/
theorem levels_cons : ∃ rest, levels frames d r first (p :: ps) =
    (d + Frame.definitionCount (frames.take p.depth), first) :: rest ∧ ∀ l ∈ rest, r < l.2 := by
  induction ps generalizing first p with
  | nil => exact ⟨[], rfl, fun _ h => absurd h List.not_mem_nil⟩
  | cons q ps ih =>
    obtain ⟨rest, hrest, hlt⟩ := @ih (r + 1 + commonLength p.indices q.indices) q
    refine ⟨_, rfl, ?_⟩
    -- the lists that two places have in common come on top of the `r` around the part
    rw [hrest]
    exact List.forall_mem_cons.2 ⟨show r < r + 1 + _ by omega, hlt⟩

/-- Only the first position is left where no list is shared. -/
theorem sharedLevels_of_le (hk : first ≤ r) :
    sharedLevels c r (levels frames d r first (p :: ps)) =
      [(min (d + Frame.definitionCount (frames.take p.depth)) c, first)] := by
  obtain ⟨rest, hrest, hlt⟩ := @levels_cons α frames d r first p ps
  rw [hrest, sharedLevels_cons_of_le hk, sharedLevels_of_lt hlt]

end Place

/-- What a group at a depth keeps of the levels of a value, in a part of a column and wherever that
is reached, are the levels of the value down to the depth. They do not depend on the frames further
in. -/
def Nested.SharesLevels (v : Nested α) (frames : List Frame) (n : Nat) : Prop :=
  ∀ d r first, first ≤ r →
    sharedLevels (d + Frame.definitionTotal (frames.take n))
        (r + Frame.repetitionTotal (frames.take n)) (Place.levels frames d r first v.places) =
      Place.levels (frames.take n) d r first (v.upTo n).places

namespace Nested

variable {f : Frame} {frames : List Frame} {v : Nested α} {n : Nat} {items : List (Nested α)}

/-- From outside, nothing of a value is seen but its first position. -/
theorem sharesLevels_zero : v.SharesLevels frames 0 := by
  intro d r first hk
  obtain ⟨p, ps, hp⟩ := List.exists_cons_of_ne_nil v.places_ne_nil
  have hcap : min (d + (Frame.definitionCount (frames.take p.depth) : Int)) d = d := by omega
  simp only [List.take_zero, Frame.definitionTotal_nil, Frame.repetitionTotal_nil, Int.add_zero]
  rw [hp, Place.sharedLevels_of_le hk, hcap]
  exact Place.levels_outermost.symm

theorem sharesLevels_null : (null : Nested α).SharesLevels frames n := by
  intro d r first hk
  have hd := @Frame.definitionTotal_nonneg (frames.take n)
  have hr := @Frame.repetitionTotal_nonneg (frames.take n)
  have hn : (null : Nested α).upTo n = null := by cases n <;> rfl
  rw [hn, places, places, Place.levels_outermost, Place.levels_outermost,
    sharedLevels_cons_of_le (show first ≤ _ by omega), Int.min_eq_left (by omega)]
  rfl

/-- A position at which just the first frame is there. -/
theorem sharedLevels_one {below : List Frame} {d r first : Int} {path : List Nat}
    {leaf : Option α} (hk : first ≤ r) :
    sharedLevels (d + Frame.definitionTotal (f :: below)) (r + Frame.repetitionTotal (f :: below))
        (Place.levels (f :: frames) d r first [⟨1, path, leaf⟩]) =
      [(d + f.definitionStep.toInt, first)] := by
  have hd := @Frame.definitionTotal_nonneg below
  have hr := @Frame.repetitionTotal_nonneg (f :: below)
  rw [Place.levels_one, sharedLevels_cons_of_le (show first ≤ _ by omega),
    Frame.definitionTotal_cons, Int.min_eq_left (by omega)]
  rfl

theorem sharesLevels_scalar {a : α} : (scalar a).SharesLevels (f :: frames) (n + 1) := by
  intro d r first hk
  exact (sharedLevels_one hk).trans Place.levels_one.symm

theorem SharesLevels.struct (h : v.SharesLevels frames n) (hf : f.repetitionStep = 0) :
    (struct v).SharesLevels (f :: frames) (n + 1) := by
  intro d r first hk
  have hcap : d + Frame.definitionTotal ((f :: frames).take (n + 1)) =
      d + f.definitionStep.toInt + Frame.definitionTotal (frames.take n) := by
    simp [Int.add_assoc]
  have hlists : r + Frame.repetitionTotal ((f :: frames).take (n + 1)) =
      r + Frame.repetitionTotal (frames.take n) := by
    simp [hf]
  rw [hcap, hlists, places, Place.levels_inStruct, h (d + f.definitionStep.toInt) r first hk]
  exact Place.levels_inStruct.symm

/-- Of the items of a list, nothing is seen from outside of the list. -/
theorem sharesLevels_list_one (hf : f.repetitionStep = 0) :
    (list items).SharesLevels (f :: frames) 1 := by
  intro d r first hk
  cases items with
  | nil => exact (sharedLevels_one hk).trans Place.levels_one.symm
  | cons item rest =>
    -- the first position of the first item stands for the list, which is there
    obtain ⟨p, ps, hp⟩ := List.exists_cons_of_ne_nil item.places_ne_nil
    have hcount : (Frame.definitionCount ((f :: frames).take (p.inItem 0).depth) : Int) =
        f.definitionStep.toInt + Frame.definitionCount (frames.take (p.depth + 1)) :=
      Frame.definitionCount_cons f _
    have hcap : d + Frame.definitionTotal ((f :: frames).take 1) = d + f.definitionStep.toInt := by
      simp
    have hlists : r + Frame.repetitionTotal ((f :: frames).take 1) = r := by simp [hf]
    rw [hcap, hlists, places_list_cons, itemPlaces, hp, List.map_cons, List.cons_append,
      Place.sharedLevels_of_le hk, hcount, Int.min_eq_right (by omega)]
    exact Place.levels_one.symm

/-- The items of a list keep their levels one after the other. -/
theorem sharedLevels_itemPlaces (h : ∀ item ∈ items, item.SharesLevels frames n)
    {d r first : Int} (hk : first ≤ r + 1) (i : Nat) :
    sharedLevels (d + f.definitionStep.toInt + 1 + Frame.definitionTotal (frames.take n))
        (r + 1 + Frame.repetitionTotal (frames.take n))
        (Place.levels (f :: Frame.repeatedGroup :: frames) d r first (itemPlaces i items)) =
      Place.levels (f :: Frame.repeatedGroup :: frames.take n) d r first
        (itemPlaces i (items.map (upTo n))) := by
  induction items generalizing first i with
  | nil => rfl
  | cons item rest ih =>
    rw [List.forall_mem_cons] at h
    -- the items behind this one go on in the list, so they are reached at `r + 1`
    have hitem := h.1 (d + f.definitionStep.toInt + 1) (r + 1) first hk
    rw [Place.levels_itemPlaces, sharedLevels_append, Frame.definitionStep_repeatedGroup,
      Int16.toInt_one, hitem, ih h.2 (Int.le_refl _), List.map_cons, Place.levels_itemPlaces,
      Frame.definitionStep_repeatedGroup, Int16.toInt_one]

theorem SharesLevels.list (h : ∀ item ∈ items, item.SharesLevels frames n)
    (hf : f.repetitionStep = 0) :
    (list items).SharesLevels (f :: Frame.repeatedGroup :: frames) (n + 2) := by
  intro d r first hk
  cases items with
  | nil => exact (sharedLevels_one hk).trans Place.levels_one.symm
  | cons item rest =>
    have hcap : d + Frame.definitionTotal ((f :: Frame.repeatedGroup :: frames).take (n + 2)) =
        d + f.definitionStep.toInt + 1 + Frame.definitionTotal (frames.take n) := by
      simp [Int.add_assoc]
    have hlists : r + Frame.repetitionTotal ((f :: Frame.repeatedGroup :: frames).take (n + 2)) =
        r + 1 + Frame.repetitionTotal (frames.take n) := by
      simp [hf, Int.add_assoc]
    rw [hcap, hlists]
    exact sharedLevels_itemPlaces h (by omega) 0

end Nested

/-- **Of the levels of a value, a group keeps those of the value down to the group.** -/
theorem Node.Follows.sharesLevels {node : Node} {s : Shape} {frames : List Frame} {d r : Level}
    (h : node.Follows s frames d r) {v : Nested α} (hv : v.Conforms frames) (n : Nat) :
    v.SharesLevels frames n := by
  -- on the frames; a null keeps its one position at every depth, whether it may stand there or not
  induction h generalizing v n with
  | requiredLeaf | optionalLeaf =>
    rcases Nested.conforms_leaf.1 hv with ⟨-, rfl⟩ | ⟨a, rfl⟩
    · exact Nested.sharesLevels_null
    · cases n with
      | zero => exact Nested.sharesLevels_zero
      | succ n => exact Nested.sharesLevels_scalar
  | requiredStruct _ ih | optionalStruct _ ih =>
    rcases Nested.conforms_struct.1 hv with ⟨-, rfl⟩ | ⟨u, rfl, hu⟩
    · exact Nested.sharesLevels_null
    · cases n with
      | zero => exact Nested.sharesLevels_zero
      | succ n => exact (ih hu n).struct rfl
  | requiredList hk _ ih | optionalList hk _ ih =>
    rcases (Nested.conforms_list hk).1 hv with ⟨-, rfl⟩ | ⟨items, rfl, hitems⟩
    · exact Nested.sharesLevels_null
    · rcases n with _ | _ | n
      · exact Nested.sharesLevels_zero
      · exact Nested.sharesLevels_list_one rfl
      · exact .list (fun item hi => ih (hitems item hi) n) rfl

section Rows

variable {t : LeafType} {s : ColumnShape} {rows : List (Nested t.Value)}
  {ps : List (Position t.Physical)}

/-- Rows have the levels that are due at their places, one row after the other. -/
theorem ColumnShape.levels_shredRows
    (h : Node.shredRows t s.column.name s.root rows = .ok ps) :
    ps.map (·.levels.toInts) =
      rows.flatMap fun v => Place.levels s.column.frames 0 0 0 v.places := by
  have hf := Node.follows_of_build s.root_eq
  have hb := LevelBounds.below?_of_ofFrames s.column.bounds_eq
  induction rows generalizing ps with
  | nil =>
    obtain rfl := Except.ok.inj h
    rfl
  | cons v rows ih =>
    obtain ⟨qs, rs, hq, hr, rfl⟩ := Node.shredItems_cons.1 h
    rw [List.map_append, (hf.levels_shred hb (by decide) hq).1, ih hr, List.flatMap_cons]
    rfl

/-- **Of the levels of rows, a group keeps those of the rows down to the group.** -/
theorem ColumnShape.sharedLevels_shredRows
    (h : Node.shredRows t s.column.name s.root rows = .ok ps) (n : Nat) :
    s.column.sharedLevels n (ps.map (·.levels.toInts)) =
      (rows.map (Nested.upTo n)).flatMap fun u =>
        Place.levels (s.column.frames.take n) 0 0 0 u.places := by
  have hf := Node.follows_of_build s.root_eq
  have hconforms : ∀ v ∈ rows, v.Conforms s.column.frames := ColumnShape.conforms_of_shredRows h
  rw [Column.sharedLevels, s.levels_shredRows h, sharedLevels_flatMap, List.flatMap_map]
  refine List.flatMap_congr fun v hv => ?_
  have hshared := hf.sharesLevels (hconforms v hv) n 0 0 0 (Int.le_refl 0)
  rwa [Int.zero_add, Int.zero_add] at hshared

end Rows

section Batches

variable {P : Type} {b : LevelBounds} {ps : List (Position P)}

/-- The levels of a batch for a column with these bounds. If the column does not store definition
levels, all positions are present, and if it does not store repetition levels, each one is a row. -/
def Batch.levels (b : LevelBounds) (batch : Batch P) : List Levels :=
  let definitions := batch.definitions.getD (.replicate batch.values.size b.definition)
  let repetitions := batch.repetitions.getD (.replicate definitions.size 0)
  List.zipWith Levels.mk definitions.toList repetitions.toList

/-- Levels that are not stored are those that stand in for them. -/
theorem stored_or_replicate {stored : Bool} {f : Position P → Level} {n : Nat} {level : Level}
    (h : stored = false → n = ps.length ∧ ∀ p ∈ ps, f p = level) :
    (if stored then some (ps.map f).toArray else none).getD (.replicate n level) =
      (ps.map f).toArray := by
  cases stored with
  | true => rfl
  | false =>
    obtain ⟨rfl, hlevel⟩ := h rfl
    show Array.replicate ps.length level = _
    rw [← List.toArray_replicate, List.map_congr_left hlevel, List.map_const']

/-- The batch of some positions has their levels. -/
theorem Batch.levels_ofPositions (hf : ∀ p ∈ ps, p.Fits b) :
    (Batch.ofPositions b ps).levels b = ps.map (·.levels) := by
  have hd := stored_or_replicate (f := (·.levels.definition)) fun hs =>
    ⟨Stripe.length_values (fun p hp => (hf p hp).paired) hs, fun p hp => (hf p hp).definition_eq hs⟩
  have hr := stored_or_replicate (f := (·.levels.repetition)) fun hs =>
    ⟨rfl, fun p hp => (hf p hp).repetition_eq hs⟩
  unfold Batch.levels Batch.ofPositions
  simp only [List.size_toArray]
  rw [hd, List.size_toArray, List.length_map, hr, List.zipWith_map, List.zipWith_self]

end Batches

namespace Shredder

section Levels

variable {ω : Type} {t : LeafType} {s : Shredder t (Recorded ω t.Physical)}
  {batches : List (List (Nested t.Value))}

/-- The levels that the writer of a column was handed so far. -/
def levels (s : Shredder t (Recorded ω t.Physical)) : List (Int × Int) :=
  (s.writer.batches.toList.flatMap (·.levels s.shape.column.bounds)).map Levels.toInts

/-- The pieces of some positions have their levels, wherever they were cut. -/
theorem flatMap_levels_pieces {ps : List (Position t.Physical)}
    (hf : ∀ p ∈ ps, p.Fits s.shape.column.bounds) :
    (s.pieces ps).flatMap (·.levels s.shape.column.bounds) = ps.map (·.levels) := by
  have hflat := flatten_chunks s.buffer.capacity_pos ps
  have hruns : ∀ run ∈ chunks s.buffer.capacity ps,
      (Batch.ofPositions s.shape.column.bounds run).levels s.shape.column.bounds =
        run.map (·.levels) := by
    intro run hrun
    exact Batch.levels_ofPositions fun p hp =>
      hf p (mem_of_mem_chunks s.buffer.capacity_pos hrun hp)
  calc
    (s.pieces ps).flatMap (·.levels s.shape.column.bounds)
    _ = (chunks s.buffer.capacity ps).flatMap (·.map (·.levels)) := by
      rw [pieces, List.flatMap_map, List.flatMap_congr hruns]
    _ = ps.map (·.levels) := by
      rw [List.flatMap_def, ← List.map_flatten, hflat]

/-- The levels of a column are those of the positions of its rows. -/
theorem Received.levels_eq (h : s.Received batches) :
    ∃ streams, batches.mapM (Node.shredRows t s.column s.shape.root) = .ok streams ∧
      s.levels = streams.flatMap (·.map (·.levels.toInts)) := by
  obtain ⟨streams, hstreams, htaken⟩ := h.taken
  refine ⟨streams, hstreams, ?_⟩
  have hlevels : ∀ ps ∈ streams, (s.pieces ps).flatMap (·.levels s.shape.column.bounds) =
      ps.map (·.levels) := by
    intro ps hps
    obtain ⟨rows, -, hrows⟩ := exists_of_forall₂ (mapM_eq_ok_iff.1 hstreams) hps
    exact flatMap_levels_pieces (s.shape.fits_of_shredRows hrows)
  rw [levels, htaken, List.flatMap_assoc, List.flatMap_congr hlevels, List.map_flatMap]
  simp only [List.map_map]
  rfl

/-- **A batch that is received puts the levels of its rows behind the others.** -/
theorem Received.levels_append {s' : Shredder t (Recorded ω t.Physical)}
    {rows : List (Nested t.Value)} (h : s.Received batches) (h' : s'.Received (batches ++ [rows]))
    (hs : s'.shape = s.shape) :
    ∃ ps, Node.shredRows t s.shape.column.name s.shape.root rows = .ok ps ∧
      s'.levels = s.levels ++ ps.map (·.levels.toInts) := by
  obtain ⟨streams, hstreams, hlevels⟩ := h.levels_eq
  obtain ⟨streams', hstreams', hlevels'⟩ := h'.levels_eq
  have hcolumn : s'.column = s.column := congrArg (·.column.name) hs
  rw [hcolumn, hs] at hstreams'
  obtain ⟨_, ps, hbefore, hps, rfl⟩ := mapM_concat_eq_ok_iff.1 hstreams'
  -- the batches before have the same positions in both
  obtain rfl := Except.ok.inj (hbefore.symm.trans hstreams)
  refine ⟨ps, hps, ?_⟩
  rw [hlevels', hlevels, List.flatMap_append, List.flatMap_singleton]

end Levels

section Records

variable {ω : Type} {s s' : Shredder .cell (Recorded ω Cell)} {fields : List Field}
  {accepted : List (List Value)} {records : List Value}

theorem ReceivedOf.levels_append (h : s.ReceivedOf fields accepted)
    (h' : s'.ReceivedOf fields (accepted ++ [records])) (hs : s'.shape = s.shape) :
    ∃ rows ps, s.slicesOf fields records = .ok rows ∧
      Node.shredRows .cell s.shape.column.name s.shape.root rows = .ok ps ∧
      s'.levels = s.levels ++ ps.map (·.levels.toInts) := by
  obtain ⟨batches, hbatches, hr⟩ := h
  obtain ⟨batches', hbatches', hr'⟩ := h'
  have hslices : s'.slicesOf fields = s.slicesOf fields := by
    funext records
    unfold slicesOf
    rw [hs]
  rw [hslices] at hbatches'
  obtain ⟨_, rows, hbefore, hrows, rfl⟩ := mapM_concat_eq_ok_iff.1 hbatches'
  obtain rfl := Except.ok.inj (hbefore.symm.trans hbatches)
  obtain ⟨ps, hps, hlevels⟩ := hr.levels_append hr' hs
  exact ⟨rows, ps, hrows, hps, hlevels⟩

/-- Two columns see the same of the records down to the depth at which their paths part. -/
theorem upTo_slicesOf {rows rows' : List (Nested Cell)} (h : s.slicesOf fields records = .ok rows)
    (h' : s'.slicesOf fields records = .ok rows') {k : Nat}
    (hk : s.shape.column.path.parts.take k = s'.shape.column.path.parts.take k) :
    rows.map (Nested.upTo k) = rows'.map (Nested.upTo k) := by
  refine Nested.map_upTo_eq (mapM_eq_ok_iff.1 h) (mapM_eq_ok_iff.1 h') ?_
  intro record n n' hn hn'
  exact upTo_projectRecord hn hn' hk

end Records

end Shredder

namespace RecordWriter

variable {ω : Type} {schema : Schema} {w w' w₀ : RecordWriter (Recorded ω Cell)}
  {accepted : List (List Value)} {records : List Value} {n : Nat}

/-- A new writer is intact, with nothing accepted. -/
theorem intact_of_ofSchema {writers : List ω} {cache cache' : ShapeCache} {options : Options}
    (h : ofSchema schema (writers.map fun w => (⟨w, #[]⟩ : Recorded ω Cell)) cache options =
      (.ok w₀, cache')) : w₀.Intact [] := by
  obtain ⟨-, hn, hu, columns, -, -, hopen⟩ := ofSchema_ok h
  refine ⟨hu, hn, ?_⟩
  intro s hs
  obtain ⟨⟨column, r⟩, hr, shape, -, hshape⟩ := exists_of_forall₂ hopen hs
  obtain ⟨w, -, rfl⟩ := List.mem_map.1 (List.of_mem_zip hr).2
  exact ⟨[], rfl, (Shredder.received_of_ofShape hshape).1⟩

variable [ColumnWriter ω Cell]

/-- A writer that accepts a batch was intact before and is intact after it. -/
theorem intact_of_write {writers : List ω} {cache cache' : ShapeCache} {options : Options}
    (h : ofSchema schema (writers.map fun w => (⟨w, #[]⟩ : Recorded ω Cell)) cache options =
      (.ok w₀, cache'))
    {calls : List (List Value)} (hcalls : w₀.writeEach calls = (w, accepted))
    (hw : w.write records = (.ok n, w')) :
    w.WritesTo schema ∧ w.Intact accepted ∧ w'.WritesTo schema ∧ w'.schema = w.schema ∧
      w'.columns.map (·.shape) = w.columns.map (·.shape) ∧ w'.Intact (accepted ++ [records]) := by
  obtain ⟨hs, -⟩ := ofSchema_ok h
  -- nothing is accepted after a physical writer failed
  have hrun := (intact_of_ofSchema h).writeEach hs calls
  rw [hcalls, List.nil_append] at hrun
  obtain ⟨hs, hi | ⟨_, -, e, before, s, after, hb⟩⟩ := hrun
  · rcases hi.write records with ⟨e, -, he⟩ | ⟨w₁, hsame, hshapes, ⟨hok, hi'⟩ | ⟨e, _, _, _, he, -⟩⟩
    · rw [he] at hw
      cases hw
    · obtain ⟨-, rfl⟩ := Outcome.ok_inj (hok.symm.trans hw)
      exact ⟨hs, hi, hs.of_same hsame hshapes, hsame, hshapes, hi'⟩
    · rw [he] at hw
      cases hw
  · rw [hb.write records] at hw
    cases hw

/-- **Two columns have the same levels in the groups that they share.** When a batch of records is
accepted, each column puts levels behind those that it had. Two columns whose paths begin with the
same `k` names are in the same `k` frames, and if both drop the positions that go on in lists
further in, and cap the definition levels at that of the innermost of the frames, the same levels
are left. -/
theorem write_sharedLevels (hs : schema.Named) {writers : List ω} {cache cache' : ShapeCache}
    {options : Options}
    (h : ofSchema schema (writers.map fun w => (⟨w, #[]⟩ : Recorded ω Cell)) cache options =
      (.ok w₀, cache'))
    {calls : List (List Value)} (hcalls : w₀.writeEach calls = (w, accepted))
    (hw : w.write records = (.ok n, w')) :
    w'.WritesTo schema ∧ w'.columns.map (·.shape) = w.columns.map (·.shape) ∧
      ∀ x ∈ w.columns.zip w'.columns, ∀ y ∈ w.columns.zip w'.columns, ∀ k,
        x.1.shape.column.path.parts.take k = y.1.shape.column.path.parts.take k →
          x.1.shape.column.frames.take k = y.1.shape.column.frames.take k ∧
          ∃ ls ls', x.2.levels = x.1.levels ++ ls ∧ y.2.levels = y.1.levels ++ ls' ∧
            x.1.shape.column.sharedLevels k ls = y.1.shape.column.sharedLevels k ls' := by
  obtain ⟨hwrites, hi, hwrites', hschema, hshapes, hi'⟩ := intact_of_write h hcalls hw
  -- what each column is handed for this batch
  have hsame : List.Forall₂ (fun s s' => s'.shape = s.shape) w.columns w'.columns := by
    have heq := hshapes
    rw [← List.forall₂_eq_eq_eq, List.forall₂_map_left_iff, List.forall₂_map_right_iff] at heq
    exact heq.flip
  have hadded : ∀ x ∈ w.columns.zip w'.columns, x.1 ∈ w.columns ∧
      ∃ rows ps, x.1.slicesOf w.schema.fields records = .ok rows ∧
        Node.shredRows .cell x.1.shape.column.name x.1.shape.root rows = .ok ps ∧
        x.2.levels = x.1.levels ++ ps.map (·.levels.toInts) := by
    intro x hx
    obtain ⟨h1, h2⟩ := List.of_mem_zip hx
    have hr := hi'.received x.2 h2
    rw [hschema] at hr
    exact ⟨h1, (hi.received x.1 h1).levels_append hr ((List.forall₂_iff_zip.1 hsame).2 hx)⟩
  refine ⟨hwrites', hshapes, ?_⟩
  intro x hx y hy k hk
  obtain ⟨hxc, rows, ps, hrows, hps, hlevels⟩ := hadded x hx
  obtain ⟨hyc, rows', ps', hrows', hps', hlevels'⟩ := hadded y hy
  have hframes : x.1.shape.column.frames.take k = y.1.shape.column.frames.take k :=
    Schema.take_frames hs hwrites.columns_eq (List.mem_map_of_mem hxc) (List.mem_map_of_mem hyc) hk
  -- both keep the levels of what they see down to depth `k`, and this they see alike
  have hseen := Shredder.upTo_slicesOf hrows hrows' hk
  refine ⟨hframes, _, _, hlevels, hlevels', ?_⟩
  rw [ColumnShape.sharedLevels_shredRows hps, ColumnShape.sharedLevels_shredRows hps', hframes]
  exact congrArg (List.flatMap _) hseen

/-- Records with a list of items that each have a list of tags. -/
def baskets : Schema where
  name := "baskets"
  fields := [.mk "items" (.list (.mk elementName (.struct [.mk "id" (.primitive .int32) false,
    .mk "tags" (.list (.mk elementName (.primitive .int32) false)) false]) false)) true]

/-- A record of that schema. -/
def basket (items : List (Int32 × List Int32)) : Value :=
  .struct [("items", .list (items.map fun item =>
    .struct [("id", .int32 item.1), ("tags", .list (item.2.map .int32))]))]

/-- Stripes for the columns of the schema. -/
def basketWriters : List (Stripe Cell) := [{ bounds := ⟨2, 1⟩ }, { bounds := ⟨3, 2⟩ }]

/-- Of two items one has two tags and one has none. Seen from the items, both columns have the
same levels. -/
theorem write_sharedLevels_baskets :
    ∃ w₀ cache w w',
      baskets.Named ∧
      ofSchema baskets (basketWriters.map fun w => (⟨w, #[]⟩ : Recorded _ Cell)) .empty ⟨2⟩ =
        (.ok w₀, cache) ∧
      w₀.writeEach [[.struct []]] = (w, [[.struct []]]) ∧
      w.write [basket [(1, [7, 8]), (2, [])], basket []] = (.ok 2, w') ∧
      w.columns.map (·.levels) = [[(0, 0)], [(0, 0)]] ∧
      w'.columns.map (·.levels) =
        [[(0, 0), (2, 0), (2, 1), (1, 0)], [(0, 0), (3, 0), (3, 2), (2, 1), (1, 0)]] ∧
      ∀ x ∈ w.columns.zip w'.columns, ∀ y ∈ w.columns.zip w'.columns,
        x.1.shape.column.path.parts.take 3 = y.1.shape.column.path.parts.take 3 →
          ∃ ls ls', x.2.levels = x.1.levels ++ ls ∧ y.2.levels = y.1.levels ++ ls' ∧
            x.1.shape.column.sharedLevels 3 ls = y.1.shape.column.sharedLevels 3 ls' := by
  have hs : baskets.Named := by
    simp [Schema.Named, baskets, DataType.Obeys, Field.Obeys, Field.AllObey, GroupRule.named,
      Field.name]
  obtain ⟨w₀, cache, hopen, haccepted, hwritten, hbefore, hafter⟩ : ∃ w₀ cache,
      ofSchema baskets (basketWriters.map fun w => (⟨w, #[]⟩ : Recorded _ Cell)) .empty ⟨2⟩ =
        (.ok w₀, cache) ∧
      (w₀.writeEach [[.struct []]]).2 = [[.struct []]] ∧
      ((w₀.writeEach [[.struct []]]).1.write
        [basket [(1, [7, 8]), (2, [])], basket []]).1 = .ok 2 ∧
      (w₀.writeEach [[.struct []]]).1.columns.map (·.levels) = [[(0, 0)], [(0, 0)]] ∧
      ((w₀.writeEach [[.struct []]]).1.write
        [basket [(1, [7, 8]), (2, [])], basket []]).2.columns.map (·.levels) =
          [[(0, 0), (2, 0), (2, 1), (1, 0)], [(0, 0), (3, 0), (3, 2), (2, 1), (1, 0)]] :=
    ⟨_, _, rfl, by cbv, by cbv, by cbv, by cbv⟩
  have hcalls : w₀.writeEach [[.struct []]] = (_, [[.struct []]]) := Prod.ext rfl haccepted
  have hw : (w₀.writeEach [[.struct []]]).1.write
      [basket [(1, [7, 8]), (2, [])], basket []] = (.ok 2, _) := Prod.ext hwritten rfl
  obtain ⟨-, -, hshared⟩ := write_sharedLevels hs hopen hcalls hw
  refine ⟨w₀, cache, _, _, hs, hopen, hcalls, hw, hbefore, hafter, ?_⟩
  exact fun x hx y hy hk => (hshared x hx y hy 3 hk).2

end RecordWriter

end Striping
