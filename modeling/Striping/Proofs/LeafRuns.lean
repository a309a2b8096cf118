import Mathlib
import Striping.Proofs.WriteContract

/-!
# Writing in runs

**Scope.** A column without nesting, required or optional, and a buffer of any capacity in which
nothing is buffered, over a physical writer of any kind, which may fail as it likes.

* `WriteBuffer.put_append`: positions that are put into a buffer side by side are put there one
  after the other.
* `WriteBuffer.append_eq_forEach_push`: an empty buffer and a full one take a run as they take its
  positions one by one.
* `WriteBuffer.forEach_append_chunks`: **runs of the capacity are single positions**.
* `Shredder.emit_eq_forEach_writeRow`: **rows that are written in runs are written as they are
  shredded one by one**, in the same batches and with the same outcome.
-/

namespace Striping

variable {ω P α : Type}

/-- What entries that are written and committed do to a lane. -/
theorem Lane.commit_overlay [Inhabited α] (l : Lane α) (es : List α) {n : Nat}
    (hn : es.length = n) : (l.overlay es).commit n = ⟨l.filled ++ es.toArray, l.stale.drop n⟩ := by
  have hfilled := l.filled_commit es hn
  have hstale : ((l.overlay es).commit n).stale = l.stale.drop n := by
    show (es ++ l.stale.drop es.length).drop n = _
    rw [List.drop_left' hn, hn]
  rw [← hfilled, ← hstale]

theorem Lane.commit_overlay_append [Inhabited α] (l : Lane α) (es fs : List α) :
    (l.overlay (es ++ fs)).commit (es ++ fs).length =
      (((l.overlay es).commit es.length).overlay fs).commit fs.length := by
  rw [l.commit_overlay _ rfl, l.commit_overlay _ rfl, Lane.commit_overlay _ _ rfl,
    ← List.append_toArray, Array.append_assoc, List.drop_drop, List.length_append]

namespace WriteBuffer

variable [Inhabited P] {b b' : WriteBuffer ω P} {ps qs : List (Position P)}

theorem put_nil (b : WriteBuffer ω P) : b.put [] = b := by
  have hlane : ∀ {β : Type} [Inhabited β] (l : Lane β), (l.overlay []).commit 0 = l := by
    intro β _ l
    rw [l.commit_overlay (n := 0) [] rfl, Array.append_empty]
    rfl
  have hlevels : ∀ lane : Option (Lane Level),
      (lane.map (·.overlay [])).map (·.commit 0) = lane := by
    intro lane
    cases lane with
    | none => rfl
    | some l => exact congrArg some (hlane l)
  unfold put advance fill
  simp only [List.map_nil, List.filterMap_nil, List.length_nil, hlevels, hlane, Nat.add_zero]

/-- **Positions that are put into a buffer side by side are put there one after the other.** -/
theorem put_append (b : WriteBuffer ω P) (ps qs : List (Position P)) :
    b.put (ps ++ qs) = (b.put ps).put qs := by
  have hlevels : ∀ (lane : Option (Lane Level)) (f : Position P → Level),
      (lane.map (·.overlay ((ps ++ qs).map f))).map (·.commit (ps.length + qs.length)) =
        (((lane.map (·.overlay (ps.map f))).map (·.commit ps.length)).map
          (·.overlay (qs.map f))).map (·.commit qs.length) := by
    intro lane f
    cases lane with
    | none => rfl
    | some l =>
      have hput := l.commit_overlay_append (ps.map f) (qs.map f)
      rw [← List.map_append, List.length_map, List.length_append, List.length_map,
        List.length_map] at hput
      exact congrArg some hput
  have hvalues := b.values.commit_overlay_append (ps.filterMap (·.value)) (qs.filterMap (·.value))
  rw [← List.filterMap_append] at hvalues
  unfold put advance fill
  simp only [hlevels, hvalues, List.length_append, Nat.add_assoc]

variable [ColumnWriter ω P]

theorem append_of_room (h : b.buffered + ps.length ≤ b.capacity) :
    b.append ps = (.ok (), b.put ps) := by
  unfold append reserve
  rw [if_neg (by omega), if_neg (by omega)]

/-- Where there is room, positions may be put into a buffer one by one. -/
theorem forEach_push_of_room (h : b.buffered + ps.length ≤ b.capacity) :
    Outcome.forEach push b ps = (.ok (), b.put ps) := by
  induction ps generalizing b with
  | nil =>
    rw [put_nil]
    rfl
  | cons p ps ih =>
    rw [List.length_cons] at h
    have hpush : b.push p = (.ok (), b.put [p]) :=
      append_of_room (show b.buffered + 1 ≤ b.capacity by omega)
    have hrest : Outcome.forEach push (b.put [p]) ps = (.ok (), (b.put [p]).put ps) :=
      ih (show b.buffered + 1 + ps.length ≤ b.capacity by omega)
    rw [Outcome.forEach, hpush]
    simp only
    rw [hrest, ← put_append]
    rfl

/-- A buffer that was written through is empty. -/
theorem flush_ok (h : b.flush = (.ok (), b')) : b'.buffered = 0 ∧ b'.capacity = b.capacity := by
  unfold flush at h
  split at h
  · rename_i h0
    obtain ⟨-, rfl⟩ := Prod.mk.inj h
    exact ⟨h0, rfl⟩
  · split at h
    · obtain ⟨-, rfl⟩ := Prod.mk.inj h
      exact ⟨rfl, rfl⟩
    · cases (Prod.mk.inj h).1

/-- A full buffer is written through first, whatever is to be put into it. -/
theorem append_of_full (hfull : b.buffered = b.capacity) (hne : ps ≠ [])
    (hle : ps.length ≤ b.capacity) :
    b.append ps = match b.flush with
      | (.ok (), b') => (.ok (), b'.put ps)
      | (.error e, b') => (.error e, b') := by
  have hpos := List.length_pos_of_ne_nil hne
  have hreserve : b.reserve ps.length = b.flush := by
    unfold reserve
    rw [if_neg (by omega), if_pos (by omega)]
  unfold append
  rcases hf : b.flush with ⟨e | ⟨⟩, b'⟩
  · simp only [hreserve, hf]
  · simp only [hreserve, hf]

/-- An empty buffer and a full one take a run as they take its positions one by one. -/
theorem append_eq_forEach_push (h : b.buffered = 0 ∨ b.buffered = b.capacity) (hne : ps ≠ [])
    (hle : ps.length ≤ b.capacity) : b.append ps = Outcome.forEach push b ps := by
  by_cases hroom : b.buffered + ps.length ≤ b.capacity
  · rw [append_of_room hroom, forEach_push_of_room hroom]
  · have hfull : b.buffered = b.capacity := h.resolve_left (by omega)
    obtain ⟨p, ps, rfl⟩ := List.exists_cons_of_ne_nil hne
    rw [List.length_cons] at hle
    have hpush : b.push p = match b.flush with
        | (.ok (), b') => (.ok (), b'.put [p])
        | (.error e, b') => (.error e, b') :=
      append_of_full hfull (List.cons_ne_nil p []) (show 1 ≤ b.capacity by omega)
    rw [append_of_full hfull hne (by rw [List.length_cons]; exact hle), Outcome.forEach, hpush]
    rcases hf : b.flush with ⟨e | ⟨⟩, b'⟩
    · rfl
    · -- behind the batch that was written through there is room for all of them
      obtain ⟨h0, hcap⟩ := flush_ok hf
      have hrest : Outcome.forEach push (b'.put [p]) ps = (.ok (), (b'.put [p]).put ps) :=
        forEach_push_of_room (show b'.buffered + 1 + ps.length ≤ b'.capacity by omega)
      simp only
      rw [hrest, ← put_append]
      rfl

/-- After a run there are just its positions in a buffer that was empty or full. -/
theorem append_ok (h : b.buffered = 0 ∨ b.buffered = b.capacity) (hne : ps ≠ [])
    (hle : ps.length ≤ b.capacity) (ha : b.append ps = (.ok (), b')) :
    b'.buffered = ps.length ∧ b'.capacity = b.capacity := by
  have hput : ∀ {b : WriteBuffer ω P}, b.buffered = 0 → (b.put ps).buffered = ps.length := by
    intro b h0
    show b.buffered + ps.length = ps.length
    omega
  rcases h with h0 | hfull
  · rw [append_of_room (by omega)] at ha
    obtain ⟨-, rfl⟩ := Prod.mk.inj ha
    exact ⟨hput h0, rfl⟩
  · rw [append_of_full hfull hne hle] at ha
    rcases hf : b.flush with ⟨e | ⟨⟩, b₁⟩
    · rw [hf] at ha
      cases (Prod.mk.inj ha).1
    · rw [hf] at ha
      obtain ⟨-, rfl⟩ := Prod.mk.inj ha
      obtain ⟨h0, hcap⟩ := flush_ok hf
      exact ⟨hput h0, hcap⟩

/-- **Runs of the capacity are single positions** to a buffer that is empty or full. -/
theorem forEach_append_chunks (h : b.buffered = 0 ∨ b.buffered = b.capacity ∨ ps = []) :
    Outcome.forEach append b (chunks b.capacity ps) = Outcome.forEach push b ps := by
  obtain ⟨n, hn⟩ : ∃ n, n = b.capacity := ⟨_, rfl⟩
  have hpos : 0 < n := hn ▸ b.capacity_pos
  rw [← hn]
  induction ps using drop_induction hpos generalizing b with
  | nil => rfl
  | step ps hne ih =>
    have hstate : b.buffered = 0 ∨ b.buffered = b.capacity := by
      rcases h with h0 | hfull | hnil
      · exact .inl h0
      · exact .inr hfull
      · exact absurd hnil hne
    have htake : ps.take n ≠ [] := by
      intro hnil
      rcases List.take_eq_nil_iff.1 hnil with h0 | hnil
      · omega
      · exact hne hnil
    have hle : (ps.take n).length ≤ b.capacity := hn ▸ List.length_take_le n ps
    have hsplit := Outcome.forEach_append push b (ps.take n) (ps.drop n)
    rw [List.take_append_drop, ← append_eq_forEach_push hstate htake hle] at hsplit
    rw [chunks_of_ne_nil hpos hne, Outcome.forEach, hsplit]
    rcases ha : b.append (ps.take n) with ⟨e | ⟨⟩, b'⟩
    · rfl
    · -- only the last run is shorter than the capacity
      obtain ⟨hbuffered, hcap⟩ := append_ok hstate htake hle ha
      refine ih ?_ (hn.trans hcap.symm)
      by_cases hlast : n ≤ ps.length
      · rw [List.length_take_of_le hlast] at hbuffered
        exact .inr (.inl (by omega))
      · exact .inr (.inr (List.drop_of_length_le (by omega)))

end WriteBuffer

namespace Shredder

variable {t : LeafType} {null : Option Level} {level : Level} {rows : List (Nested t.Value)}

/-- Rows are buffered in runs as they are shredded one by one. -/
theorem writeRun_eq_forEach_writeRow [ColumnWriter ω t.Physical] {b : WriteBuffer ω t.Physical}
    {column : String} {ps : List (Position t.Physical)} (hempty : b.buffered = 0)
    (h : Node.shredRows t column (.leaf null level) rows = .ok ps) :
    writeRun null level b rows = Outcome.forEach (writeRow column (.leaf null level)) b rows := by
  have hruns : Outcome.forEach WriteBuffer.append b (chunks b.capacity ps) =
      Outcome.forEach WriteBuffer.push b ps := WriteBuffer.forEach_append_chunks (.inl hempty)
  rw [forEach_writeRow h, Outcome.forEach_map]
  show _ = Outcome.forEach WriteBuffer.push b ps
  rw [← hruns, shredRows_leaf h, chunks_map b.capacity_pos, Outcome.forEach_map]
  rfl

/-- **Rows that are written in runs are written as they are shredded one by one.** Let the rows of a
column without nesting pass the check, and let nothing be buffered. Writing them in runs of the
capacity and then through, which is what the shredder does, comes to the same as shredding them one
by one and then writing through: it succeeds or fails alike, and the writer is handed the same
batches, those that it does not take included. -/
theorem emit_eq_forEach_writeRow [ColumnWriter ω t.Physical]
    {s : Shredder t (Logged ω t.Physical)} (hroot : s.shape.root = .leaf null level)
    (hempty : s.buffer.buffered = 0) (hrows : s.validate rows = .ok ()) :
    s.emit rows = WriteBuffer.thenFlush (writeRun null level s.buffer rows) ∧
      (s.emit rows).1 = (WriteBuffer.thenFlush
        (Outcome.forEach (writeRow s.column s.shape.root) s.buffer rows)).1 ∧
      (s.emit rows).2.writer.log = (WriteBuffer.thenFlush
        (Outcome.forEach (writeRow s.column s.shape.root) s.buffer rows)).2.writer.log := by
  obtain ⟨ps, hps⟩ := validate_eq_ok_iff.1 hrows
  rw [hroot] at hps
  have hruns : s.emit rows = WriteBuffer.thenFlush (writeRun null level s.buffer rows) := by
    rw [emit_eq_thenFlush, hroot]
    rfl
  have hsame := writeRun_eq_forEach_writeRow hempty hps
  refine ⟨hruns, ?_, ?_⟩
  · rw [hruns, hsame, hroot]
  · rw [hruns, hsame, hroot]

end Shredder

/-- The second of three batches fails, which is cut behind a null both times. -/
theorem Shredder.emit_eq_forEach_writeRow_maybe :
    ∃ s : Shredder .int32 (Logged (Faulty (Stripe Int32)) Int32),
      ofShape .maybe ⟨⟨.ofColumn ColumnShape.maybe.column, [2], .physical "maybe" "disk", 0⟩, #[]⟩
        ⟨2⟩ = .ok s ∧
      (WriteBuffer.thenFlush (Outcome.forEach (writeRow s.column s.shape.root) s.buffer
        [.scalar (7 : Int32), .null, .null, .scalar (8 : Int32), .scalar (9 : Int32)])).1 =
          .error (.physical "maybe" "disk") ∧
      (WriteBuffer.thenFlush (Outcome.forEach (writeRow s.column s.shape.root) s.buffer
        [.scalar (7 : Int32), .null, .null, .scalar (8 : Int32),
          .scalar (9 : Int32)])).2.writer.log =
          (#[⟨some #[1, 0], none, #[7]⟩, ⟨some #[0, 1], none, #[8]⟩] : Array (Batch Int32)) := by
  obtain ⟨s, h, hroot, hempty, hrows, hanswer, hlog⟩ :
      ∃ s : Shredder .int32 (Logged (Faulty (Stripe Int32)) Int32),
      ofShape .maybe ⟨⟨.ofColumn ColumnShape.maybe.column, [2], .physical "maybe" "disk", 0⟩, #[]⟩
        ⟨2⟩ = .ok s ∧ s.shape.root = .leaf (some 0) 1 ∧ s.buffer.buffered = 0 ∧
      s.validate [.scalar (7 : Int32), .null, .null, .scalar (8 : Int32), .scalar (9 : Int32)] =
        .ok () ∧
      (s.emit [.scalar (7 : Int32), .null, .null, .scalar (8 : Int32), .scalar (9 : Int32)]).1 =
        .error (.physical "maybe" "disk") ∧
      (s.emit [.scalar (7 : Int32), .null, .null, .scalar (8 : Int32),
        .scalar (9 : Int32)]).2.writer.log =
          (#[⟨some #[1, 0], none, #[7]⟩, ⟨some #[0, 1], none, #[8]⟩] : Array (Batch Int32)) :=
    ⟨_, rfl, rfl, rfl, by cbv, by cbv, by cbv⟩
  obtain ⟨-, hsame, hbatches⟩ := emit_eq_forEach_writeRow hroot hempty hrows
  exact ⟨s, h, hsame.symm.trans hanswer, hbatches.symm.trans hlog⟩

end Striping
