import Striping.Physical.Stripe
import Striping.Proofs.Delivery
import Striping.Proofs.Emission

/-!
# Columns in memory

A stripe keeps the positions it was given.

* `Stripe.Stores`: the positions that a stripe keeps.
* `Stripe.Stores.write`: it takes every batch of positions that have values as their levels say.
* `Stripe.Stores.serves`: **it answers with its positions**, in batches of any length.
-/

namespace Striping

namespace Stripe

variable {P : Type} {s : Stripe P} {ps qs : List (Position P)}

/-- A stripe that keeps just these positions, as far as its column stores them. -/
structure Stores (s : Stripe P) (ps : List (Position P)) : Prop where
  paired : ∀ p ∈ ps, p.Paired s.bounds
  definitions : s.definitions.toList =
    if s.bounds.storesDefinitions then ps.map (·.levels.definition) else []
  repetitions : s.repetitions.toList =
    if s.bounds.storesRepetitions then ps.map (·.levels.repetition) else []
  values : s.values.toList = ps.filterMap (·.value)

theorem stores_ofColumn (c : Column) : (ofColumn c : Stripe P).Stores [] := by
  refine ⟨fun p hp => (nomatch hp), ?_, ?_, rfl⟩
  · split <;> rfl
  · split <;> rfl

/-- The positions that have a value are those at the greatest definition level. -/
theorem countP_definition {b : LevelBounds} (hf : ∀ p ∈ ps, p.Paired b) :
    (ps.map (·.levels.definition)).countP (· == b.definition) =
      (ps.filterMap (·.value)).length := by
  induction ps with
  | nil => rfl
  | cons p ps ih =>
    rw [List.forall_mem_cons] at hf
    have hp := hf.1.present_iff
    rw [List.map_cons, List.countP_cons, ih hf.2, Position.values_cons, List.length_append]
    cases hv : p.value with
    | none =>
      rw [hv] at hp
      have hne : p.levels.definition ≠ b.definition := fun h => by simpa using hp.2 h
      rw [beq_false_of_ne hne]
      simp
    | some x =>
      rw [hv] at hp
      rw [hp.1 rfl, beq_self_eq_true]
      simp [Nat.add_comm]

theorem refusal?_ofPositions (hf : ∀ p ∈ ps, p.Paired s.bounds) :
    s.refusal? (.ofPositions s.bounds ps) = none := by
  unfold refusal? Batch.ofPositions
  have hc := countP_definition hf
  cases hd : s.bounds.storesDefinitions <;> cases hr : s.bounds.storesRepetitions <;>
    simp [countPresent, hc]

/-- **A stripe takes every batch of positions that have values as their levels say.** -/
theorem Stores.write (h : s.Stores ps) (hf : ∀ p ∈ qs, p.Paired s.bounds) :
    ∃ s', s.write (.ofPositions s.bounds qs) = (.ok (), s') ∧ s'.Stores (ps ++ qs) ∧
      s'.bounds = s.bounds ∧ s'.levelsRead = s.levelsRead ∧ s'.valuesRead = s.valuesRead := by
  unfold Stripe.write
  rw [refusal?_ofPositions hf]
  refine ⟨_, rfl, ⟨?_, ?_, ?_, ?_⟩, rfl, rfl, rfl⟩
  · intro p hp
    exact (List.mem_append.1 hp).elim (h.paired p) (hf p)
  · have hd := h.definitions
    show (s.definitions ++ (Batch.ofPositions s.bounds qs).definitions.getD #[]).toList = _
    unfold Batch.ofPositions
    rw [Array.toList_append, hd]
    split <;> simp
  · have hr := h.repetitions
    show (s.repetitions ++ (Batch.ofPositions s.bounds qs).repetitions.getD #[]).toList = _
    unfold Batch.ofPositions
    rw [Array.toList_append, hr]
    split <;> simp
  · show (s.values ++ (Batch.ofPositions s.bounds qs).values).toList = _
    rw [Array.toList_append, h.values, List.filterMap_append]
    rfl

/-- So it takes several of them. -/
theorem Stores.forEach_write {runs : List (List (Position P))} (h : s.Stores ps)
    (hf : ∀ run ∈ runs, ∀ p ∈ run, p.Paired s.bounds) :
    ∃ s', Outcome.forEach ColumnWriter.writeBatch s
        (runs.map (Batch.ofPositions s.bounds)) = (.ok (), s') ∧
      s'.Stores (ps ++ runs.flatten) ∧
      s'.bounds = s.bounds ∧ s'.levelsRead = s.levelsRead ∧ s'.valuesRead = s.valuesRead := by
  induction runs generalizing s ps with
  | nil => exact ⟨s, rfl, by rwa [List.flatten_nil, List.append_nil], rfl, rfl, rfl⟩
  | cons run runs ih =>
    rw [List.forall_mem_cons] at hf
    obtain ⟨s₁, hw, h₁, hb, hl, hv⟩ := h.write hf.1
    rw [← hb] at hf
    obtain ⟨s₂, hw₂, h₂, hb₂, hl₂, hv₂⟩ := ih h₁ hf.2
    rw [hb] at hw₂
    refine ⟨s₂, ?_, ?_, hb₂.trans hb, hl₂.trans hl, hv₂.trans hv⟩
    · have hw : ColumnWriter.writeBatch s (Batch.ofPositions s.bounds run) = (.ok (), s₁) := hw
      rw [List.map_cons, Outcome.forEach, hw]
      exact hw₂
    · rwa [List.flatten_cons, ← List.append_assoc]

/-- In a column without definition levels every position has a value. -/
theorem length_values {b : LevelBounds} (hf : ∀ p ∈ ps, p.Paired b)
    (hs : b.storesDefinitions = false) : (ps.filterMap (·.value)).length = ps.length := by
  rw [← countP_definition hf, List.countP_eq_length.2, List.length_map]
  intro l hl
  obtain ⟨p, hp, rfl⟩ := List.mem_map.1 hl
  exact beq_iff_eq.2 ((hf p hp).definition_eq hs)

theorem Stores.size (h : s.Stores ps) : s.size = ps.length := by
  unfold Stripe.size
  have hd := h.definitions
  split
  · rename_i hs
    rw [if_pos hs] at hd
    rw [← Array.length_toList, hd, List.length_map]
  · rename_i hs
    rw [← Array.length_toList, h.values, length_values h.paired (by simpa using hs)]

/-- The levels of some positions that are stored side by side. -/
theorem slice?_of_toList {levels : Array Level} {f : Position P → Level} {i n : Nat}
    (hl : levels.toList = ps.map f) (hn : i + n ≤ ps.length) :
    ∃ ls, slice? levels i n = some ls ∧ ls.toList = ((ps.drop i).take n).map f := by
  have hsize : levels.size = ps.length := by rw [← Array.length_toList, hl, List.length_map]
  refine ⟨levels.extract i (i + n), if_pos (by omega), ?_⟩
  rw [Array.toList_extract, List.extract_eq_take_drop, hl, Nat.add_sub_cancel_left,
    ← List.map_drop, ← List.map_take]

/-- The levels of the next positions, in a column that may not store any. -/
theorem slice?_stored {stored : Bool} {levels : Array Level} {f : Position P → Level} {i n : Nat}
    (hl : levels.toList = if stored then ps.map f else []) (hi : i ≤ ps.length) :
    ∃ ls, (if stored = true then slice? levels i ((ps.drop i).take n).length else some #[]) =
        some ls ∧ (stored = true → ls.toList = ((ps.drop i).take n).map f) := by
  cases stored with
  | false =>
    refine ⟨#[], rfl, ?_⟩
    intro h
    cases h
  | true =>
    have hle : i + ((ps.drop i).take n).length ≤ ps.length := by
      rw [List.length_take, List.length_drop]
      omega
    have htake : (ps.drop i).take ((ps.drop i).take n).length = (ps.drop i).take n := by
      rw [List.length_take, ← List.take_take, List.take_length]
    obtain ⟨ls, h1, h2⟩ := slice?_of_toList hl hle
    rw [htake] at h2
    exact ⟨ls, h1, fun _ => h2⟩

/-- The values among some positions are counted by their levels, where these are stored. -/
theorem countPresent_stored {ds : Array Level} (hf : ∀ p ∈ qs, p.Paired s.bounds)
    (hd : s.bounds.storesDefinitions = true → ds.toList = qs.map (·.levels.definition)) :
    (if s.bounds.storesDefinitions = true then s.countPresent ds else qs.length) =
      (qs.filterMap (·.value)).length := by
  split
  · rename_i hs
    unfold countPresent
    rw [← countP_definition hf, ← hd hs, Array.countP_toList]
  · rename_i hs
    exact (length_values hf (by simpa using hs)).symm

/-- The place in a stripe up to which positions were read. -/
structure ReadTo (s : Stripe P) (ps : List (Position P)) (i : Nat) : Prop where
  le : i ≤ ps.length
  levelsRead : s.levelsRead = i
  valuesRead : s.valuesRead = ((ps.take i).filterMap (·.value)).length

/-- The values of the next positions stand behind those that were read. -/
theorem Stores.values_extract (h : s.Stores ps) {i n : Nat} (hi : s.ReadTo ps i) :
    (s.values.extract s.valuesRead
        (s.valuesRead + (((ps.drop i).take n).filterMap (·.value)).length)).toList =
      ((ps.drop i).take n).filterMap (·.value) ∧
      (((ps.drop i).take n).filterMap (·.value)).length ≤ s.values.size - s.valuesRead := by
  have hsplit : ps.filterMap (·.value) = (ps.take i).filterMap (·.value) ++
      (((ps.drop i).take n).filterMap (·.value) ++
        ((ps.drop i).drop n).filterMap (·.value)) := by
    rw [← List.filterMap_append, List.take_append_drop, ← List.filterMap_append,
      List.take_append_drop]
  constructor
  · rw [Array.toList_extract, List.extract_eq_take_drop, h.values, Nat.add_sub_cancel_left,
      hsplit, List.drop_left' hi.valuesRead.symm, List.take_left' rfl]
  · rw [← Array.length_toList, h.values, hsplit, hi.valuesRead, List.length_append,
      List.length_append]
    omega

/-- **An answer brings the next positions**, no more of them than there is room for values. -/
theorem Stores.answer (h : s.Stores ps) {i : Nat} (hi : s.ReadTo ps i) (most room : Nat) :
    ∃ a, s.answer ⟨most, s.bounds.storesDefinitions, s.bounds.storesRepetitions, room⟩ = .ok a ∧
      a.Carries s.bounds ((ps.drop i).take (min most room)) := by
  generalize hn : min most room = n
  -- the positions that are due are those that are asked for, or all that are left
  have hdue : s.due ⟨most, s.bounds.storesDefinitions, s.bounds.storesRepetitions, room⟩ =
      ((ps.drop i).take n).length := by
    unfold due
    rw [h.size, hi.levelsRead, List.length_take, List.length_drop]
    show min (min most _) room = _
    omega
  have hpaired : ∀ p ∈ (ps.drop i).take n, p.Paired s.bounds :=
    fun p hp => h.paired p (List.mem_of_mem_drop (List.mem_of_mem_take hp))
  obtain ⟨ds, hds, hds'⟩ := slice?_stored (n := n) h.definitions hi.le
  obtain ⟨rs, hrs, hrs'⟩ := slice?_stored (n := n) h.repetitions hi.le
  obtain ⟨hv, hvn⟩ := h.values_extract (n := n) hi
  have hpresent := countPresent_stored hpaired hds'
  unfold Stripe.answer
  rw [hi.levelsRead, hdue]
  simp only [hds, hrs, hpresent, Nat.min_eq_left hvn]
  refine ⟨_, rfl, hds', hrs', hv, rfl, ?_⟩
  rw [← Array.length_toList, hv]

/-- The stripe after an answer. -/
def past (s : Stripe P) (a : Answer P) : Stripe P :=
  { s with
    levelsRead := s.levelsRead + a.levelsRead
    valuesRead := s.valuesRead + a.valuesRead }

/-- An answer leads to the place behind its positions. -/
theorem ReadTo.past {i n : Nat} {a : Answer P} (hi : s.ReadTo ps i)
    (ha : a.Carries s.bounds ((ps.drop i).take n)) :
    (s.past a).ReadTo ps (i + a.levelsRead) ∧
      ps.drop i = (ps.drop i).take n ++ ps.drop (i + a.levelsRead) := by
  have hlevels : a.levelsRead = ((ps.drop i).take n).length := ha.levelsRead
  have htake : ps.take (i + a.levelsRead) = ps.take i ++ (ps.drop i).take n := by
    rw [List.take_add, hlevels, List.length_take, ← List.take_take, List.take_length]
  refine ⟨⟨?_, ?_, ?_⟩, ?_⟩
  · have := hi.le
    rw [hlevels, List.length_take, List.length_drop]
    omega
  · show s.levelsRead + a.levelsRead = _
    rw [hi.levelsRead]
  · show s.valuesRead + a.valuesRead = _
    rw [htake, List.filterMap_append, List.length_append, hi.valuesRead, ha.valuesRead_eq]
  · have hsplit := List.take_append_drop (i + a.levelsRead) ps
    rw [htake, List.append_assoc] at hsplit
    exact List.append_cancel_left ((List.take_append_drop i ps).trans hsplit.symm)

/-- **A stripe answers with its positions** from the place on up to which it was read. -/
theorem Stores.serves (h : s.Stores ps) {i n : Nat} (hi : s.ReadTo ps i) (hn : 0 < n) :
    ColumnReader.Serves s.bounds
      ⟨n, s.bounds.storesDefinitions, s.bounds.storesRepetitions, n⟩ s (ps.drop i) := by
  -- every batch but the last makes the number of positions that are left smaller
  induction hm : ps.length - i using Nat.strongRecOn generalizing s i with
  | ind m ih =>
    obtain ⟨a, ha, hc⟩ := h.answer hi n n
    rw [Nat.min_self] at hc
    have hread : ColumnReader.readBatch s
        ⟨n, s.bounds.storesDefinitions, s.bounds.storesRepetitions, n⟩ =
        (.ok a, s.past a) := by
      show s.read _ = _
      unfold Stripe.read
      rw [ha]
      rfl
    by_cases hd : ps.drop i = []
    · rw [hd, List.take_nil] at hc
      rw [hd]
      exact .done hread hc
    · have hpos := List.length_pos_of_ne_nil hd
      have hlen : 0 < ((ps.drop i).take n).length := by
        rw [List.length_take]
        omega
      have hlevels : a.levelsRead = ((ps.drop i).take n).length := hc.levelsRead
      obtain ⟨hi', hdrop⟩ := hi.past hc
      have hlt : ps.length - (i + a.levelsRead) < m := by
        rw [List.length_drop] at hpos
        omega
      have hs := ih _ hlt (s := s.past a)
        ⟨h.paired, h.definitions, h.repetitions, h.values⟩ hi' rfl
      rw [hdrop]
      refine .more hread hc (List.ne_nil_of_length_pos hlen) ?_ hs
      rw [List.length_take]
      exact Nat.min_le_left n _

end Stripe

end Striping
