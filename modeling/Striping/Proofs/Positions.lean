import Striping.Proofs.Levels
import Striping.Proofs.Steps
import Striping.Write.Shred

/-!
# The positions of a row

What the positions of a value look like, whatever the value is.

* `Node.shred_requiredLeaf` and so on: the values that a node takes, and their
  positions. `Node.validate_eq_ok_iff`: they are the values that pass the check.
* `Position.Run`: the positions of one value at a node: the first is reached at the
  given repetition level, all others lie in lists further in.
* `Node.Leveled.run`: **the positions of a value are such a run**.
* `Node.shredRows`: the positions of several rows.
-/

namespace Striping

variable {t : LeafType} {column : String} {node : Node} {b : LevelBounds} {d r : Int}

/-- A position that may stand in a column with the given bounds: its levels lie within
them, and it has a value exactly at the greatest definition level. -/
structure Position.Fits {P : Type} (b : LevelBounds) (p : Position P) : Prop where
  within : b.contains p.levels = true
  present_iff : p.value.isSome ↔ p.levels.definition = b.definition

theorem LevelBounds.contains_iff {l : Levels} :
    b.contains l = true ↔
      (0 ≤ l.definition.toInt ∧ l.definition.toInt ≤ b.definition.toInt) ∧
        0 ≤ l.repetition.toInt ∧ l.repetition.toInt ≤ b.repetition.toInt := by
  simp only [contains, Bool.and_eq_true, decide_eq_true_eq, Int16.le_iff_toInt_le,
    Int16.toInt_zero]
  omega

namespace Node

section Inversion

variable {v : Nested t.Value} {k : Level} {ps : List (Position t.Physical)}

theorem shred_requiredLeaf {level : Level} :
    (leaf none level).shred t column v k = .ok ps ↔
      ∃ x, v = .scalar x ∧ ps = [⟨⟨level, k⟩, some (t.toPhysical x)⟩] := by
  cases v <;> simp [shred, eq_comm]

theorem shred_optionalLeaf {null level : Level} :
    (leaf (some null) level).shred t column v k = .ok ps ↔
      (v = .null ∧ ps = [⟨⟨null, k⟩, none⟩]) ∨
        ∃ x, v = .scalar x ∧ ps = [⟨⟨level, k⟩, some (t.toPhysical x)⟩] := by
  cases v <;> simp [shred, eq_comm]

theorem shred_requiredStruct {m : Node} :
    (requiredStruct m).shred t column v k = .ok ps ↔
      ∃ u, v = .struct u ∧ m.shred t column u k = .ok ps := by
  cases v <;> simp [shred]

theorem shred_optionalStruct {null : Level} {m : Node} :
    (optionalStruct null m).shred t column v k = .ok ps ↔
      (v = .null ∧ ps = [⟨⟨null, k⟩, none⟩]) ∨
        ∃ u, v = .struct u ∧ m.shred t column u k = .ok ps := by
  cases v <;> simp [shred, eq_comm]

theorem shred_list {null : Option Level} {empty level : Level} {m : Node} :
    (list null empty level m).shred t column v k = .ok ps ↔
      (∃ n, null = some n ∧ v = .null ∧ ps = [⟨⟨n, k⟩, none⟩]) ∨
        (v = .list [] ∧ ps = [⟨⟨empty, k⟩, none⟩]) ∨
        ∃ item rest, v = .list (item :: rest) ∧
          shredItems (m.shred t column) k level (item :: rest) = .ok ps := by
  rcases v with _ | _ | ⟨_ | ⟨item, rest⟩⟩ | _
  · cases null <;> simp [shred, eq_comm]
  · simp [shred]
  · simp [shred, eq_comm]
  · simp [shred]
  · simp [shred]

end Inversion

section Items

variable {α P : Type} {shred : Nested α → Level → Except Error (List (Position P))}

theorem shredItems_cons {item : Nested α} {rest : List (Nested α)} {k l : Level}
    {ps : List (Position P)} :
    shredItems shred k l (item :: rest) = .ok ps ↔
      ∃ qs rs, shred item k = .ok qs ∧ shredItems shred l l rest = .ok rs ∧ ps = qs ++ rs := by
  rw [shredItems, bind_eq_ok_iff]
  constructor
  · rintro ⟨qs, hq, h⟩
    obtain ⟨rs, hr, h⟩ := bind_eq_ok_iff.1 h
    exact ⟨qs, rs, hq, hr, (Except.ok.inj h).symm⟩
  · rintro ⟨qs, rs, hq, hr, rfl⟩
    exact ⟨qs, hq, bind_eq_ok_iff.2 ⟨rs, hr, rfl⟩⟩

theorem shredItems_append {items more : List (Nested α)} {l : Level} {ps : List (Position P)} :
    shredItems shred l l (items ++ more) = .ok ps ↔
      ∃ qs rs, shredItems shred l l items = .ok qs ∧ shredItems shred l l more = .ok rs ∧
        ps = qs ++ rs := by
  induction items generalizing ps with
  | nil =>
    constructor
    · intro h; exact ⟨[], ps, rfl, h, rfl⟩
    · rintro ⟨qs, rs, h1, h2, rfl⟩
      obtain rfl := Except.ok.inj h1
      exact h2
  | cons item items ih =>
    rw [List.cons_append, shredItems_cons]
    constructor
    · rintro ⟨qs, rs, h1, h2, rfl⟩
      obtain ⟨qs', rs', h3, h4, rfl⟩ := ih.1 h2
      exact ⟨qs ++ qs', rs', shredItems_cons.2 ⟨qs, qs', h1, h3, rfl⟩, h4, by simp⟩
    · rintro ⟨qs, rs, h1, h2, rfl⟩
      obtain ⟨qs', rs', h3, h4, rfl⟩ := shredItems_cons.1 h1
      exact ⟨qs', rs' ++ rs, h3, ih.2 ⟨rs', rs, h4, h2, rfl⟩, by simp⟩

/-- All items of a list have positions if each of them does, at any levels. -/
theorem shredItems_ok_iff {check : Nested α → Prop}
    (h : ∀ item k, check item ↔ ∃ ps, shred item k = .ok ps) {items : List (Nested α)}
    {k l : Level} : (∀ item ∈ items, check item) ↔ ∃ ps, shredItems shred k l items = .ok ps := by
  induction items generalizing k with
  | nil => exact ⟨fun _ => ⟨[], rfl⟩, fun _ _ h => absurd h List.not_mem_nil⟩
  | cons item items ih =>
    rw [List.forall_mem_cons, h item k, ih (k := l)]
    constructor
    · rintro ⟨⟨qs, hq⟩, rs, hr⟩
      exact ⟨qs ++ rs, shredItems_cons.2 ⟨qs, rs, hq, hr, rfl⟩⟩
    · rintro ⟨ps, hp⟩
      obtain ⟨qs, rs, hq, hr, -⟩ := shredItems_cons.1 hp
      exact ⟨⟨qs, hq⟩, rs, hr⟩

end Items

theorem validate_list {null : Option Level} {empty level : Level} {m : Node}
    {items : List (Nested t.Value)} :
    (list null empty level m).validate column (.list items) =
      items.forM (m.validate column) := by cases null <;> rfl

/-- **The values that pass the check are those that have positions.** -/
theorem validate_eq_ok_iff {v : Nested t.Value} {k : Level} :
    node.validate column v = .ok () ↔ ∃ ps, node.shred t column v k = .ok ps := by
  induction node generalizing v k with
  | leaf null level =>
    cases null with
    | none => cases v <;> simp [validate, shred, mismatch]
    | some n => cases v <;> simp [validate, shred, mismatch]
  | requiredStruct m ih =>
    cases v with
    | struct u => exact ih
    | _ => simp [validate, shred, mismatch]
  | optionalStruct n m ih =>
    cases v with
    | struct u => exact ih
    | _ => simp [validate, shred, mismatch]
  | list null empty level m ih =>
    rcases v with _ | _ | items | _
    · cases null <;> simp [validate, shred]
    · simp [validate, shred, mismatch]
    · -- the check does not see the levels, so they may be any
      have hi : ∀ item k, m.validate column item = .ok () ↔
          ∃ ps, m.shred t column item k = .ok ps := fun _ _ => ih
      rw [validate_list, forM_eq_ok_iff, shredItems_ok_iff hi (k := k) (l := level)]
      cases items <;> simp [shred, shredItems]
    · simp [validate, shred, mismatch]

end Node

/-- The positions of one value at a node that is reached at definition level `d` below
`r` lists, in a column with the bounds `b`. The first one has the repetition level
`first`. -/
structure Position.Run {P : Type} (b : LevelBounds) (d r : Int) (first : Level)
    (ps : List (Position P)) : Prop where
  /-- Only the first position may belong to a list above. -/
  head : ∃ p rest, ps = p :: rest ∧ p.levels.repetition = first ∧
    ∀ q ∈ rest, r < q.levels.repetition.toInt ∧ q.levels.repetition.toInt ≤ b.repetition.toInt
  /-- All positions reach down to the node. -/
  reach : ∀ p ∈ ps, d ≤ p.levels.definition.toInt ∧
    p.levels.definition.toInt ≤ b.definition.toInt
  /-- Exactly the positions that reach down to the leaf have a value. -/
  present_iff : ∀ p ∈ ps, p.value.isSome ↔ p.levels.definition = b.definition

namespace Position.Run

variable {P : Type} {first : Level} {ps qs : List (Position P)}

theorem single {n k : Level} {x : Option P} (hd : d ≤ n.toInt)
    (hb : n.toInt ≤ b.definition.toInt) (hv : x.isSome ↔ n = b.definition) :
    Run b d r k [⟨⟨n, k⟩, x⟩] where
  head := ⟨_, [], rfl, rfl, fun _ h => absurd h List.not_mem_nil⟩
  reach q hq := by obtain rfl := List.mem_singleton.1 hq; exact ⟨hd, hb⟩
  present_iff q hq := by obtain rfl := List.mem_singleton.1 hq; exact hv

/-- The position of a leaf value. -/
theorem present {k : Level} {x : P} (hd : d ≤ b.definition.toInt) :
    Run b d r k [⟨⟨b.definition, k⟩, some x⟩] := single hd (Int.le_refl _) (by simp)

/-- The position of a place where the value stops short of the leaf. -/
theorem absent {n k : Level} (hd : d ≤ n.toInt) (hb : n.toInt < b.definition.toInt) :
    Run b d r k [(⟨⟨n, k⟩, none⟩ : Position P)] := by
  have hne : n ≠ b.definition := fun h => by rw [h] at hb; omega
  exact single hd (by omega) (by simp [hne])

/-- A run further in is a run of the node around it. -/
theorem outward {d' r' : Int} (h : Run b d r first ps) (hd : d' ≤ d) (hr : r' ≤ r) :
    Run b d' r' first ps where
  head := by
    obtain ⟨p, rest, rfl, hp, hrest⟩ := h.head
    refine ⟨p, rest, rfl, hp, ?_⟩
    intro q hq
    have hrep := hrest q hq
    omega
  reach := by
    intro p hp
    have hdef := h.reach p hp
    omega
  present_iff := h.present_iff

/-- A run and another one that starts in a list further in make one run. -/
theorem append {l : Level} (h : Run b d r first ps) (hq : Run b d r l qs) (hl : r < l.toInt)
    (hb : l.toInt ≤ b.repetition.toInt) : Run b d r first (ps ++ qs) where
  head := by
    obtain ⟨p, rest, rfl, hp, hrest⟩ := h.head
    obtain ⟨q, more, rfl, hq, hmore⟩ := hq.head
    refine ⟨p, rest ++ q :: more, rfl, hp, ?_⟩
    intro x hx
    rcases List.mem_append.1 hx with hx | hx
    · exact hrest x hx
    · rcases List.mem_cons.1 hx with rfl | hx
      · rw [hq]; exact ⟨hl, hb⟩
      · exact hmore x hx
  reach p hp := (List.mem_append.1 hp).elim (h.reach p) (hq.reach p)
  present_iff p hp := (List.mem_append.1 hp).elim (h.present_iff p) (hq.present_iff p)

theorem ne_nil (h : Run b d r first ps) : ps ≠ [] := by
  obtain ⟨p, rest, rfl, -, -⟩ := h.head
  exact List.cons_ne_nil p rest

/-- The positions of a run fit the column. -/
theorem fits (h : Run b d r first ps) (hd : 0 ≤ d) (hr : 0 ≤ r)
    (hf : 0 ≤ first.toInt ∧ first.toInt ≤ b.repetition.toInt) : ∀ p ∈ ps, p.Fits b := by
  intro p hp
  refine ⟨LevelBounds.contains_iff.2 ⟨⟨?_, (h.reach p hp).2⟩, ?_⟩, h.present_iff p hp⟩
  · have := (h.reach p hp).1; omega
  · obtain ⟨q, rest, rfl, rfl, hrest⟩ := h.head
    rcases List.mem_cons.1 hp with rfl | hp
    · exact hf
    · have := hrest p hp; omega

end Position.Run

namespace Node

variable {k : Level} {ps : List (Position t.Physical)}

/-- The items of a list make a run if each of them does. -/
theorem run_shredItems {P α : Type} {shred : Nested α → Level → Except Error (List (Position P))}
    (h : ∀ item k qs, shred item k = .ok qs → Position.Run b d (r + 1) k qs) {l : Level}
    (hl : l.toInt = r + 1) (hb : l.toInt ≤ b.repetition.toInt) {item : Nested α}
    {rest : List (Nested α)} {ps : List (Position P)}
    (hs : shredItems shred k l (item :: rest) = .ok ps) : Position.Run b d r k ps := by
  induction rest generalizing item k ps with
  | nil =>
    obtain ⟨qs, rs, hq, hr, rfl⟩ := shredItems_cons.1 hs
    obtain rfl := Except.ok.inj hr
    rw [List.append_nil]
    exact (h item k qs hq).outward (by omega) (by omega)
  | cons next rest ih =>
    obtain ⟨qs, rs, hq, hr, rfl⟩ := shredItems_cons.1 hs
    exact ((h item k qs hq).outward (by omega) (by omega)).append (ih hr) (by omega) hb

/-- **The positions of a value at a leveled node are a run.** -/
theorem Leveled.run (hn : node.Leveled b d r) {v : Nested t.Value}
    (h : node.shred t column v k = .ok ps) : Position.Run b d r k ps := by
  -- levels only grow on the way down, so a run of the node inside is one of this node
  induction hn generalizing v k ps with
  | requiredLeaf hv hd hr =>
    obtain ⟨x, rfl, rfl⟩ := shred_requiredLeaf.1 h
    subst hd
    exact .present (by omega)
  | optionalLeaf hn hv hd hr =>
    subst hd
    rcases shred_optionalLeaf.1 h with ⟨rfl, rfl⟩ | ⟨x, rfl, rfl⟩
    · exact .absent (by omega) (by omega)
    · exact .present (by omega)
  | requiredStruct _ ih =>
    obtain ⟨u, rfl, h⟩ := shred_requiredStruct.1 h
    exact ih h
  | optionalStruct hn hm ih =>
    have hle := hm.definition_le
    rcases shred_optionalStruct.1 h with ⟨rfl, rfl⟩ | ⟨u, rfl, h⟩
    · exact .absent (by omega) (by omega)
    · exact (ih h).outward (by omega) (by omega)
  | requiredList he hl hm ih =>
    have hle := hm.definition_le
    have hlr := hm.repetition_le
    rcases shred_list.1 h with ⟨n, hn, -⟩ | ⟨rfl, rfl⟩ | ⟨item, rest, rfl, h⟩
    · cases hn
    · exact .absent (by omega) (by omega)
    · exact (run_shredItems (fun _ _ _ h => ih h) hl (by omega) h).outward (by omega) (by omega)
  | optionalList hn he hl hm ih =>
    have hle := hm.definition_le
    have hlr := hm.repetition_le
    rcases shred_list.1 h with ⟨n', hn', rfl, rfl⟩ | ⟨rfl, rfl⟩ | ⟨item, rest, rfl, h⟩
    · obtain rfl := Option.some.inj hn'
      exact .absent (by omega) (by omega)
    · exact .absent (by omega) (by omega)
    · exact (run_shredItems (fun _ _ _ h => ih h) hl (by omega) h).outward (by omega) (by omega)

/-- The positions of several rows, one row after the other. -/
def shredRows (t : LeafType) (column : String) (node : Node) (rows : List (Nested t.Value)) :
    Except Error (List (Position t.Physical)) := shredItems (node.shred t column) 0 0 rows

end Node

end Striping
