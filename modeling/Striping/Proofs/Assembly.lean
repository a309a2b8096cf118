import Striping.Proofs.Conversion
import Striping.Proofs.Walk
import Striping.Read.Assemble

/-!
# Assembly undoes shredding

Both directions, for a node at any depth and for a cursor that goes on behind it.

* `Node.Leveled.shred_of_assemble`: **what is assembled was shredded so**: the positions
  that were taken are those of the value, whatever the reader delivers.
* `Node.Leveled.assemble_of_shred`: **what was shredded is assembled**, if the position
  behind belongs to a list further out.
-/

namespace Striping

variable {ρ P α : Type} {b : LevelBounds} {column : String} {d r : Int}

/-- A value below `r` lists ends in front of these positions. -/
def Position.EndsAt (r : Int) (qs : List (Position P)) : Prop :=
  ∀ q ∈ qs.head?, q.levels.repetition.toInt ≤ r

theorem Position.EndsAt.nil : EndsAt r ([] : List (Position P)) := fun _ h => (nomatch h)

namespace Cursor

variable [ColumnReader ρ P] {c c' : Cursor ρ P} {l : Levels} {node : Node}

theorem enter_eq_ok_iff :
    c.enter node = (.ok l, c') ↔ c.peek = (.ok (some l), c') ∧ node.minimum ≤ l.definition := by
  unfold enter expectLevels
  rcases c.peek with ⟨_ | _ | l', c₁⟩
  · simp
  · simp
  · by_cases hm : l'.definition < node.minimum
    · simp only [hm, if_true, Prod.mk.injEq, Except.ok.injEq, Option.some.injEq, reduceCtorEq,
        false_and, false_iff]
      rintro ⟨⟨rfl, -⟩, h⟩
      exact absurd hm (Int16.not_lt.2 h)
    · simp only [hm, if_false, Prod.mk.injEq, Except.ok.injEq, Option.some.injEq]
      constructor
      · rintro ⟨rfl, rfl⟩
        exact ⟨⟨rfl, rfl⟩, Int16.not_lt.1 hm⟩
      · rintro ⟨h, -⟩
        exact h

variable [Inhabited P]

/-- A value that was read from the current position on, by taking its positions. -/
def Reads (shred : Nested α → Level → Except Error (List (Position P))) (c : Cursor ρ P)
    (v : Nested α) (c' : Cursor ρ P) : Prop :=
  ∃ l c₁ ps, c.peek = (.ok (some l), c₁) ∧ shred v l.repetition = .ok ps ∧ c.Steps ps c'

variable {read : Cursor ρ P → Outcome (Cursor ρ P) (Nested α)}
  {shred : Nested α → Level → Except Error (List (Position P))} {level : Level}
  {items : List (Nested α)}

/-- The further items of a list have the positions that were taken, if each item has. -/
theorem readItems_ok
    (hr : ∀ c v c', c.bounds = b → read c = (.ok v, c') → c.Reads shred v c') {count : Nat}
    (hb : c.bounds = b) (h : readItems read level count c = (.ok items, c')) :
    ∃ ps, Node.shredItems shred level level items = .ok ps ∧ c.Steps ps c' := by
  induction count generalizing c items with
  | zero =>
    obtain ⟨rfl, rfl⟩ := Outcome.ok_inj h
    exact ⟨[], rfl, .refl c⟩
  | succ count ih =>
    rw [readItems] at h
    split at h
    · cases h
    · rename_i c₁ hp
      obtain ⟨rfl, rfl⟩ := Outcome.ok_inj h
      exact ⟨[], rfl, .look hp (.refl _)⟩
    · rename_i next c₁ hp
      split at h
      · obtain ⟨rfl, rfl⟩ := Outcome.ok_inj h
        exact ⟨[], rfl, .look hp (.refl _)⟩
      · rename_i hlt
        split at h
        · cases h
        · rename_i hgt
          -- the next position starts an item of this list, not of one further out or further in
          have hl : next.repetition = level :=
            Int16.le_antisymm (Int16.not_lt.1 hgt) (Int16.not_lt.1 hlt)
          have hb₁ : c₁.bounds = b := by rw [bounds_peek hp, hb]
          split at h
          · cases h
          · rename_i item c₂ hi
            obtain ⟨rest, hrest, rfl⟩ := Outcome.map_eq_ok_iff.1 h
            obtain ⟨l, c₃, qs, hp', hq, hs⟩ := hr c₁ item c₂ hb₁ hi
            obtain rfl := levels_eq_of_peek hp hp'
            obtain ⟨rs, hrs, hs'⟩ := ih (by rw [hs.bounds, hb₁]) hrest
            rw [hl] at hq
            exact ⟨qs ++ rs, Node.shredItems_cons.2 ⟨qs, rs, hq, hrs, rfl⟩,
              .look hp (hs.trans hs')⟩

/-- So do all items of a list that is not empty. -/
theorem readList_ok
    (hr : ∀ c v c', c.bounds = b → read c = (.ok v, c') → c.Reads shred v c')
    (hb : c.bounds = b) (h : c.readList read level = (.ok items, c')) :
    ∃ l c₁ ps item rest, c.peek = (.ok (some l), c₁) ∧ items = item :: rest ∧
      Node.shredItems shred l.repetition level (item :: rest) = .ok ps ∧ c.Steps ps c' := by
  unfold readList at h
  split at h
  · cases h
  · rename_i item c₂ hi
    obtain ⟨rest, hrest, rfl⟩ := Outcome.map_eq_ok_iff.1 h
    obtain ⟨l, c₁, qs, hp, hq, hs⟩ := hr c item c₂ hb hi
    obtain ⟨rs, hrs, hs'⟩ := readItems_ok hr (by rw [hs.bounds, hb]) hrest
    exact ⟨l, c₁, qs ++ rs, item, rest, hp, rfl, Node.shredItems_cons.2 ⟨qs, rs, hq, hrs, rfl⟩,
      hs.trans hs'⟩

variable {ps qs : List (Position P)}

/-- In front of a run of positions the cursor sees the first of them. -/
theorem Holds.look_run {k : Level} (hr : Position.Run b d r k ps) (hc : c.Holds (ps ++ qs)) :
    ∃ l c₁, c.peek = (.ok (some l), c₁) ∧ l.repetition = k ∧ d ≤ l.definition.toInt ∧
      c₁.Holds (ps ++ qs) := by
  obtain ⟨p, rest, rfl, hk, -⟩ := hr.head
  obtain ⟨c₁, hp, hc⟩ := hc.look
  exact ⟨p.levels, c₁, hp, hk, (hr.reach p List.mem_cons_self).1, hc⟩

variable (hrun : ∀ item k ps, shred item k = .ok ps → Position.Run b d (r + 1) k ps)
  (hread : ∀ (c : Cursor ρ P) item k ps qs, shred item k = .ok ps →
    Position.EndsAt (r + 1) qs → c.Holds (ps ++ qs) →
    ∃ c', read c = (.ok item, c') ∧ c'.Holds qs)

include hrun

omit [ColumnReader ρ P] [Inhabited P] in
/-- An item ends where the next one starts. -/
theorem endsAt_items (hl : level.toInt = r + 1)
    (hs : Node.shredItems shred level level items = .ok ps) (he : Position.EndsAt r qs) :
    Position.EndsAt (r + 1) (ps ++ qs) := by
  cases items with
  | nil =>
    obtain rfl := Except.ok.inj hs
    intro q hq
    have := he q hq
    omega
  | cons item items =>
    obtain ⟨qs', rs, hq, -, rfl⟩ := Node.shredItems_cons.1 hs
    obtain ⟨p, rest, rfl, hp, -⟩ := (hrun item level qs' hq).head
    intro q hq
    obtain rfl := Option.some.inj hq
    rw [hp]
    omega

include hread

/-- The further items of a list are read back, if each item is. -/
theorem readItems_of_shred (hl : level.toInt = r + 1) {count : Nat}
    (hs : Node.shredItems shred level level items = .ok ps) (he : Position.EndsAt r qs)
    (hc : c.Holds (ps ++ qs)) (hn : ps.length < count) :
    ∃ c', readItems read level count c = (.ok items, c') ∧ c'.Holds qs := by
  induction items generalizing c ps count with
  | nil =>
    obtain rfl := Except.ok.inj hs
    obtain ⟨count, rfl⟩ := Nat.exists_eq_add_one.2 (show 0 < count by omega)
    rw [readItems]
    rw [List.nil_append] at hc
    cases qs with
    | nil =>
      obtain ⟨c', hp, hc⟩ := hc.look_end
      rw [hp]
      exact ⟨c', rfl, hc⟩
    | cons q qs =>
      obtain ⟨c', hp, hc⟩ := hc.look
      have hq := he q rfl
      have hlt : q.levels.repetition < level := Int16.lt_iff_toInt_lt.2 (by omega)
      rw [hp]
      simp only [hlt, if_true]
      exact ⟨c', rfl, hc⟩
  | cons item items ih =>
    obtain ⟨count, rfl⟩ := Nat.exists_eq_add_one.2 (show 0 < count by omega)
    obtain ⟨qs', rs, hq, hr, rfl⟩ := Node.shredItems_cons.1 hs
    have hir := hrun item level qs' hq
    rw [List.append_assoc] at hc
    obtain ⟨l, c₁, hp, hk, -, hc⟩ := hc.look_run hir
    -- every item has a position, so there are reads left for the items that are left
    have hne := List.length_pos_of_ne_nil hir.ne_nil
    obtain ⟨c₂, hi, hc⟩ := hread c₁ item level qs' (rs ++ qs) hq (endsAt_items hrun hl hr he) hc
    rw [List.length_append] at hn
    obtain ⟨c₃, hrest, hc⟩ := ih hr hc (show rs.length < count by omega)
    have hlt : ¬level < level := Int16.lt_irrefl
    rw [readItems, hp]
    simp only [hk, hlt, if_false, hi]
    exact ⟨c₃, Outcome.map_eq_ok_iff.2 ⟨items, hrest, rfl⟩, hc⟩

/-- So are all items of a list that is not empty. -/
theorem readList_of_shred (hl : level.toInt = r + 1) {k : Level} {item : Nested α}
    (hs : Node.shredItems shred k level (item :: items) = .ok ps) (he : Position.EndsAt r qs)
    (hc : c.Holds (ps ++ qs)) :
    ∃ c', c.readList read level = (.ok (item :: items), c') ∧ c'.Holds qs := by
  obtain ⟨qs', rs, hq, hr, rfl⟩ := Node.shredItems_cons.1 hs
  rw [List.append_assoc] at hc
  obtain ⟨c₁, hi, hc⟩ := hread c item k qs' (rs ++ qs) hq (endsAt_items hrun hl hr he) hc
  -- the positions left are more than enough for the items that are left
  have hle := hc.length_le
  rw [List.length_append] at hle
  obtain ⟨c₂, hrest, hc⟩ := readItems_of_shred hrun hread hl hr he hc
    (show rs.length < c₁.left + 1 by omega)
  unfold readList
  rw [hi]
  exact ⟨c₂, Outcome.map_eq_ok_iff.2 ⟨items, hrest, rfl⟩, hc⟩

end Cursor

namespace Node

open Cursor

variable {t : LeafType} [ColumnReader ρ t.Physical] {c c' : Cursor ρ t.Physical}
  {v : Nested t.Value} {node : Node}

section Inversion

/-- A node goes on with the levels at the current position. -/
theorem enter_then {β : Type} {x : β}
    {f : Levels → Cursor ρ t.Physical → Outcome (Cursor ρ t.Physical) β} :
    (match c.enter node with
      | (.error e, c) => (.error e, c)
      | (.ok l, c) => f l c) = (.ok x, c') ↔
      ∃ l c₁, c.peek = (.ok (some l), c₁) ∧ node.minimum ≤ l.definition ∧ f l c₁ = (.ok x, c') := by
  constructor
  · intro h
    split at h
    · cases h
    · rename_i l c₁ he
      obtain ⟨hp, hm⟩ := enter_eq_ok_iff.1 he
      exact ⟨l, c₁, hp, hm, h⟩
  · rintro ⟨l, c₁, hp, hm, h⟩
    rw [enter_eq_ok_iff.2 ⟨hp, hm⟩]
    exact h

omit [ColumnReader ρ t.Physical] in
theorem readLeaf_eq_ok_iff {l : Levels} :
    readLeaf t c l = (.ok v, c') ↔
      ∃ x c₁, c.takeValue l = (.ok (t.toPhysical x), c₁) ∧ v = .scalar x ∧ c' = c₁.advance := by
  unfold readLeaf
  constructor
  · intro h
    split at h
    · cases h
    · rename_i p c₁ hv
      split at h
      · cases h
      · rename_i x hx
        obtain ⟨rfl, rfl⟩ := Outcome.ok_inj h
        rw [LeafType.ofPhysical_eq_ok_iff.1 hx] at hv
        exact ⟨x, c₁, hv, rfl, rfl⟩
  · rintro ⟨x, c₁, hv, rfl, rfl⟩
    rw [hv]
    simp only [LeafType.ofPhysical_toPhysical]

theorem assemble_leaf {null : Option Level} {level : Level} :
    (leaf null level).assemble t c = (.ok v, c') ↔
      ∃ l c₁, c.peek = (.ok (some l), c₁) ∧ null.getD level ≤ l.definition ∧
        ((level ≤ l.definition ∧
            ∃ x c₂, c₁.takeValue l = (.ok (t.toPhysical x), c₂) ∧ v = .scalar x ∧
              c' = c₂.advance) ∨
          (l.definition < level ∧ v = .null ∧ c' = c₁.advance)) := by
  rw [assemble]
  refine enter_then.trans (exists_congr fun l => exists_congr fun c₁ => and_congr_right fun _ =>
    and_congr_right fun _ => ?_)
  split
  · rename_i hd
    rw [readLeaf_eq_ok_iff]
    simp [hd, Int16.not_lt.2 hd]
  · rename_i hd
    simp [hd, Int16.not_le.1 hd, eq_comm]

theorem assemble_requiredStruct {m : Node} :
    (requiredStruct m).assemble t c = (.ok v, c') ↔
      ∃ l c₁ u, c.peek = (.ok (some l), c₁) ∧ m.minimum ≤ l.definition ∧
        m.assemble t c₁ = (.ok u, c') ∧ v = .struct u := by
  rw [assemble]
  refine enter_then.trans (exists_congr fun l => exists_congr fun c₁ => ?_)
  rw [Outcome.map_eq_ok_iff]
  constructor
  · rintro ⟨hp, hm, u, hu, hv⟩
    exact ⟨u, hp, hm, hu, hv⟩
  · rintro ⟨u, hp, hm, hu, hv⟩
    exact ⟨hp, hm, u, hu, hv⟩

theorem assemble_optionalStruct {null : Level} {m : Node} :
    (optionalStruct null m).assemble t c = (.ok v, c') ↔
      ∃ l c₁, c.peek = (.ok (some l), c₁) ∧ null ≤ l.definition ∧
        ((l.definition = null ∧ v = .null ∧ c' = c₁.advance) ∨
          (l.definition ≠ null ∧ ∃ u, m.assemble t c₁ = (.ok u, c') ∧ v = .struct u)) := by
  rw [assemble]
  refine enter_then.trans (exists_congr fun l => exists_congr fun c₁ => and_congr_right fun _ =>
    and_congr_right fun _ => ?_)
  split
  · rename_i hd
    simp [hd, eq_comm]
  · rename_i hd
    rw [Outcome.map_eq_ok_iff]
    simp [hd]

theorem assemble_list {null : Option Level} {empty level : Level} {m : Node} :
    (list null empty level m).assemble t c = (.ok v, c') ↔
      ∃ l c₁, c.peek = (.ok (some l), c₁) ∧ null.getD empty ≤ l.definition ∧
        ((some l.definition = null ∧ v = .null ∧ c' = c₁.advance) ∨
          (some l.definition ≠ null ∧ l.definition = empty ∧ v = .list [] ∧ c' = c₁.advance) ∨
          (some l.definition ≠ null ∧ l.definition ≠ empty ∧
            ∃ items, c₁.readList (m.assemble t) level = (.ok items, c') ∧ v = .list items)) := by
  rw [assemble]
  refine enter_then.trans (exists_congr fun l => exists_congr fun c₁ => and_congr_right fun _ =>
    and_congr_right fun _ => ?_)
  split
  · rename_i hn
    simp [hn, eq_comm]
  · rename_i hn
    split
    · rename_i hd
      simp [← hd, hn, eq_comm]
    · rename_i hd
      rw [Outcome.map_eq_ok_iff]
      simp [hn, hd]

end Inversion

section Sound

variable {l : Levels} {c₁ c₂ : Cursor ρ t.Physical}

theorem definition_le_of_peek (hp : c.peek = (.ok (some l), c₁)) (hb : c.bounds = b) :
    l.definition.toInt ≤ b.definition.toInt := by
  have hw := (peek_some hp).2
  rw [bounds_peek hp, hb] at hw
  exact (LevelBounds.contains_iff.1 hw.2).1.2

/-- A leaf value is read from a position that has one. -/
theorem reads_present {x : t.Physical} (hb : c.bounds = b) (hp : c.peek = (.ok (some l), c₁))
    (hd : l.definition = b.definition) (hv : c₁.takeValue l = (.ok x, c₂))
    (hs : node.shred t column v l.repetition = .ok [⟨⟨b.definition, l.repetition⟩, some x⟩]) :
    c.Reads (node.shred t column) v c₂.advance := by
  have hn := next_of_value hp (by rw [hd, bounds_peek hp, hb]) hv
  rw [← hd] at hs
  exact ⟨l, c₁, _, hp, hs, .take hn (.refl _)⟩

/-- What stops short of the leaf is read from a position without a value. -/
theorem reads_absent {n : Level} (hb : c.bounds = b) (hp : c.peek = (.ok (some l), c₁))
    (hd : l.definition = n) (hlt : n.toInt < b.definition.toInt)
    (hs : node.shred t column v l.repetition = .ok [⟨⟨n, l.repetition⟩, none⟩]) :
    c.Reads (node.shred t column) v c₁.advance := by
  have hne : l.definition ≠ c₁.bounds.definition := by
    rw [bounds_peek hp, hb, hd]
    intro h
    rw [h] at hlt
    omega
  rw [← hd] at hs
  exact ⟨l, c₁, _, hp, hs, .take (next_of_absent hp hne) (.refl _)⟩

/-- What goes on further in is read there. -/
theorem reads_inner {m : Node} {u : Nested t.Value} (hp : c.peek = (.ok (some l), c₁))
    (hr : c₁.Reads (m.shred t column) u c')
    (hs : ∀ k, node.shred t column v k = m.shred t column u k) :
    c.Reads (node.shred t column) v c' := by
  obtain ⟨l', c₂, ps, hp', hq, hsteps⟩ := hr
  obtain rfl := levels_eq_of_peek hp hp'
  exact ⟨l, c₁, ps, hp, by rw [hs, hq], .look hp hsteps⟩

theorem reads_list {m : Node} {null : Option Level} {empty level : Level}
    {items : List (Nested t.Value)} (hb : c.bounds = b) (hp : c.peek = (.ok (some l), c₁))
    (hm : ∀ (c : Cursor ρ t.Physical) v c', c.bounds = b → m.assemble t c = (.ok v, c') →
      c.Reads (m.shred t column) v c')
    (h : c₁.readList (m.assemble t) level = (.ok items, c')) :
    c.Reads ((list null empty level m).shred t column) (.list items) c' := by
  obtain ⟨l', c₂, ps, item, rest, hp', rfl, hq, hsteps⟩ :=
    readList_ok hm (by rw [bounds_peek hp, hb]) h
  obtain rfl := levels_eq_of_peek hp hp'
  exact ⟨l, c₁, ps, hp, shred_list.2 (.inr (.inr ⟨item, rest, rfl, hq⟩)), .look hp hsteps⟩

/-- **What is assembled was shredded so.** -/
theorem Leveled.shred_of_assemble (hn : node.Leveled b d r) (hb : c.bounds = b)
    (h : node.assemble t c = (.ok v, c')) : c.Reads (node.shred t column) v c' := by
  -- each node looks at the same position, and only the one that stops there takes it
  induction hn generalizing c v c' with
  | requiredLeaf hv hd hr =>
    subst hd
    obtain ⟨l, c₁, hp, hm, ⟨-, x, c₂, htake, rfl, rfl⟩ | ⟨hlt, -, -⟩⟩ := assemble_leaf.1 h
    · have hle := definition_le_of_peek hp hb
      have heq := Int16.le_antisymm (Int16.le_iff_toInt_le.2 hle) hm
      exact reads_present hb hp heq htake (shred_requiredLeaf.2 ⟨x, rfl, rfl⟩)
    · exact absurd hlt (Int16.not_lt.2 hm)
  | @optionalLeaf n _ _ _ hn hv hd hr =>
    subst hd
    obtain ⟨l, c₁, hp, hm, ⟨hle, x, c₂, htake, rfl, rfl⟩ | ⟨hlt, rfl, rfl⟩⟩ := assemble_leaf.1 h
    · have hge := definition_le_of_peek hp hb
      have heq := Int16.le_antisymm (Int16.le_iff_toInt_le.2 hge) hle
      exact reads_present hb hp heq htake (shred_optionalLeaf.2 (.inr ⟨x, rfl, rfl⟩))
    · have hm := Int16.le_iff_toInt_le.1 hm
      have hlt := Int16.lt_iff_toInt_lt.1 hlt
      rw [Option.getD_some] at hm
      have heq : l.definition = n := Int16.toInt.inj (by omega)
      exact reads_absent hb hp heq (by omega) (shred_optionalLeaf.2 (.inl ⟨rfl, rfl⟩))
  | requiredStruct _ ih =>
    obtain ⟨l, c₁, u, hp, -, hu, rfl⟩ := assemble_requiredStruct.1 h
    exact reads_inner hp (ih (by rw [bounds_peek hp, hb]) hu) fun _ => rfl
  | optionalStruct hn hm ih =>
    have hle := hm.definition_le
    obtain ⟨l, c₁, hp, -, ⟨heq, rfl, rfl⟩ | ⟨-, u, hu, rfl⟩⟩ := assemble_optionalStruct.1 h
    · exact reads_absent hb hp heq (by omega) rfl
    · exact reads_inner hp (ih (by rw [bounds_peek hp, hb]) hu) fun _ => rfl
  | requiredList he hl hm ih =>
    have hle := hm.definition_le
    obtain ⟨l, c₁, hp, -, ⟨heq, -⟩ | ⟨-, heq, rfl, rfl⟩ | ⟨-, -, items, hi, rfl⟩⟩ :=
      assemble_list.1 h
    · cases heq
    · exact reads_absent hb hp heq (by omega) rfl
    · exact reads_list hb hp (fun _ _ _ => ih) hi
  | optionalList hn he hl hm ih =>
    have hle := hm.definition_le
    obtain ⟨l, c₁, hp, -, ⟨heq, rfl, rfl⟩ | ⟨-, heq, rfl, rfl⟩ | ⟨-, -, items, hi, rfl⟩⟩ :=
      assemble_list.1 h
    · exact reads_absent hb hp (Option.some.inj heq) (by omega) rfl
    · exact reads_absent hb hp heq (by omega) rfl
    · exact reads_list hb hp (fun _ _ _ => ih) hi

end Sound

section Complete

variable {k : Level} {ps qs : List (Position t.Physical)}

theorem assemble_items {m : Node} {null : Option Level} {empty level : Level}
    {item : Nested t.Value} {rest : List (Nested t.Value)} (hm : m.Leveled b d (r + 1))
    (hl : level.toInt = r + 1) (hnull : ∀ n, null = some n → n.toInt < d)
    (hempty : empty.toInt < d)
    (ih : ∀ (c : Cursor ρ t.Physical) v k ps qs, m.shred t column v k = .ok ps →
      Position.EndsAt (r + 1) qs → c.Holds (ps ++ qs) →
      ∃ c', m.assemble t c = (.ok v, c') ∧ c'.Holds qs)
    (hs : shredItems (m.shred t column) k level (item :: rest) = .ok ps)
    (he : Position.EndsAt r qs) (hc : c.Holds (ps ++ qs)) :
    ∃ c', (list null empty level m).assemble t c = (.ok (.list (item :: rest)), c') ∧
      c'.Holds qs := by
  have hrun : ∀ item k ps, m.shred t column item k = .ok ps → Position.Run b d (r + 1) k ps :=
    fun _ _ _ h => hm.run h
  have hb := hm.repetition_le
  obtain ⟨l, c₁, hp, -, hd, hc⟩ := hc.look_run (run_shredItems hrun hl (by omega) hs)
  obtain ⟨c', hi, hc⟩ := readList_of_shred hrun ih hl hs he hc
  refine ⟨c', assemble_list.2 ⟨l, c₁, hp, ?_, .inr (.inr ⟨?_, ?_, _, hi, rfl⟩)⟩, hc⟩
  · rw [Int16.le_iff_toInt_le]
    cases null with
    | none => rw [Option.getD_none]; omega
    | some n => have := hnull n rfl; rw [Option.getD_some]; omega
  · intro h
    have := hnull _ h.symm
    omega
  · intro h
    rw [h] at hd
    omega

/-- **What was shredded is assembled**, and the cursor stops behind it. -/
theorem Leveled.assemble_of_shred (hn : node.Leveled b d r)
    (hs : node.shred t column v k = .ok ps) (he : Position.EndsAt r qs)
    (hc : c.Holds (ps ++ qs)) : ∃ c', node.assemble t c = (.ok v, c') ∧ c'.Holds qs := by
  -- the definition level of the first position tells at which node the value stops
  induction hn generalizing c v k ps qs with
  | @requiredLeaf level _ _ hv hd hr =>
    obtain ⟨x, rfl, rfl⟩ := shred_requiredLeaf.1 hs
    obtain ⟨c₁, c₂, hp, htake, hc⟩ := hc.present
    have ha : (leaf none level).assemble t c = (.ok (.scalar x), c₂.advance) :=
      assemble_leaf.2 ⟨_, c₁, hp, Int16.le_refl _,
        .inl ⟨Int16.le_refl _, x, c₂, htake, rfl, rfl⟩⟩
    exact ⟨c₂.advance, ha, hc⟩
  | @optionalLeaf n level _ _ hn hv hd hr =>
    have hlt : n < level := Int16.lt_iff_toInt_lt.2 (by omega)
    rcases shred_optionalLeaf.1 hs with ⟨rfl, rfl⟩ | ⟨x, rfl, rfl⟩
    · obtain ⟨c₁, hp, hc⟩ := hc.absent
      have ha : (leaf (some n) level).assemble t c = (.ok .null, c₁.advance) :=
        assemble_leaf.2 ⟨_, c₁, hp, Int16.le_refl _, .inr ⟨hlt, rfl, rfl⟩⟩
      exact ⟨c₁.advance, ha, hc⟩
    · obtain ⟨c₁, c₂, hp, htake, hc⟩ := hc.present
      have ha : (leaf (some n) level).assemble t c = (.ok (.scalar x), c₂.advance) :=
        assemble_leaf.2 ⟨_, c₁, hp, Int16.le_of_lt hlt,
          .inl ⟨Int16.le_refl _, x, c₂, htake, rfl, rfl⟩⟩
      exact ⟨c₂.advance, ha, hc⟩
  | @requiredStruct m _ _ hm ih =>
    obtain ⟨u, rfl, hs⟩ := shred_requiredStruct.1 hs
    obtain ⟨l, c₁, hp, -, hd, hc⟩ := hc.look_run (hm.run hs)
    obtain ⟨c', hu, hc⟩ := ih hs he hc
    have hmin := hm.minimum
    have hle : m.minimum ≤ l.definition := Int16.le_iff_toInt_le.2 (by omega)
    exact ⟨c', assemble_requiredStruct.2 ⟨l, c₁, u, hp, hle, hu, rfl⟩, hc⟩
  | @optionalStruct n m _ _ hn hm ih =>
    rcases shred_optionalStruct.1 hs with ⟨rfl, rfl⟩ | ⟨u, rfl, hs⟩
    · obtain ⟨c₁, hp, hc⟩ := hc.absent
      have ha : (Node.optionalStruct n m).assemble t c = (.ok .null, c₁.advance) :=
        assemble_optionalStruct.2 ⟨_, c₁, hp, Int16.le_refl _, .inl ⟨rfl, rfl, rfl⟩⟩
      exact ⟨c₁.advance, ha, hc⟩
    · obtain ⟨l, c₁, hp, -, hd, hc⟩ := hc.look_run (hm.run hs)
      obtain ⟨c', hu, hc⟩ := ih hs he hc
      have hne : l.definition ≠ n := by
        intro h
        rw [h] at hd
        omega
      have hle : n ≤ l.definition := Int16.le_iff_toInt_le.2 (by omega)
      exact ⟨c', assemble_optionalStruct.2 ⟨l, c₁, hp, hle, .inr ⟨hne, u, hu, rfl⟩⟩, hc⟩
  | @requiredList e level m d _ hempty hl hm ih =>
    rcases shred_list.1 hs with ⟨n, hn, -⟩ | ⟨rfl, rfl⟩ | ⟨item, rest, rfl, hs⟩
    · cases hn
    · obtain ⟨c₁, hp, hc⟩ := hc.absent
      have ha : (list none e level m).assemble t c = (.ok (.list []), c₁.advance) :=
        assemble_list.2 ⟨_, c₁, hp, Int16.le_refl _, .inr (.inl ⟨by simp, rfl, rfl, rfl⟩)⟩
      exact ⟨c₁.advance, ha, hc⟩
    · have hnone : ∀ n, (none : Option Level) = some n → n.toInt < d + 1 := by
        intro n h
        cases h
      exact assemble_items hm hl hnone (by omega) (fun _ _ _ _ _ => ih) hs he hc
  | @optionalList n e level m d _ hn hempty hl hm ih =>
    rcases shred_list.1 hs with ⟨n', hn', rfl, rfl⟩ | ⟨rfl, rfl⟩ | ⟨item, rest, rfl, hs⟩
    · obtain rfl := Option.some.inj hn'
      obtain ⟨c₁, hp, hc⟩ := hc.absent
      have ha : (list (some n) e level m).assemble t c = (.ok .null, c₁.advance) :=
        assemble_list.2 ⟨_, c₁, hp, Int16.le_refl _, .inl ⟨rfl, rfl, rfl⟩⟩
      exact ⟨c₁.advance, ha, hc⟩
    · obtain ⟨c₁, hp, hc⟩ := hc.absent
      have hlt : n < e := Int16.lt_iff_toInt_lt.2 (by omega)
      have hne : some e ≠ some n := by
        intro h
        rw [Option.some.inj h] at hlt
        exact Int16.lt_irrefl hlt
      have ha : (list (some n) e level m).assemble t c = (.ok (.list []), c₁.advance) :=
        assemble_list.2 ⟨_, c₁, hp, Int16.le_of_lt hlt, .inr (.inl ⟨hne, rfl, rfl, rfl⟩)⟩
      exact ⟨c₁.advance, ha, hc⟩
    · have hnull : ∀ n', some n = some n' → n'.toInt < d + 2 := by
        intro n' h
        obtain rfl := Option.some.inj h
        omega
      exact assemble_items hm hl hnull (by omega) (fun _ _ _ _ _ => ih) hs he hc

end Complete

end Node

end Striping
