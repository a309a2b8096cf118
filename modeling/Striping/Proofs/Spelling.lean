import Striping.Proofs.Rows

/-!
# What positions spell

The value that a node finds at the start of some positions depends on these positions only, not on
the cursor that walks over them. A cursor may get them from a reader in batches of any lengths.

* `Node.Spells`: the value that positions start with, and the positions behind it.
  `Node.spells_unique`: **there is one such value at most**. `Node.shred_of_spells`: it shreds to
  the positions in between.
* `ColumnReader.Delivers`: a reader of certain positions, which may also fail on the way.
* `Cursor.Faces`: a cursor in front of certain positions. `Cursor.Faces.next`: **it takes the first
  of them**, whichever batch brings it.
* `Node.Leveled.spells_of_assemble`: **what is assembled is what the positions spell**.
-/

namespace Striping

variable {ρ P α : Type} {b : LevelBounds}

/-- Some items that positions start with, each of which begins at a repetition level, and the
positions behind them. -/
inductive Position.SpellItems (spells : List (Position P) → Nested α → List (Position P) → Prop)
    (level : Level) : List (Position P) → List (Nested α) → List (Position P) → Prop where
  | nil (ps : List (Position P)) : SpellItems spells level ps [] ps
  | cons {p : Position P} {ps qs rest : List (Position P)} {item : Nested α}
      {items : List (Nested α)} (hp : p.levels.repetition = level)
      (h : spells (p :: ps) item qs) (hs : SpellItems spells level qs items rest) :
      SpellItems spells level (p :: ps) (item :: items) rest

namespace Position.SpellItems

variable {spells : List (Position P) → Nested α → List (Position P) → Prop} {level : Level}
  {ps qs rest rest' : List (Position P)} {items items' : List (Nested α)}

theorem append (h : SpellItems spells level ps items qs)
    (hs : SpellItems spells level qs items' rest) :
    SpellItems spells level ps (items ++ items') rest := by
  induction h with
  | nil => exact hs
  | cons hp h _ ih => exact .cons hp h (ih hs)

/-- **Of two item sequences that positions start with, one goes on where the other ends.** -/
theorem comparable (h : SpellItems spells level ps items rest)
    (h' : SpellItems spells level ps items' rest')
    (hu : ∀ ps v v' rest rest', spells ps v rest → spells ps v' rest' → v = v' ∧ rest = rest') :
    ∃ more, (items' = items ++ more ∧ SpellItems spells level rest more rest') ∨
      (items = items' ++ more ∧ SpellItems spells level rest' more rest) := by
  induction h generalizing items' with
  | nil => exact ⟨items', .inl ⟨rfl, h'⟩⟩
  | @cons p ps qs rest item items hp hitem hitems ih =>
    cases h' with
    | nil => exact ⟨item :: items, .inr ⟨rfl, .cons hp hitem hitems⟩⟩
    | cons _ hitem' hitems' =>
      obtain ⟨rfl, rfl⟩ := hu _ _ _ _ _ hitem hitem'
      obtain ⟨more, ⟨rfl, hmore⟩ | ⟨rfl, hmore⟩⟩ := ih hitems'
      · exact ⟨more, .inl ⟨rfl, hmore⟩⟩
      · exact ⟨more, .inr ⟨rfl, hmore⟩⟩

/-- No item starts at a position that lies further out. -/
theorem eq_nil_of_end (h : SpellItems spells level ps items rest)
    (he : ∀ p ∈ ps.head?, p.levels.repetition < level) : items = [] ∧ ps = rest := by
  cases h with
  | nil => exact ⟨rfl, rfl⟩
  | cons hp =>
    have hlt := he _ rfl
    rw [hp] at hlt
    exact absurd hlt Int16.lt_irrefl

/-- The items up to the end of their list are only those. -/
theorem unique (h : SpellItems spells level ps items rest)
    (h' : SpellItems spells level ps items' rest')
    (hu : ∀ ps v v' rest rest', spells ps v rest → spells ps v' rest' → v = v' ∧ rest = rest')
    (he : ∀ p ∈ rest.head?, p.levels.repetition < level)
    (he' : ∀ p ∈ rest'.head?, p.levels.repetition < level) : items = items' ∧ rest = rest' := by
  obtain ⟨more, ⟨rfl, hmore⟩ | ⟨rfl, hmore⟩⟩ := h.comparable h' hu
  · obtain ⟨rfl, rfl⟩ := hmore.eq_nil_of_end he
    exact ⟨(List.append_nil _).symm, rfl⟩
  · obtain ⟨rfl, rfl⟩ := hmore.eq_nil_of_end he'
    exact ⟨List.append_nil _, rfl⟩

/-- Items shred to the positions that spell them, if each item does. -/
theorem shredItems {shred : Nested α → Level → Except Error (List (Position P))}
    (hs : ∀ p ps v rest, spells (p :: ps) v rest →
      ∃ qs, shred v p.levels.repetition = .ok qs ∧ p :: ps = qs ++ rest)
    (h : SpellItems spells level ps items rest) :
    ∃ qs, Node.shredItems shred level level items = .ok qs ∧ ps = qs ++ rest := by
  induction h with
  | nil => exact ⟨[], rfl, rfl⟩
  | cons hp hitem _ ih =>
    obtain ⟨qs, hq, hqs⟩ := hs _ _ _ _ hitem
    obtain ⟨rs, hr, rfl⟩ := ih
    rw [hp] at hq
    refine ⟨qs ++ rs, Node.shredItems_cons.2 ⟨qs, rs, hq, hr, rfl⟩, ?_⟩
    rw [hqs, List.append_assoc]

end Position.SpellItems

namespace Node

variable {t : LeafType} {ps rest rest' : List (Position t.Physical)} {v v' : Nested t.Value}
  {node : Node}

/-- The value of a node that positions start with, and the positions behind it. -/
def Spells (t : LeafType) :
    Node → List (Position t.Physical) → Nested t.Value → List (Position t.Physical) → Prop
  | leaf null level, ps, v, rest =>
    (∃ k x, ps = ⟨⟨level, k⟩, some (t.toPhysical x)⟩ :: rest ∧ v = .scalar x) ∨
      ∃ k n, null = some n ∧ ps = ⟨⟨n, k⟩, none⟩ :: rest ∧ v = .null
  | requiredStruct member, ps, v, rest => ∃ u, member.Spells t ps u rest ∧ v = .struct u
  | optionalStruct null member, ps, v, rest =>
    (∃ k, ps = ⟨⟨null, k⟩, none⟩ :: rest ∧ v = .null) ∨
      ((∀ p ∈ ps.head?, p.levels.definition ≠ null) ∧
        ∃ u, member.Spells t ps u rest ∧ v = .struct u)
  | list null empty level element, ps, v, rest =>
    (∃ k n, null = some n ∧ ps = ⟨⟨n, k⟩, none⟩ :: rest ∧ v = .null) ∨
      (some empty ≠ null ∧ ∃ k, ps = ⟨⟨empty, k⟩, none⟩ :: rest ∧ v = .list []) ∨
      ((∀ p ∈ ps.head?, some p.levels.definition ≠ null ∧ p.levels.definition ≠ empty) ∧
        ∃ item items behind, element.Spells t ps item behind ∧
          Position.SpellItems (element.Spells t) level behind items rest ∧
          (∀ p ∈ rest.head?, p.levels.repetition < level) ∧ v = .list (item :: items))

/-- **Positions start with one value at most.** -/
theorem spells_unique (h : node.Spells t ps v rest) (h' : node.Spells t ps v' rest') :
    v = v' ∧ rest = rest' := by
  induction node generalizing ps v v' rest rest' with
  | leaf null level =>
    rcases h with ⟨k, x, rfl, rfl⟩ | ⟨k, n, rfl, rfl, rfl⟩
    · rcases h' with ⟨k', x', hps, rfl⟩ | ⟨k', n, -, hps, -⟩
      · -- a stored form is that of one value only
        obtain ⟨hx, rfl⟩ := List.cons.inj hps
        have hx : t.toPhysical x = t.toPhysical x' := Option.some.inj (congrArg Position.value hx)
        have hof := t.ofPhysical_toPhysical x
        rw [hx, t.ofPhysical_toPhysical] at hof
        rw [Except.ok.inj hof]
        exact ⟨rfl, rfl⟩
      · cases congrArg Position.value (List.cons.inj hps).1
    · rcases h' with ⟨k', x, hps, -⟩ | ⟨k', n', -, hps, rfl⟩
      · cases congrArg Position.value (List.cons.inj hps).1
      · exact ⟨rfl, (List.cons.inj hps).2⟩
  | requiredStruct member ih =>
    obtain ⟨u, hu, rfl⟩ := h
    obtain ⟨u', hu', rfl⟩ := h'
    obtain ⟨rfl, rfl⟩ := ih hu hu'
    exact ⟨rfl, rfl⟩
  | optionalStruct null member ih =>
    rcases h with ⟨k, rfl, rfl⟩ | ⟨hne, u, hu, rfl⟩
    · rcases h' with ⟨k', hps, rfl⟩ | ⟨hne, -⟩
      · exact ⟨rfl, (List.cons.inj hps).2⟩
      · exact absurd rfl (hne _ rfl)
    · rcases h' with ⟨k, rfl, -⟩ | ⟨-, u', hu', rfl⟩
      · exact absurd rfl (hne _ rfl)
      · obtain ⟨rfl, rfl⟩ := ih hu hu'
        exact ⟨rfl, rfl⟩
  | list null empty level element ih =>
    rcases h with ⟨k, n, rfl, rfl, rfl⟩ | ⟨hnull, k, rfl, rfl⟩ |
      ⟨hne, item, items, behind, hitem, hitems, hend, rfl⟩
    · rcases h' with ⟨k', n', -, hps, rfl⟩ | ⟨hnull, k', hps, -⟩ | ⟨hne, -⟩
      · exact ⟨rfl, (List.cons.inj hps).2⟩
      · have hn := congrArg (fun p => some p.levels.definition) (List.cons.inj hps).1
        exact absurd hn.symm hnull
      · exact absurd rfl (hne _ rfl).1
    · rcases h' with ⟨k', n, rfl, hps, -⟩ | ⟨-, k', hps, rfl⟩ | ⟨hne, -⟩
      · have hn := congrArg (fun p => some p.levels.definition) (List.cons.inj hps).1
        exact absurd hn hnull
      · exact ⟨rfl, (List.cons.inj hps).2⟩
      · exact absurd rfl (hne _ rfl).2
    · rcases h' with ⟨k, n, rfl, rfl, -⟩ | ⟨-, k, rfl, -⟩ |
        ⟨-, item', items', behind', hitem', hitems', hend', rfl⟩
      · exact absurd rfl (hne _ rfl).1
      · exact absurd rfl (hne _ rfl).2
      · obtain ⟨rfl, rfl⟩ := ih hitem hitem'
        obtain ⟨rfl, rfl⟩ := hitems.unique hitems' (fun _ _ _ _ _ => ih) hend hend'
        exact ⟨rfl, rfl⟩

/-- **A value shreds to the positions that spell it.** -/
theorem shred_of_spells {column : String} {p : Position t.Physical}
    (h : node.Spells t (p :: ps) v rest) :
    ∃ qs, node.shred t column v p.levels.repetition = .ok qs ∧ p :: ps = qs ++ rest := by
  induction node generalizing p ps v rest with
  | leaf null level =>
    rcases h with ⟨k, x, hps, rfl⟩ | ⟨k, n, rfl, hps, rfl⟩
    · obtain ⟨rfl, rfl⟩ := List.cons.inj hps
      exact ⟨_, rfl, rfl⟩
    · obtain ⟨rfl, rfl⟩ := List.cons.inj hps
      exact ⟨_, rfl, rfl⟩
  | requiredStruct member ih =>
    obtain ⟨u, hu, rfl⟩ := h
    exact ih hu
  | optionalStruct null member ih =>
    rcases h with ⟨k, hps, rfl⟩ | ⟨-, u, hu, rfl⟩
    · obtain ⟨rfl, rfl⟩ := List.cons.inj hps
      exact ⟨_, rfl, rfl⟩
    · exact ih hu
  | list null empty level element ih =>
    rcases h with ⟨k, n, rfl, hps, rfl⟩ | ⟨-, k, hps, rfl⟩ |
      ⟨-, item, items, behind, hitem, hitems, -, rfl⟩
    · obtain ⟨rfl, rfl⟩ := List.cons.inj hps
      exact ⟨_, rfl, rfl⟩
    · obtain ⟨rfl, rfl⟩ := List.cons.inj hps
      exact ⟨_, shred_list.2 (.inr (.inl ⟨rfl, rfl⟩)), rfl⟩
    · -- only the first item is reached at the level of the list itself
      obtain ⟨qs, hq, hqs⟩ := ih hitem
      obtain ⟨rs, hr, rfl⟩ := hitems.shredItems fun _ _ _ _ => ih
      have hs := shredItems_cons.2 ⟨qs, rs, hq, hr, rfl⟩
      refine ⟨qs ++ rs, shred_list.2 (.inr (.inr ⟨item, items, rfl, hs⟩)), ?_⟩
      rw [hqs, List.append_assoc]

end Node

/-- A reader that, asked the same again and again, answers with some positions, in batches of any
lengths, and then with an empty batch. It may fail on the way. -/
inductive ColumnReader.Delivers [ColumnReader ρ P] (b : LevelBounds) (q : Request) :
    ρ → List (Position P) → Prop where
  | done {r r' : ρ} {a : Answer P} (h : ColumnReader.readBatch r q = (.ok a, r'))
      (ha : a.Brings b []) : Delivers b q r []
  | more {r r' : ρ} {a : Answer P} {ps qs : List (Position P)}
      (h : ColumnReader.readBatch r q = (.ok a, r')) (ha : a.Brings b ps) (hne : ps ≠ [])
      (hn : ps.length ≤ q.positions) (hs : Delivers b q r' qs) : Delivers b q r (ps ++ qs)
  /-- Nothing is known of what comes after a failure. -/
  | fail {r r' : ρ} {e : Error} {ps : List (Position P)}
      (h : ColumnReader.readBatch r q = (.error e, r')) : Delivers b q r ps

/-- Positions with the same levels are the same if both of them or none takes the next value. -/
theorem Position.eq_of_values {p q : Position P} {xs ys : List P} (hl : p.levels = q.levels)
    (hs : p.value.isSome ↔ q.value.isSome) (hv : p.value.toList ++ xs = q.value.toList ++ ys) :
    p = q ∧ xs = ys := by
  obtain ⟨l, x⟩ := p
  obtain ⟨l', y⟩ := q
  obtain rfl : l = l' := hl
  cases x with
  | none =>
    cases y with
    | none => exact ⟨rfl, hv⟩
    | some y => cases hs.2 rfl
  | some x =>
    cases y with
    | none => cases hs.1 rfl
    | some y =>
      obtain ⟨rfl, hvs⟩ := List.cons.inj hv
      exact ⟨rfl, hvs⟩

namespace Cursor

variable [Inhabited P] [ColumnReader ρ P] {c c' : Cursor ρ P} {ps qs : List (Position P)}

/-- A cursor in front of some positions: those that are left of the current batch, and those that
its reader still delivers. -/
structure Faces (c : Cursor ρ P) (ps : List (Position P)) : Prop where
  tidy : c.Tidy
  paired : ∀ p ∈ ps, p.Paired c.bounds
  split : ∃ here rest, ps = here ++ rest ∧ c.pendingLevels = here.map (·.levels) ∧
    c.pendingValues = here.filterMap (·.value) ∧
    ((c.exhausted = false ∧ ColumnReader.Delivers c.bounds c.request c.reader rest) ∨
      (c.exhausted = true ∧ rest = []))

/-- A new cursor is in front of what its reader delivers. -/
theorem faces_of_make {reader : ρ} {column : String} {n : Nat}
    (h : make reader column b n = .ok c) (hd : ColumnReader.Delivers b c.request reader ps)
    (hp : ∀ p ∈ ps, p.Paired b) : c.Faces ps := by
  have ht := (fresh_of_make h).1
  unfold make at h
  split at h
  · cases h
  · obtain rfl := Except.ok.inj h
    exact ⟨ht, hp, [], ps, rfl, rfl, rfl, .inl ⟨rfl, hd⟩⟩

/-- A batch that came in is in front of what is still delivered. -/
theorem faces_receive {a : Answer P} {reader : ρ} (ht : (c.receive a reader).Tidy)
    (ha : a.Brings c.bounds ps) (hn : ps.length ≤ c.batchSize)
    (hp : ∀ p ∈ ps ++ qs, p.Paired c.bounds)
    (hrest : (ps ≠ [] ∧ ColumnReader.Delivers c.bounds c.request reader qs) ∨
      (ps = [] ∧ qs = [])) : (c.receive a reader).Faces (ps ++ qs) := by
  have hpaired : ∀ p ∈ ps, p.Paired c.bounds := fun p h => hp p (List.mem_append_left qs h)
  refine ⟨ht, hp, ps, qs, rfl, pendingLevels_receive ha hpaired hn, pendingValues_receive ha hn, ?_⟩
  rcases hrest with ⟨hne, hd⟩ | ⟨rfl, hnil⟩
  · have h0 : a.levelsRead ≠ 0 := by
      rw [ha.levelsRead]
      exact Nat.ne_of_gt (List.length_pos_of_ne_nil hne)
    exact .inl ⟨decide_eq_false h0, hd⟩
  · exact .inr ⟨decide_eq_true ha.levelsRead, hnil⟩

/-- **Batches come in behind each other**: asking for one leaves the cursor where it is. -/
theorem Faces.ready {more : Bool} (hc : c.Faces ps) (h : c.ready = (.ok more, c')) :
    c'.Faces ps ∧ (more = false → ps = []) := by
  have ht := (hc.tidy.ready h).1
  by_cases hi : c.levelIndex = c.levelsRead
  · obtain ⟨here, rest, rfl, hl, -, hrest⟩ := hc.split
    rw [pendingLevels_eq_nil_iff.2 (by omega)] at hl
    obtain rfl := List.map_eq_nil_iff.1 hl.symm
    rw [ready_of_eq hi] at h
    rcases refill_ok h with ⟨he, rfl, rfl⟩ | ⟨he, -, a, reader, ha, -, -, rfl, rfl⟩
    · rcases hrest with ⟨hf, -⟩ | ⟨-, rfl⟩
      · cases he.symm.trans hf
      · exact ⟨hc, fun _ => rfl⟩
    · rcases hrest with ⟨-, hd⟩ | ⟨hx, -⟩
      · cases hd with
        | done h hbrings =>
          obtain ⟨rfl, rfl⟩ := Outcome.ok_inj (ha.symm.trans h)
          exact ⟨faces_receive ht hbrings (Nat.zero_le _) hc.paired (.inr ⟨rfl, rfl⟩), fun _ => rfl⟩
        | more h hbrings hne hlen hs =>
          obtain ⟨rfl, rfl⟩ := Outcome.ok_inj (ha.symm.trans h)
          have hc' := faces_receive ht hbrings hlen hc.paired (.inl ⟨hne, hs⟩)
          refine ⟨hc', fun hmore => ?_⟩
          have h0 : a.levelsRead = 0 := Decidable.not_not.1 (of_decide_eq_false hmore)
          rw [hbrings.levelsRead] at h0
          exact absurd (List.eq_nil_of_length_eq_zero h0) hne
        | fail h => cases ha.symm.trans h
      · cases he.symm.trans hx
  · unfold Cursor.ready at h
    rw [if_neg hi] at h
    obtain ⟨rfl, rfl⟩ := Outcome.ok_inj h
    exact ⟨hc, fun h => by cases h⟩

/-- At the end of the column there are no positions left. -/
theorem Faces.peek_none (hc : c.Faces ps) (h : c.peek = (.ok none, c')) :
    ps = [] ∧ c'.Faces ps := by
  obtain ⟨hc', hend⟩ := hc.ready (Cursor.peek_none h)
  exact ⟨hend rfl, hc'⟩

/-- The levels at the current position are those of the first position. -/
theorem Faces.peek_some {l : Levels} (hc : c.Faces ps) (h : c.peek = (.ok (some l), c')) :
    ∃ p rest, ps = p :: rest ∧ p.levels = l ∧ c'.Faces ps := by
  obtain ⟨hr, rfl, -⟩ := Cursor.peek_some h
  have hi := (hc.tidy.peek h).2.2 rfl
  have hc' := (hc.ready hr).1
  obtain ⟨here, rest, rfl, hl, -, -⟩ := hc'.split
  rw [pendingLevels_advance hi] at hl
  cases here with
  | nil => cases hl
  | cons p here => exact ⟨p, here ++ rest, rfl, (List.cons.inj hl).1.symm, hc'⟩

/-- Looking at the current position takes none. -/
theorem Faces.peek {x : Option Levels} (hc : c.Faces ps) (h : c.peek = (.ok x, c')) :
    c'.Faces ps := by
  cases x with
  | none => exact (hc.peek_none h).2
  | some l =>
    obtain ⟨-, -, -, -, hc'⟩ := hc.peek_some h
    exact hc'

/-- The position that is taken is the first of those that are left of the current batch. -/
theorem pending_cons_of_next {p : Position P} {here : List (Position P)}
    (hi : c.levelIndex < c.levelsRead) (hpaired : ∀ q ∈ here, q.Paired c.bounds)
    (hl : c.pendingLevels = here.map (·.levels)) (hv : c.pendingValues = here.filterMap (·.value))
    (h : c.next = (.ok (some p), c')) :
    ∃ later, here = p :: later ∧ c'.pendingLevels = later.map (·.levels) ∧
      c'.pendingValues = later.filterMap (·.value) ∧ c'.spent = c.spent := by
  obtain ⟨c₁, hp, hcase⟩ := next_some h
  obtain rfl := eq_of_peek hi hp
  obtain ⟨hlevels, hvalues, hspent⟩ := pending_next hi h
  rw [hlevels] at hl
  cases here with
  | nil => cases hl
  | cons q later =>
    obtain ⟨hq, hls⟩ := List.cons.inj hl
    have hq : p.levels = q.levels := hq
    rw [hvalues, Position.values_cons] at hv
    -- both have a value just if they reach the leaf, and the values come in the same order
    have hsome : p.value.isSome ↔ q.value.isSome := by
      rw [(hpaired q List.mem_cons_self).present_iff, ← hq]
      rcases hcase with ⟨hd, x, -, -, hx, -⟩ | ⟨hd, hx, -⟩
      · simp [hx, hd]
      · simp [hx, hd]
    obtain ⟨rfl, hvs⟩ := Position.eq_of_values hq hsome hv
    exact ⟨later, rfl, hls, hvs, hspent⟩

/-- **The position that is taken is the first one**, with its value. -/
theorem Faces.next {p : Position P} (hc : c.Faces ps) (h : c.next = (.ok (some p), c')) :
    ∃ rest, ps = p :: rest ∧ c'.Faces rest := by
  obtain ⟨c₁, hp, -⟩ := next_some h
  have hi := (hc.tidy.peek hp).2.2 rfl
  have hc₁ := hc.peek hp
  rw [next_of_peek hp] at h
  obtain ⟨here, rest, rfl, hl, hv, hrest⟩ := hc₁.split
  have hhere : ∀ q ∈ here, q.Paired c₁.bounds :=
    fun q hq => hc₁.paired q (List.mem_append_left rest hq)
  obtain ⟨later, rfl, hls, hvs, hspent⟩ := pending_cons_of_next hi hhere hl hv h
  have hbounds : c'.bounds = c₁.bounds := bounds_next h
  have hreader : c'.reader = c₁.reader := congrArg (·.reader) hspent
  have hexhausted : c'.exhausted = c₁.exhausted := congrArg (·.exhausted) hspent
  have hrequest : c'.request = c₁.request := congrArg (·.request) hspent
  refine ⟨later ++ rest, rfl, (hc₁.tidy.next h).1, ?_, later, rest, rfl, hls, hvs, ?_⟩
  · rw [hbounds]
    exact fun q hq => hc₁.paired q (List.mem_cons_of_mem _ hq)
  · rw [hbounds, hreader, hexhausted, hrequest]
    exact hrest

section Items

variable {read : Cursor ρ P → Outcome (Cursor ρ P) (Nested α)}
  {spells : List (Position P) → Nested α → List (Position P) → Prop} {level : Level}
  {items : List (Nested α)}
  (hread : ∀ (c : Cursor ρ P) v c' ps, c.bounds = b → c.Faces ps → read c = (.ok v, c') →
    c'.bounds = b ∧ c'.left < c.left ∧ ∃ rest, spells ps v rest ∧ c'.Faces rest)

include hread

/-- The further items of a list are those that are spelled, up to the end of the list. -/
theorem readItems_spells {count : Nat} (hb : c.bounds = b) (hc : c.Faces ps)
    (hn : c.left < count) (h : readItems read level count c = (.ok items, c')) :
    ∃ rest, Position.SpellItems spells level ps items rest ∧
      (∀ p ∈ rest.head?, p.levels.repetition < level) ∧ c'.Faces rest := by
  induction count generalizing c ps items with
  | zero => cases hn
  | succ count ih =>
    rw [readItems] at h
    split at h
    · cases h
    · rename_i c₁ hp
      obtain ⟨rfl, rfl⟩ := Outcome.ok_inj h
      obtain ⟨rfl, hc₁⟩ := hc.peek_none hp
      exact ⟨[], .nil [], fun p hp => absurd hp (Option.not_mem_none p), hc₁⟩
    · rename_i next c₁ hp
      obtain ⟨p, qs, rfl, rfl, hc₁⟩ := hc.peek_some hp
      split at h
      · rename_i hlt
        obtain ⟨rfl, rfl⟩ := Outcome.ok_inj h
        refine ⟨p :: qs, .nil _, fun q hq => ?_, hc₁⟩
        obtain rfl := Option.some.inj hq
        exact hlt
      · rename_i hlt
        split at h
        · cases h
        · rename_i hgt
          have hl : p.levels.repetition = level :=
            Int16.le_antisymm (Int16.not_lt.1 hgt) (Int16.not_lt.1 hlt)
          split at h
          · cases h
          · rename_i item c₂ hi
            obtain ⟨others, hothers, rfl⟩ := Outcome.map_eq_ok_iff.1 h
            -- an item takes a position at least, so there are reads left for those behind it
            have hleft := (hc.tidy.peek hp).2.1
            obtain ⟨hb₂, hless, behind, hitem, hc₂⟩ :=
              hread c₁ item c₂ _ ((bounds_peek hp).trans hb) hc₁ hi
            obtain ⟨rest, hitems, hend, hc'⟩ := ih hb₂ hc₂ (by omega) hothers
            exact ⟨rest, .cons hl hitem hitems, hend, hc'⟩

/-- So are all items of a list that is not empty. -/
theorem readList_spells (hb : c.bounds = b) (hc : c.Faces ps)
    (h : c.readList read level = (.ok items, c')) :
    ∃ item others behind rest, items = item :: others ∧ spells ps item behind ∧
      Position.SpellItems spells level behind others rest ∧
      (∀ p ∈ rest.head?, p.levels.repetition < level) ∧ c'.Faces rest := by
  unfold readList at h
  split at h
  · cases h
  · rename_i item c₁ hi
    obtain ⟨others, hothers, rfl⟩ := Outcome.map_eq_ok_iff.1 h
    obtain ⟨hb₁, -, behind, hitem, hc₁⟩ := hread c item c₁ ps hb hc hi
    obtain ⟨rest, hitems, hend, hc'⟩ := readItems_spells hread hb₁ hc₁ (Nat.lt_succ_self _) hothers
    exact ⟨item, others, behind, rest, rfl, hitem, hitems, hend, hc'⟩

end Items

end Cursor

namespace Node

open Cursor

variable {t : LeafType} [ColumnReader ρ t.Physical] {c c₁ c₂ c' : Cursor ρ t.Physical}
  {ps : List (Position t.Physical)} {l : Levels} {v : Nested t.Value} {node : Node} {d r : Int}

/-- The leaf value that is taken is the one in front. -/
theorem faces_present {x : t.Physical} (hb : c.bounds = b) (hc : c.Faces ps)
    (hp : c.peek = (.ok (some l), c₁)) (hd : l.definition = b.definition)
    (hv : c₁.takeValue l = (.ok x, c₂)) :
    ∃ rest, ps = ⟨⟨b.definition, l.repetition⟩, some x⟩ :: rest ∧ c₂.advance.Faces rest := by
  have hn := next_of_value hp (by rw [hd, bounds_peek hp, hb]) hv
  rw [← hd]
  exact hc.next hn

/-- What stops short of the leaf passes the position in front. -/
theorem faces_absent {n : Level} (hb : c.bounds = b) (hc : c.Faces ps)
    (hp : c.peek = (.ok (some l), c₁)) (hd : l.definition = n)
    (hlt : n.toInt < b.definition.toInt) :
    ∃ rest, ps = ⟨⟨n, l.repetition⟩, none⟩ :: rest ∧ c₁.advance.Faces rest := by
  have hne : l.definition ≠ c₁.bounds.definition := by
    rw [bounds_peek hp, hb, hd]
    intro h
    rw [h] at hlt
    omega
  rw [← hd]
  exact hc.next (next_of_absent hp hne)

/-- A value takes a position at least. -/
theorem Leveled.left_of_assemble (hn : node.Leveled b d r) (hb : c.bounds = b) (hc : c.Tidy)
    (h : node.assemble t c = (.ok v, c')) : c'.bounds = b ∧ c'.left < c.left := by
  have hreads : c.Reads (node.shred t "") v c' := hn.shred_of_assemble hb h
  obtain ⟨l, c₁, ps, -, hs, hsteps⟩ := hreads
  have hpos := List.length_pos_of_ne_nil (hn.run hs).ne_nil
  have hleft := (hsteps.tidy hc).2
  exact ⟨hsteps.bounds.trans hb, by omega⟩

theorem spells_list {m : Node} {null : Option Level} {empty level : Level}
    {items : List (Nested t.Value)} (hm : m.Leveled b d r) (hb : c.bounds = b) (hc : c.Faces ps)
    (hp : c.peek = (.ok (some l), c₁)) (hnull : some l.definition ≠ null)
    (hempty : l.definition ≠ empty)
    (ih : ∀ (c : Cursor ρ t.Physical) v c' ps, c.bounds = b → c.Faces ps →
      m.assemble t c = (.ok v, c') → ∃ rest, m.Spells t ps v rest ∧ c'.Faces rest)
    (h : c₁.readList (m.assemble t) level = (.ok items, c')) :
    ∃ rest, (list null empty level m).Spells t ps (.list items) rest ∧ c'.Faces rest := by
  obtain ⟨p, qs, rfl, rfl, hc₁⟩ := hc.peek_some hp
  have hread : ∀ (c : Cursor ρ t.Physical) v c' ps, c.bounds = b → c.Faces ps →
      m.assemble t c = (.ok v, c') →
      c'.bounds = b ∧ c'.left < c.left ∧ ∃ rest, m.Spells t ps v rest ∧ c'.Faces rest := by
    intro c v c' ps hb hc h
    obtain ⟨hb', hleft⟩ := hm.left_of_assemble hb hc.tidy h
    exact ⟨hb', hleft, ih c v c' ps hb hc h⟩
  obtain ⟨item, others, behind, rest, rfl, hitem, hothers, hend, hc'⟩ :=
    readList_spells hread ((bounds_peek hp).trans hb) hc₁ h
  refine ⟨rest, .inr (.inr ⟨fun q hq => ?_, item, others, behind, hitem, hothers, hend, rfl⟩), hc'⟩
  obtain rfl := Option.some.inj hq
  exact ⟨hnull, hempty⟩

/-- **What is assembled is what the positions spell**, and the cursor stops behind it. -/
theorem Leveled.spells_of_assemble (hn : node.Leveled b d r) (hb : c.bounds = b)
    (hc : c.Faces ps) (h : node.assemble t c = (.ok v, c')) :
    ∃ rest, node.Spells t ps v rest ∧ c'.Faces rest := by
  -- each node looks at the first position, and only the one that stops there takes it
  induction hn generalizing c v c' ps with
  | requiredLeaf hv hd hr =>
    subst hd
    obtain ⟨l, c₁, hp, hm, ⟨-, x, c₂, htake, rfl, rfl⟩ | ⟨hlt, -, -⟩⟩ := assemble_leaf.1 h
    · have hle := definition_le_of_peek hp hb
      have heq := Int16.le_antisymm (Int16.le_iff_toInt_le.2 hle) hm
      obtain ⟨rest, rfl, hc'⟩ := faces_present hb hc hp heq htake
      exact ⟨rest, .inl ⟨_, x, rfl, rfl⟩, hc'⟩
    · exact absurd hlt (Int16.not_lt.2 hm)
  | @optionalLeaf n _ _ _ hn hv hd hr =>
    subst hd
    obtain ⟨l, c₁, hp, hm, ⟨hle, x, c₂, htake, rfl, rfl⟩ | ⟨hlt, rfl, rfl⟩⟩ := assemble_leaf.1 h
    · have hge := definition_le_of_peek hp hb
      have heq := Int16.le_antisymm (Int16.le_iff_toInt_le.2 hge) hle
      obtain ⟨rest, rfl, hc'⟩ := faces_present hb hc hp heq htake
      exact ⟨rest, .inl ⟨_, x, rfl, rfl⟩, hc'⟩
    · have hm := Int16.le_iff_toInt_le.1 hm
      have hlt := Int16.lt_iff_toInt_lt.1 hlt
      rw [Option.getD_some] at hm
      have heq : l.definition = n := Int16.toInt.inj (by omega)
      obtain ⟨rest, rfl, hc'⟩ := faces_absent hb hc hp heq (by omega)
      exact ⟨rest, .inr ⟨_, n, rfl, rfl, rfl⟩, hc'⟩
  | requiredStruct _ ih =>
    obtain ⟨l, c₁, u, hp, -, hu, rfl⟩ := assemble_requiredStruct.1 h
    obtain ⟨p, qs, rfl, -, hc₁⟩ := hc.peek_some hp
    obtain ⟨rest, hspells, hc'⟩ := ih ((bounds_peek hp).trans hb) hc₁ hu
    exact ⟨rest, ⟨u, hspells, rfl⟩, hc'⟩
  | optionalStruct hn hm ih =>
    have hle := hm.definition_le
    obtain ⟨l, c₁, hp, -, ⟨heq, rfl, rfl⟩ | ⟨hne, u, hu, rfl⟩⟩ := assemble_optionalStruct.1 h
    · obtain ⟨rest, rfl, hc'⟩ := faces_absent hb hc hp heq (by omega)
      exact ⟨rest, .inl ⟨_, rfl, rfl⟩, hc'⟩
    · obtain ⟨p, qs, rfl, rfl, hc₁⟩ := hc.peek_some hp
      obtain ⟨rest, hspells, hc'⟩ := ih ((bounds_peek hp).trans hb) hc₁ hu
      refine ⟨rest, .inr ⟨fun q hq => ?_, u, hspells, rfl⟩, hc'⟩
      obtain rfl := Option.some.inj hq
      exact hne
  | requiredList he hl hm ih =>
    have hle := hm.definition_le
    obtain ⟨l, c₁, hp, -, ⟨heq, -⟩ | ⟨hnull, heq, rfl, rfl⟩ | ⟨hnull, hempty, items, hi, rfl⟩⟩ :=
      assemble_list.1 h
    · cases heq
    · obtain ⟨rest, rfl, hc'⟩ := faces_absent hb hc hp heq (by omega)
      exact ⟨rest, .inr (.inl ⟨heq ▸ hnull, _, rfl, rfl⟩), hc'⟩
    · exact spells_list hm hb hc hp hnull hempty (fun _ _ _ _ => ih) hi
  | @optionalList n _ _ _ _ _ hn he hl hm ih =>
    have hle := hm.definition_le
    obtain ⟨l, c₁, hp, -, ⟨heq, rfl, rfl⟩ | ⟨hnull, heq, rfl, rfl⟩ |
      ⟨hnull, hempty, items, hi, rfl⟩⟩ := assemble_list.1 h
    · obtain ⟨rest, rfl, hc'⟩ := faces_absent hb hc hp (Option.some.inj heq) (by omega)
      exact ⟨rest, .inl ⟨_, n, rfl, rfl, rfl⟩, hc'⟩
    · obtain ⟨rest, rfl, hc'⟩ := faces_absent hb hc hp heq (by omega)
      exact ⟨rest, .inr (.inl ⟨heq ▸ hnull, _, rfl, rfl⟩), hc'⟩
    · exact spells_list hm hb hc hp hnull hempty (fun _ _ _ _ => ih) hi

end Node

end Striping
