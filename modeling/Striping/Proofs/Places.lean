import Striping.Proofs.Positions

/-!
# The places of a value

A value ends at its leaf values, and at every absence that has nothing absent around it. Where
these places lie says all about the levels of its positions.

* `Place`: how many frames are there, and the indices in the lists around.
* `Nested.HasPlace`, `Nested.places`: the places of a value. The list has all of them, each once,
  in the order of their indices (`Nested.mem_places_iff`, `Nested.pairwise_places`).
* `Nested.Conforms`: the values that a column may hold. They are those that have positions
  (`Node.Follows.conforms_iff`).
* `Place.levels`: the levels that are due at places one after the other.
* `Node.Follows.levels_shred`, `ColumnShape.shred_places`: **the positions of a value are its
  places**, with the levels that are due there.
-/

namespace Striping

variable {α : Type}

/-- A place where a value ends. -/
structure Place (α : Type) where
  /-- How many frames of the column are there, from the outermost one inwards. -/
  depth : Nat
  /-- The indices in the lists around the place, outermost first. -/
  indices : List Nat
  /-- The leaf value, if the place is one. -/
  leaf : Option α
deriving DecidableEq

namespace Place

/-- The place as it is seen from the struct around it. -/
def inStruct (p : Place α) : Place α := { p with depth := p.depth + 1 }

/-- The place as it is seen from the list around it, where it lies in the item at an index. The
list and the group of its items are one frame each. -/
def inItem (i : Nat) (p : Place α) : Place α := ⟨p.depth + 2, i :: p.indices, p.leaf⟩

end Place

namespace Nested

/-- A value ends at a place: at a leaf value, at a null, or at an empty list. -/
inductive HasPlace : Nested α → Place α → Prop where
  | null : HasPlace null ⟨0, [], none⟩
  | scalar (a : α) : HasPlace (scalar a) ⟨1, [], some a⟩
  | empty : HasPlace (list []) ⟨1, [], none⟩
  | struct {v : Nested α} {p : Place α} (h : HasPlace v p) : HasPlace (struct v) p.inStruct
  | item {items : List (Nested α)} {i : Nat} {v : Nested α} {p : Place α}
      (hi : items[i]? = some v) (h : HasPlace v p) : HasPlace (list items) (p.inItem i)

mutual

/-- The places of a value, in the order in which they are met. -/
def places : Nested α → List (Place α)
  | null => [⟨0, [], none⟩]
  | scalar a => [⟨1, [], some a⟩]
  | struct member => member.places.map Place.inStruct
  | list items => if items.isEmpty then [⟨1, [], none⟩] else itemPlaces 0 items

/-- The places of the items of a list from an index on. -/
def itemPlaces : Nat → List (Nested α) → List (Place α)
  | _, [] => []
  | i, item :: rest => item.places.map (Place.inItem i) ++ itemPlaces (i + 1) rest

end

mutual

/-- The leaf values of a value, in the order in which they are met. -/
def scalars : Nested α → List α
  | null => []
  | scalar a => [a]
  | struct member => member.scalars
  | list items => allScalars items

/-- The leaf values of several values. -/
def allScalars : List (Nested α) → List α
  | [] => []
  | item :: rest => item.scalars ++ allScalars rest

end

theorem places_list_cons (item : Nested α) (rest : List (Nested α)) :
    (list (item :: rest)).places = itemPlaces 0 (item :: rest) := rfl

mutual

/-- **The places of a value are those it ends at.** -/
theorem mem_places_iff : (v : Nested α) → ∀ p, p ∈ v.places ↔ v.HasPlace p
  | null => by
    intro p
    rw [places, List.mem_singleton]
    constructor
    · rintro rfl; exact .null
    · rintro ⟨⟩; rfl
  | scalar a => by
    intro p
    rw [places, List.mem_singleton]
    constructor
    · rintro rfl; exact .scalar a
    · rintro ⟨⟩; rfl
  | struct member => by
    intro p
    rw [places, List.mem_map]
    constructor
    · rintro ⟨q, hq, rfl⟩
      exact .struct ((mem_places_iff member q).1 hq)
    · rintro ⟨⟩
      rename_i q hq
      exact ⟨q, (mem_places_iff member q).2 hq, rfl⟩
  | list [] => by
    intro p
    rw [places, List.isEmpty_nil, if_pos rfl, List.mem_singleton]
    constructor
    · rintro rfl; exact .empty
    · rintro (_ | _ | _ | _ | hi)
      · rfl
      · cases hi
  | list (item :: rest) => by
    intro p
    rw [places_list_cons, mem_itemPlaces_iff (item :: rest)]
    constructor
    · rintro ⟨i, v, q, hi, hq, rfl⟩
      rw [Nat.zero_add]
      exact .item hi hq
    · rintro (_ | _ | _ | _ | ⟨hi, hq⟩)
      rename_i i v q
      exact ⟨i, v, q, hi, hq, by rw [Nat.zero_add]⟩

theorem mem_itemPlaces_iff : (items : List (Nested α)) → ∀ n p, p ∈ itemPlaces n items ↔
    ∃ i v, ∃ q : Place α, items[i]? = some v ∧ HasPlace v q ∧ p = q.inItem (n + i)
  | [] => by
    intro n p
    constructor
    · intro h; cases h
    · rintro ⟨i, v, q, hi, -⟩; cases hi
  | item :: rest => by
    intro n p
    rw [itemPlaces, List.mem_append, List.mem_map, mem_itemPlaces_iff rest]
    constructor
    · rintro (⟨q, hq, rfl⟩ | ⟨i, v, q, hi, hq, rfl⟩)
      · exact ⟨0, item, q, rfl, (mem_places_iff item q).1 hq, rfl⟩
      · exact ⟨i + 1, v, q, hi, hq, by rw [Nat.add_right_comm, Nat.add_assoc]⟩
    · rintro ⟨_ | i, v, q, hi, hq, rfl⟩
      · obtain rfl := Option.some.inj hi
        exact .inl ⟨q, (mem_places_iff item q).2 hq, rfl⟩
      · exact .inr ⟨i, v, q, hi, hq, by rw [Nat.add_right_comm, Nat.add_assoc]⟩

end

/-- The places of the items of a list lie in items from the first index on. -/
theorem exists_indices_of_mem_itemPlaces {items : List (Nested α)} {n : Nat} {p : Place α}
    (h : p ∈ itemPlaces n items) : ∃ i path, n ≤ i ∧ p.indices = i :: path := by
  obtain ⟨i, v, q, -, -, rfl⟩ := (mem_itemPlaces_iff items n p).1 h
  exact ⟨n + i, q.indices, Nat.le_add_right n i, rfl⟩

mutual

/-- **The places of a value are in the order of their indices**, so none of them comes twice. -/
theorem pairwise_places : (v : Nested α) → (v.places.map Place.indices).Pairwise (· < ·)
  | null => List.pairwise_singleton _ _
  | scalar _ => List.pairwise_singleton _ _
  | struct member => by
    rw [places, List.map_map]
    exact pairwise_places member
  | list [] => List.pairwise_singleton _ _
  | list (item :: rest) => pairwise_itemPlaces (item :: rest) 0

theorem pairwise_itemPlaces : (items : List (Nested α)) → ∀ n,
    ((itemPlaces n items).map Place.indices).Pairwise (· < ·)
  | [] => fun _ => .nil
  | item :: rest => by
    intro n
    rw [itemPlaces, List.map_append, List.pairwise_append]
    refine ⟨?_, pairwise_itemPlaces rest (n + 1), ?_⟩
    · rw [List.map_map, List.pairwise_map]
      refine (List.pairwise_map.1 (pairwise_places item)).imp ?_
      intro p q hpq
      exact List.cons_lt_cons_iff.2 (.inr ⟨rfl, hpq⟩)
    · -- a place of a later item has a greater index in the list
      intro path hpath path' hpath'
      obtain ⟨p, hp, rfl⟩ := List.mem_map.1 hpath
      obtain ⟨p, -, rfl⟩ := List.mem_map.1 hp
      obtain ⟨q, hq, rfl⟩ := List.mem_map.1 hpath'
      obtain ⟨i, is, hi, hq⟩ := exists_indices_of_mem_itemPlaces hq
      rw [hq]
      exact List.cons_lt_cons_iff.2 (.inl hi)

end

mutual

/-- The leaf values are met at the places. -/
theorem filterMap_leaf : (v : Nested α) → v.places.filterMap (·.leaf) = v.scalars
  | null => rfl
  | scalar _ => rfl
  | struct member => by
    rw [places, List.filterMap_map, scalars]
    exact filterMap_leaf member
  | list [] => rfl
  | list (item :: rest) => by
    rw [places_list_cons, scalars]
    exact filterMap_leaf_items (item :: rest) 0

theorem filterMap_leaf_items : (items : List (Nested α)) → ∀ n,
    (itemPlaces n items).filterMap (·.leaf) = allScalars items
  | [] => fun _ => rfl
  | item :: rest => by
    intro n
    rw [itemPlaces, List.filterMap_append, List.filterMap_map, filterMap_leaf_items rest,
      allScalars]
    congr 1
    exact filterMap_leaf item

end

/-- A value ends somewhere. -/
theorem places_ne_nil : (v : Nested α) → v.places ≠ []
  | null => List.cons_ne_nil _ _
  | scalar _ => List.cons_ne_nil _ _
  | struct member => by
    rw [places, Ne, List.map_eq_nil_iff]
    exact places_ne_nil member
  | list [] => List.cons_ne_nil _ _
  | list (item :: rest) => by
    rw [places_list_cons, itemPlaces, Ne, List.append_eq_nil_iff, List.map_eq_nil_iff]
    exact fun h => places_ne_nil item h.1

end Nested

/-- How many of the frames are optional or repeated. -/
def Frame.definitionCount (frames : List Frame) : Nat :=
  frames.countP (·.repetition != .required)

/-- A frame adds what it steps to the frames that are counted. -/
theorem Frame.countP_cons {counted : Frame → Bool} {f : Frame} {step : Level}
    (h : step.toInt = if counted f then 1 else 0) (frames : List Frame) :
    ((f :: frames).countP counted : Int) = step.toInt + frames.countP counted := by
  rw [List.countP_cons, h, Int.natCast_add, Int.add_comm]
  split <;> rfl

theorem Frame.definitionCount_cons (f : Frame) (frames : List Frame) :
    (Frame.definitionCount (f :: frames) : Int) =
      f.definitionStep.toInt + Frame.definitionCount frames := by
  refine Frame.countP_cons ?_ frames
  rw [f.definitionStep_toInt]
  cases f.repetition <;> rfl

/-- How many indices two paths have in common, from the outermost one inwards. -/
def commonLength : List Nat → List Nat → Nat
  | i :: path, j :: path' => if i = j then commonLength path path' + 1 else 0
  | _, _ => 0

/-- The two levels as whole numbers. -/
def Levels.toInts (l : Levels) : Int × Int := (l.definition.toInt, l.repetition.toInt)

namespace Place

/-- The levels that are due at places one after the other, in a part of a column that is reached
at definition level `d` below `r` lists. The definition level counts the optional and repeated
frames that are there. The first repetition level is given, and every other one is 1 more than
the number of list indices that the place has in common with the one before. -/
def levels (frames : List Frame) (d r : Int) : Int → List (Place α) → List (Int × Int)
  | _, [] => []
  | first, [p] => [(d + Frame.definitionCount (frames.take p.depth), first)]
  | first, p :: q :: rest =>
    (d + Frame.definitionCount (frames.take p.depth), first) ::
      levels frames d r (r + 1 + commonLength p.indices q.indices) (q :: rest)

variable {f g : Frame} {frames : List Frame} {d r first : Int} {ps qs : List (Place α)}

theorem levels_inStruct :
    levels (f :: frames) d r first (ps.map inStruct) =
      levels frames (d + f.definitionStep.toInt) r first ps := by
  induction ps generalizing first with
  | nil => rfl
  | cons p ps ih =>
    have hp : d + (Frame.definitionCount ((f :: frames).take p.inStruct.depth) : Int) =
        d + f.definitionStep.toInt + Frame.definitionCount (frames.take p.depth) := by
      show d + (Frame.definitionCount (f :: frames.take p.depth) : Int) = _
      rw [Frame.definitionCount_cons]
      omega
    cases ps with
    | nil => simp only [List.map_cons, List.map_nil, levels, hp]
    | cons q ps =>
      simp only [List.map_cons, levels, hp] at ih ⊢
      rw [ih]
      rfl

theorem levels_inItem {n : Nat} :
    levels (f :: g :: frames) d r first (ps.map (inItem n)) =
      levels frames (d + f.definitionStep.toInt + g.definitionStep.toInt) (r + 1) first ps := by
  induction ps generalizing first with
  | nil => rfl
  | cons p ps ih =>
    have hp : d + (Frame.definitionCount ((f :: g :: frames).take (p.inItem n).depth) : Int) =
        d + f.definitionStep.toInt + g.definitionStep.toInt +
          Frame.definitionCount (frames.take p.depth) := by
      show d + (Frame.definitionCount (f :: g :: frames.take p.depth) : Int) = _
      rw [Frame.definitionCount_cons, Frame.definitionCount_cons]
      omega
    cases ps with
    | nil => simp only [List.map_cons, List.map_nil, levels, hp]
    | cons q ps =>
      have hq : commonLength (p.inItem n).indices (q.inItem n).indices =
          commonLength p.indices q.indices + 1 := if_pos rfl
      have hr : r + 1 + ((commonLength p.indices q.indices + 1 : Nat) : Int) =
          r + 1 + 1 + commonLength p.indices q.indices := by omega
      simp only [List.map_cons, levels, hp, hq, hr] at ih ⊢
      rw [ih]

/-- Places behind others that they have no index in common with. -/
theorem levels_append (hne : ps ≠ [])
    (h : ∀ p ∈ ps, ∀ q ∈ qs, commonLength p.indices q.indices = 0) :
    levels frames d r first (ps ++ qs) =
      levels frames d r first ps ++ levels frames d r (r + 1) qs := by
  induction ps generalizing first with
  | nil => exact absurd rfl hne
  | cons p ps ih =>
    rw [List.forall_mem_cons] at h
    cases ps with
    | nil =>
      cases qs with
      | nil => rfl
      | cons q qs =>
        have h0 := h.1 q List.mem_cons_self
        simp only [List.cons_append, List.nil_append, levels, h0, Int.natCast_zero, Int.add_zero]
    | cons p' ps =>
      have ih := @ih (r + 1 + commonLength p.indices p'.indices) (List.cons_ne_nil _ _) h.2
      simp only [List.cons_append, levels] at ih ⊢
      rw [ih]

theorem map_fst_levels : (levels frames d r first ps).map Prod.fst =
    ps.map fun p => d + Frame.definitionCount (frames.take p.depth) := by
  induction ps generalizing first with
  | nil => rfl
  | cons p ps ih =>
    cases ps with
    | nil => rfl
    | cons q ps =>
      rw [levels, List.map_cons, ih]
      rfl

theorem map_snd_levels {p : Place α} : (levels frames d r first (p :: ps)).map Prod.snd =
    first :: List.zipWith (fun p q => r + 1 + commonLength p.indices q.indices) (p :: ps) ps := by
  induction ps generalizing first p with
  | nil => rfl
  | cons q ps ih => rw [levels, List.map_cons, ih, List.zipWith_cons_cons]

/-- A place at which nothing is there. -/
theorem levels_outermost {path : List Nat} {leaf : Option α} :
    levels frames d r first [⟨0, path, leaf⟩] = [(d, first)] := by
  show [(d + ((Frame.definitionCount (frames.take 0) : Nat) : Int), first)] = _
  rw [List.take_zero]
  simp [Frame.definitionCount]

/-- A place at which just one frame is there. -/
theorem levels_one {path : List Nat} {leaf : Option α} :
    levels (f :: frames) d r first [⟨1, path, leaf⟩] = [(d + f.definitionStep.toInt, first)] := by
  show [(d + ((Frame.definitionCount (f :: frames.take 0) : Nat) : Int), first)] = _
  rw [Frame.definitionCount_cons, List.take_zero]
  simp [Frame.definitionCount]

/-- **The places of the items of a list** have their levels item by item. -/
theorem levels_itemPlaces {item : Nested α} {rest : List (Nested α)} {n : Nat} :
    levels (f :: g :: frames) d r first (Nested.itemPlaces n (item :: rest)) =
      levels frames (d + f.definitionStep.toInt + g.definitionStep.toInt) (r + 1) first
          item.places ++
        levels (f :: g :: frames) d r (r + 1) (Nested.itemPlaces (n + 1) rest) := by
  have hne : item.places.map (inItem n) ≠ [] := by
    rw [Ne, List.map_eq_nil_iff]
    exact item.places_ne_nil
  rw [Nested.itemPlaces, levels_append hne, levels_inItem]
  -- two items have different indices in the list
  intro p hp q hq
  obtain ⟨p, -, rfl⟩ := List.mem_map.1 hp
  obtain ⟨i, path, hi, hq⟩ := Nested.exists_indices_of_mem_itemPlaces hq
  rw [hq]
  exact if_neg (by omega)

end Place

/-- The values that a column with these frames may hold. -/
inductive Nested.Conforms : List Frame → Nested α → Prop where
  /-- A leaf value. -/
  | scalar {r : Repetition} (a : α) : Conforms [⟨r, .primitive⟩] (scalar a)
  /-- Nothing, where a leaf, a struct or a list is optional. -/
  | null {k : FrameKind} {below : List Frame} : Conforms (⟨.optional, k⟩ :: below) null
  /-- A struct with a member that conforms. -/
  | struct {r : Repetition} {below : List Frame} {v : Nested α} (h : Conforms below v) :
      Conforms (⟨r, .group⟩ :: below) (struct v)
  /-- A list or a map with items that conform. -/
  | list {r : Repetition} {k : FrameKind} {below : List Frame} {items : List (Nested α)}
      (hk : k = .list ∨ k = .map) (h : ∀ v ∈ items, Conforms below v) :
      Conforms (⟨r, k⟩ :: Frame.repeatedGroup :: below) (list items)

section Conforming

variable {r : Repetition} {k : FrameKind} {below : List Frame} {v : Nested α}

theorem Nested.conforms_leaf : v.Conforms [⟨r, .primitive⟩] ↔
    (r = .optional ∧ v = .null) ∨ ∃ a, v = .scalar a := by
  constructor
  · rintro (⟨a⟩ | _ | _ | ⟨hk, -⟩)
    · exact .inr ⟨a, rfl⟩
    · exact .inl ⟨rfl, rfl⟩
  · rintro (⟨rfl, rfl⟩ | ⟨a, rfl⟩)
    · exact .null
    · exact .scalar a

theorem Nested.conforms_struct : v.Conforms (⟨r, .group⟩ :: below) ↔
    (r = .optional ∧ v = .null) ∨ ∃ u, v = .struct u ∧ u.Conforms below := by
  constructor
  · rintro (_ | _ | h | ⟨hk, -⟩)
    · exact .inl ⟨rfl, rfl⟩
    · exact .inr ⟨_, rfl, h⟩
    · rcases hk with hk | hk <;> cases hk
  · rintro (⟨rfl, rfl⟩ | ⟨u, rfl, h⟩)
    · exact .null
    · exact .struct h

theorem Nested.conforms_list (hk : k = .list ∨ k = .map) :
    v.Conforms (⟨r, k⟩ :: Frame.repeatedGroup :: below) ↔
      (r = .optional ∧ v = .null) ∨
        ∃ items, v = .list items ∧ ∀ item ∈ items, item.Conforms below := by
  constructor
  · rintro (_ | _ | _ | ⟨-, h⟩)
    · exact .inl ⟨rfl, rfl⟩
    · rcases hk with hk | hk <;> cases hk
    · exact .inr ⟨_, rfl, h⟩
  · rintro (⟨rfl, rfl⟩ | ⟨items, rfl, h⟩)
    · exact .null
    · exact .list hk h

end Conforming

namespace Node

variable {t : LeafType} {column : String} {node : Node} {b : LevelBounds} {s : Shape}
  {frames : List Frame} {d r k : Level} {v : Nested t.Value} {ps : List (Position t.Physical)}

/-- **The values that conform to the frames of a column are those that pass the check.** -/
theorem Follows.conforms_iff (h : node.Follows s frames d r) :
    v.Conforms frames ↔ node.validate column v = .ok () := by
  induction h generalizing v with
  | requiredLeaf =>
    rw [Nested.conforms_leaf]
    cases v <;> simp [validate, mismatch]
  | optionalLeaf =>
    rw [Nested.conforms_leaf]
    cases v <;> simp [validate, mismatch]
  | requiredStruct _ ih =>
    rw [Nested.conforms_struct]
    cases v <;> simp [validate, mismatch, ih]
  | optionalStruct _ ih =>
    rw [Nested.conforms_struct]
    cases v <;> simp [validate, mismatch, ih]
  | requiredList hk _ ih =>
    rw [Nested.conforms_list hk]
    cases v with
    | list items =>
      rw [validate_list, forM_eq_ok_iff]
      simp [ih]
    | _ => simp [validate, mismatch]
  | optionalList hk _ ih =>
    rw [Nested.conforms_list hk]
    cases v with
    | list items =>
      rw [validate_list, forM_eq_ok_iff]
      simp [ih]
    | _ => simp [validate, mismatch]

/-- The positions of some items have the levels that are due at the places of the items. -/
theorem levels_shredItems {m : Node} {f : Frame} {below : List Frame} {d r : Int} {l : Level}
    (hm : ∀ v k ps, m.shred t column v k = .ok ps →
      ps.map (·.levels.toInts) = Place.levels below
          (d + f.definitionStep.toInt + Frame.repeatedGroup.definitionStep.toInt) (r + 1) k.toInt
          v.places ∧
        ps.map (·.value) = v.places.map fun p => p.leaf.map t.toPhysical)
    (hl : l.toInt = r + 1) {items : List (Nested t.Value)} (n : Nat)
    (h : shredItems (m.shred t column) k l items = .ok ps) :
    ps.map (·.levels.toInts) = Place.levels (f :: Frame.repeatedGroup :: below) d r k.toInt
        (Nested.itemPlaces n items) ∧
      ps.map (·.value) = (Nested.itemPlaces n items).map fun p => p.leaf.map t.toPhysical := by
  induction items generalizing k ps n with
  | nil =>
    obtain rfl := Except.ok.inj h
    exact ⟨rfl, rfl⟩
  | cons item items ih =>
    obtain ⟨qs, rs, hq, hrs, rfl⟩ := shredItems_cons.1 h
    obtain ⟨hql, hqv⟩ := hm item k qs hq
    obtain ⟨hrl, hrv⟩ := ih (n + 1) hrs
    constructor
    · rw [List.map_append, hql, hrl, hl, Place.levels_itemPlaces]
    · rw [List.map_append, hqv, hrv, Nested.itemPlaces, List.map_append, List.map_map]
      rfl

/-- **The positions of a value have the levels that are due at its places**, and the stored forms
of the leaf values that are met there. -/
theorem Follows.levels_shred (h : node.Follows s frames d r)
    (hb : LevelBounds.below? ⟨d, r⟩ frames = some b) (hr : 0 ≤ r.toInt ∧ r.toInt ≤ d.toInt)
    (hv : node.shred t column v k = .ok ps) :
    ps.map (·.levels.toInts) = Place.levels frames d.toInt r.toInt k.toInt v.places ∧
      ps.map (·.value) = v.places.map fun p => p.leaf.map t.toPhysical := by
  induction h generalizing v k ps with
  | requiredLeaf =>
    obtain ⟨a, rfl, rfl⟩ := shred_requiredLeaf.1 hv
    exact ⟨(Place.levels_one.trans (by simp [Levels.toInts])).symm, rfl⟩
  | optionalLeaf =>
    obtain ⟨-, hd⟩ := LevelBounds.below?_optional hb hr
    rcases shred_optionalLeaf.1 hv with ⟨rfl, rfl⟩ | ⟨a, rfl, rfl⟩
    · exact ⟨Place.levels_outermost.symm, rfl⟩
    · exact ⟨(Place.levels_one.trans (by simp [Levels.toInts, hd])).symm, rfl⟩
  | requiredStruct _ ih =>
    obtain ⟨u, rfl, hu⟩ := shred_requiredStruct.1 hv
    obtain ⟨h1, h2⟩ := ih (LevelBounds.below?_required hb hr) hr hu
    rw [h1, h2, Nested.places, Place.levels_inStruct, List.map_map]
    exact ⟨by simp, rfl⟩
  | optionalStruct _ ih =>
    obtain ⟨hb, hd⟩ := LevelBounds.below?_optional hb hr
    rcases shred_optionalStruct.1 hv with ⟨rfl, rfl⟩ | ⟨u, rfl, hu⟩
    · exact ⟨Place.levels_outermost.symm, rfl⟩
    · obtain ⟨h1, h2⟩ := ih hb (by omega) hu
      rw [h1, h2, hd, Nested.places, Place.levels_inStruct, List.map_map]
      exact ⟨rfl, rfl⟩
  | requiredList hk _ ih =>
    obtain ⟨hb, hd, hl⟩ := LevelBounds.below?_repeatedGroup (LevelBounds.below?_required hb hr) hr
    rcases shred_list.1 hv with ⟨n, hn, -⟩ | ⟨rfl, rfl⟩ | ⟨item, rest, rfl, hi⟩
    · cases hn
    · exact ⟨(Place.levels_one.trans (by simp [Levels.toInts])).symm, rfl⟩
    · refine levels_shredItems (fun v k ps h => ?_) hl 0 hi
      have hm := ih hb (by omega) h
      rw [hd, hl] at hm
      simpa using hm
  | optionalList hk _ ih =>
    obtain ⟨hb, he⟩ := LevelBounds.below?_optional hb hr
    obtain ⟨hb, hd, hl⟩ := LevelBounds.below?_repeatedGroup hb (by omega)
    rcases shred_list.1 hv with ⟨n, hn, rfl, rfl⟩ | ⟨rfl, rfl⟩ | ⟨item, rest, rfl, hi⟩
    · obtain rfl := Option.some.inj hn
      exact ⟨Place.levels_outermost.symm, rfl⟩
    · exact ⟨(Place.levels_one.trans (by simp [Levels.toInts, he])).symm, rfl⟩
    · refine levels_shredItems (fun v k ps h => ?_) hl 0 hi
      have hm := ih hb (by omega) h
      rw [hd, hl, he] at hm
      simpa using hm

end Node

/-- Rows that have positions conform to the frames of the column. -/
theorem ColumnShape.conforms_of_shredRows {s : ColumnShape} {t : LeafType} {column : String}
    {rows : List (Nested t.Value)} {ps : List (Position t.Physical)}
    (h : Node.shredRows t column s.root rows = .ok ps) :
    ∀ row ∈ rows, row.Conforms s.column.frames := by
  have hvalid := (Node.shredItems_ok_iff fun _ _ => Node.validate_eq_ok_iff).2 ⟨ps, h⟩
  exact fun row hrow => (Node.follows_of_build s.root_eq).conforms_iff.2 (hvalid row hrow)

/-- **Shredding finds the places of a value.** A value that conforms to the frames of a column has
one position for each place where it ends, in document order. The definition level of a position
counts the optional and repeated frames that are there. Its repetition level is 0 at the beginning
of the row, and else 1 more than the number of list indices that it has in common with the
position before. The leaf values are stored in document order, and exactly the positions at the
greatest definition level have one. -/
theorem ColumnShape.shred_places (s : ColumnShape) (t : LeafType) (v : Nested t.Value)
    (hv : v.Conforms s.column.frames) :
    ∃ ps, s.root.shred t s.column.name v 0 = .ok ps ∧
      (∀ p, p ∈ v.places ↔ v.HasPlace p) ∧
      (v.places.map Place.indices).Pairwise (· < ·) ∧
      ps.map (·.value) = v.places.map (fun p => p.leaf.map t.toPhysical) ∧
      ps.map (·.levels.definition.toInt) =
        v.places.map (fun p => (Frame.definitionCount (s.column.frames.take p.depth) : Int)) ∧
      ps.map (·.levels.repetition.toInt) =
        0 :: List.zipWith (fun p q => (1 + commonLength p.indices q.indices : Int))
          v.places v.places.tail ∧
      ps.filterMap (·.value) = v.scalars.map t.toPhysical ∧
      ∀ p ∈ ps, p.value.isSome ↔ p.levels.definition = s.column.bounds.definition := by
  have hf := Node.follows_of_build s.root_eq
  have hb := LevelBounds.below?_of_ofFrames s.column.bounds_eq
  obtain ⟨ps, hps⟩ := Node.validate_eq_ok_iff.1 (hf.conforms_iff.1 hv)
  obtain ⟨hl, hx⟩ := hf.levels_shred hb (by decide) hps
  refine ⟨ps, hps, v.mem_places_iff, v.pairwise_places, hx, ?_, ?_, ?_, ?_⟩
  · have hd := congrArg (List.map Prod.fst) hl
    rw [List.map_map, Place.map_fst_levels] at hd
    simpa [Function.comp_def, Levels.toInts] using hd
  · have hr := congrArg (List.map Prod.snd) hl
    obtain ⟨p, places, hplaces⟩ := List.exists_cons_of_ne_nil v.places_ne_nil
    rw [hplaces, List.map_map, Place.map_snd_levels] at hr
    rw [hplaces, List.tail_cons]
    simpa [Function.comp_def, Levels.toInts] using hr
  · calc
      ps.filterMap (·.value) = (ps.map (·.value)).filterMap id := by rw [List.filterMap_map]; rfl
      _ = v.places.filterMap (fun p => p.leaf.map t.toPhysical) := by
        rw [hx, List.filterMap_map]; rfl
      _ = v.scalars.map t.toPhysical := by rw [← v.filterMap_leaf, List.map_filterMap]
  · exact (s.leveled.run hps).present_iff

/-- The column of an optional list of required lists of optional numbers. -/
def ColumnShape.table : ColumnShape where
  column :=
    { path := ⟨["table"]⟩
      frames := [⟨.optional, .list⟩, .repeatedGroup, ⟨.required, .list⟩, .repeatedGroup,
        ⟨.optional, .primitive⟩]
      physicalType := .int32
      bounds := ⟨4, 2⟩
      bounds_eq := rfl }
  shape := .list (.list .scalar)
  root := .list (some 0) 1 1 (.list none 2 2 (.leaf (some 3) 4))
  root_eq := rfl

/-- A row with a number and a null, then an empty row, then a number. -/
theorem ColumnShape.shred_places_table :
    let v : Nested Int32 :=
      .list [.list [.scalar 7, .null], .list [], .list [.scalar 8]]
    v.Conforms ColumnShape.table.column.frames ∧
    ∃ ps, ColumnShape.table.root.shred .int32 ColumnShape.table.column.name v 0 = .ok ps ∧
      ps.map (·.levels.definition.toInt) = [4, 3, 2, 4] ∧
      ps.map (·.levels.repetition.toInt) = [0, 2, 1, 1] ∧
      ps.filterMap (·.value) = [(7 : Int32), (8 : Int32)] := by
  intro v
  have hv : v.Conforms ColumnShape.table.column.frames := by
    refine .list (.inl rfl) fun row hrow => ?_
    simp only [List.mem_cons, List.not_mem_nil, or_false] at hrow
    rcases hrow with rfl | rfl | rfl
    · refine .list (.inl rfl) fun cell hcell => ?_
      simp only [List.mem_cons, List.not_mem_nil, or_false] at hcell
      rcases hcell with rfl | rfl
      · exact .scalar 7
      · exact .null
    · exact .list (.inl rfl) fun _ h => absurd h List.not_mem_nil
    · refine .list (.inl rfl) fun cell hcell => ?_
      obtain rfl := List.mem_singleton.1 hcell
      exact .scalar 8
  obtain ⟨ps, hps, -, -, -, hd, hr, hx, -⟩ := ColumnShape.shred_places .table .int32 v hv
  exact ⟨hv, ps, hps, hd, hr, hx⟩

end Striping
