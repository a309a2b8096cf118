import Mathlib
import Striping.Proofs.Grammar
import Striping.Proofs.SharedLevels

/-!
# What definition levels mean

Every node on the way to a leaf has levels of its own, for being null or empty, and the leaf one for
being present. Required groups have none, so a level is not a depth. But a node is reached at the
level that the frames above it add up to, whatever the mix of required and optional frames, and from
there on the nodes use up one level after the other.

* `Node.below?`: the node below some frames. `Node.Counts`: the levels that are due there, counted
  on from what the frames above add.
* `Node.Follows.below?`, `Node.Follows.counts`: **every node counts on from the frames above it**.
* `Meaning`: what is absent, or that nothing is. `Node.levelOf?`: the level that says so.
  `Node.meaningOf`: what is said at a level.
* `Node.Leveled.levelOf?_meaningOf`, `Node.Leveled.meaningOf_eq`: **these are inverse to each
  other**, from the level that a node is reached at to the greatest one.
* `ColumnShape.levels_meaning`: **every level says one thing**, in every column with a shape.
-/

namespace Striping

variable {b : LevelBounds} {root node element : Node} {frames : List Frame} {s : Shape}
variable {d r : Int} {l : Level} {n : Nat}

theorem Frame.isListLike_of {f : Frame} (h : f.kind = .list ∨ f.kind = .map) :
    f.isListLike = true := by
  rcases h with h | h <;> simp [isListLike, h]

theorem Level.ne_of_lt {k : Level} (h : k.toInt < l.toInt) : l ≠ k := by
  rintro rfl
  omega

namespace Node

/-- The node below the first `n` frames, if one begins there. A struct is one frame; a list is two,
its outer group and the group of its elements. -/
def below? : Node → Nat → Option Node
  | node, 0 => some node
  | requiredStruct member, n + 1 => member.below? n
  | optionalStruct _ member, n + 1 => member.below? n
  | list _ _ _ element, n + 2 => element.below? n
  | leaf _ _, _ + 1 => none
  | list _ _ _ _, 1 => none

/-- Holds of lists. -/
def isList : Node → Bool
  | list _ _ _ _ => true
  | _ => false

/-- The levels of a node with the frame `f` that is reached at definition level `d` below `r` lists,
and the level at which the node inside it is reached. -/
def Counts (f : Frame) (d r : Int) (node : Node) : Prop :=
  node.minimum.toInt = d ∧
    match node with
    | leaf nullLevel valueLevel =>
      f.kind = .primitive ∧
        nullLevel.map Int16.toInt = (if f.repetition = .optional then some d else none) ∧
        valueLevel.toInt = (if f.repetition = .optional then d + 1 else d)
    | requiredStruct member => f = ⟨.required, .group⟩ ∧ member.minimum.toInt = d
    | optionalStruct nullLevel member =>
      f = ⟨.optional, .group⟩ ∧ nullLevel.toInt = d ∧ member.minimum.toInt = d + 1
    | list nullLevel emptyLevel repetitionLevel element =>
      f.isListLike = true ∧
        nullLevel.map Int16.toInt = (if f.repetition = .optional then some d else none) ∧
        emptyLevel.toInt = (if f.repetition = .optional then d + 1 else d) ∧
        element.minimum.toInt = emptyLevel.toInt + 1 ∧ repetitionLevel.toInt = r + 1

/-- A node follows the frames that are left below those above it, and its levels are what those
above have added. -/
theorem Follows.below? {dw rw : Level} (hfollows : root.Follows s frames dw rw)
    (hleveled : root.Leveled b d r) (hbelow : root.below? n = some node) :
    ∃ s' dw' rw', node.Follows s' (frames.drop n) dw' rw' ∧
      node.Leveled b (d + Frame.definitionTotal (frames.take n))
        (r + Frame.repetitionTotal (frames.take n)) := by
  -- each step down is one that both relations take, past one frame or past the two of a list
  fun_induction Node.below? root n generalizing frames s dw rw d r with
  | case1 root =>
    obtain rfl := Option.some.inj hbelow
    exact ⟨s, dw, rw, hfollows, by simpa using hleveled⟩
  | case2 member n ih =>
    cases hfollows with
    | requiredStruct hmember =>
      cases hleveled with
      | requiredStruct hlevels => simpa using ih hmember hlevels hbelow
  | case3 null member n ih =>
    cases hfollows with
    | optionalStruct hmember =>
      cases hleveled with
      | optionalStruct _ hlevels => simpa [Int.add_assoc] using ih hmember hlevels hbelow
  | case4 null empty repetition element n ih =>
    cases hfollows with
    | requiredList _ helement =>
      cases hleveled with
      | requiredList _ _ hlevels => simpa [Int.add_assoc] using ih helement hlevels hbelow
    | optionalList _ helement =>
      cases hleveled with
      | optionalList _ _ _ hlevels =>
        have hinner := ih helement hlevels hbelow
        simpa [← Int.add_assoc] using hinner
  | case5 => cases hbelow
  | case6 => cases hbelow

/-- **A node counts on** from where it is reached, with the first of the frames that it follows. -/
theorem Follows.counts {dw rw : Level} (hfollows : node.Follows s frames dw rw)
    (hleveled : node.Leveled b d r) : ∃ f, frames.head? = some f ∧ node.Counts f d r := by
  have hminimum := hleveled.minimum
  cases hfollows with
  | requiredLeaf =>
    cases hleveled with
    | requiredLeaf hvalue _ _ => exact ⟨_, rfl, hminimum, rfl, rfl, hvalue⟩
  | optionalLeaf =>
    cases hleveled with
    | optionalLeaf hnull hvalue _ _ => exact ⟨_, rfl, hminimum, rfl, congrArg some hnull, hvalue⟩
  | requiredStruct _ =>
    cases hleveled with
    | requiredStruct hmember => exact ⟨_, rfl, hminimum, rfl, hmember.minimum⟩
  | optionalStruct _ =>
    cases hleveled with
    | optionalStruct hnull hmember => exact ⟨_, rfl, hminimum, rfl, hnull, hmember.minimum⟩
  | @requiredList _ _ _ _ _ kind hkind _ =>
    cases hleveled with
    | requiredList hempty hlist helement =>
      have hinner := helement.minimum
      rw [← hempty] at hinner
      have hlike : Frame.isListLike ⟨.required, kind⟩ = true := Frame.isListLike_of hkind
      exact ⟨_, rfl, hminimum, hlike, rfl, hempty, hinner, hlist⟩
  | @optionalList _ _ _ _ _ kind hkind _ =>
    cases hleveled with
    | optionalList hnull hempty hlist helement =>
      have hinner := helement.minimum
      have hstep : d + 2 = d + 1 + 1 := by omega
      rw [hstep, ← hempty] at hinner
      have hlike : Frame.isListLike ⟨.optional, kind⟩ = true := Frame.isListLike_of hkind
      exact ⟨_, rfl, hminimum, hlike, congrArg some hnull, hempty, hinner, hlist⟩

/-- A node without lists is reached at the greatest repetition level. -/
theorem Leveled.repetition_eq (h : node.Leveled b d r)
    (hlists : ∀ k inner, node.below? k = some inner → inner.isList = false) :
    b.repetition.toInt = r := by
  induction h with
  | requiredLeaf _ _ hr => exact hr
  | optionalLeaf _ _ _ hr => exact hr
  | requiredStruct _ ih => exact ih fun k inner hk => hlists (k + 1) inner hk
  | optionalStruct _ _ ih => exact ih fun k inner hk => hlists (k + 1) inner hk
  | requiredList _ _ _ _ => exact absurd (hlists 0 _ rfl) (by simp [isList])
  | optionalList _ _ _ _ _ => exact absurd (hlists 0 _ rfl) (by simp [isList])

/-- The innermost list has the greatest repetition level. -/
theorem Leveled.innermost {null : Option Level} {empty repetition : Level}
    (h : (list null empty repetition element).Leveled b d r)
    (hlists : ∀ k inner, element.below? k = some inner → inner.isList = false) :
    repetition = b.repetition := by
  apply Int16.toInt_inj.1
  cases h with
  | requiredList _ hlist helement => rw [hlist, helement.repetition_eq hlists]
  | optionalList _ _ hlist helement => rw [hlist, helement.repetition_eq hlists]

end Node

/-- What a definition level may say of the way to a leaf. A node is named by the number of frames
above it. -/
inductive Meaning where
  /-- The node is null. -/
  | null (depth : Nat)
  /-- The list is empty. -/
  | empty (depth : Nat)
  /-- Nothing is absent. -/
  | present
deriving DecidableEq, Repr

/-- The meaning as it is seen from `k` frames further up. -/
def Meaning.lift (k : Nat) : Meaning → Meaning
  | null depth => null (depth + k)
  | empty depth => empty (depth + k)
  | present => present

namespace Node

/-- The level at which the node is null, if it may be. -/
def nullLevel? : Node → Option Level
  | leaf nullLevel _ => nullLevel
  | requiredStruct _ => none
  | optionalStruct nullLevel _ => some nullLevel
  | list nullLevel _ _ _ => nullLevel

/-- The level at which the node is empty, if it is a list. -/
def emptyLevel? : Node → Option Level
  | list _ emptyLevel _ _ => some emptyLevel
  | _ => none

/-- The definition level with a meaning, in a column with this root. It is there if a node begins at
that depth and may be null, or is a list. -/
def levelOf? (root : Node) : Meaning → Option Level
  | .null depth => (root.below? depth).bind nullLevel?
  | .empty depth => (root.below? depth).bind emptyLevel?
  | .present => some root.valueLevel

/-- What a definition level says in a column with this root: the first node from the outermost one
inwards that it is a level of. -/
def meaningOf : Node → Level → Meaning
  | leaf nullLevel _, l => if nullLevel = some l then .null 0 else .present
  | requiredStruct member, l => (member.meaningOf l).lift 1
  | optionalStruct nullLevel member, l =>
    if l = nullLevel then .null 0 else (member.meaningOf l).lift 1
  | list nullLevel emptyLevel _ element, l =>
    if nullLevel = some l then .null 0
    else if l = emptyLevel then .empty 0 else (element.meaningOf l).lift 2

section Meanings

variable {x y : Meaning} {member : Node} {null : Option Level} {k value empty repetition : Level}

theorem levelOf?_leaf : (leaf null value).levelOf? x = some l ↔
    (x = .null 0 ∧ null = some l) ∨ (x = .present ∧ l = value) := by
  rcases x with (_ | n) | (_ | n) | _ <;>
    simp [levelOf?, below?, nullLevel?, emptyLevel?, Node.valueLevel, eq_comm]

theorem levelOf?_requiredStruct : (requiredStruct member).levelOf? x = some l ↔
    ∃ y : Meaning, x = y.lift 1 ∧ member.levelOf? y = some l := by
  constructor
  · intro h
    rcases x with (_ | n) | (_ | n) | _
    · cases h
    · exact ⟨.null n, rfl, h⟩
    · cases h
    · exact ⟨.empty n, rfl, h⟩
    · exact ⟨.present, rfl, h⟩
  · rintro ⟨y, rfl, h⟩
    cases y <;> exact h

theorem levelOf?_optionalStruct : (optionalStruct k member).levelOf? x = some l ↔
    (x = .null 0 ∧ l = k) ∨ ∃ y : Meaning, x = y.lift 1 ∧ member.levelOf? y = some l := by
  constructor
  · intro h
    rcases x with (_ | n) | (_ | n) | _
    · exact .inl ⟨rfl, (Option.some.inj h).symm⟩
    · exact .inr ⟨.null n, rfl, h⟩
    · cases h
    · exact .inr ⟨.empty n, rfl, h⟩
    · exact .inr ⟨.present, rfl, h⟩
  · rintro (⟨rfl, rfl⟩ | ⟨y, rfl, h⟩)
    · rfl
    · cases y <;> exact h

theorem levelOf?_list : (list null empty repetition element).levelOf? x = some l ↔
    (x = .null 0 ∧ null = some l) ∨ (x = .empty 0 ∧ l = empty) ∨
      ∃ y : Meaning, x = y.lift 2 ∧ element.levelOf? y = some l := by
  constructor
  · intro h
    rcases x with (_ | _ | n) | (_ | _ | n) | _
    · exact .inl ⟨rfl, h⟩
    · cases h
    · exact .inr (.inr ⟨.null n, rfl, h⟩)
    · exact .inr (.inl ⟨rfl, (Option.some.inj h).symm⟩)
    · cases h
    · exact .inr (.inr ⟨.empty n, rfl, h⟩)
    · exact .inr (.inr ⟨.present, rfl, h⟩)
  · rintro (⟨rfl, rfl⟩ | ⟨rfl, rfl⟩ | ⟨y, rfl, h⟩)
    · rfl
    · rfl
    · cases y <;> exact h

/-- The level with a meaning lies between the one that the node is reached at and the greatest. -/
theorem Leveled.levelOf?_bounds (h : node.Leveled b d r) (hx : node.levelOf? x = some l) :
    d ≤ l.toInt ∧ l.toInt ≤ b.definition.toInt := by
  induction h generalizing x with
  | requiredLeaf hvalue hdefinition _ =>
    rw [← hdefinition]
    rcases levelOf?_leaf.1 hx with ⟨-, hl⟩ | ⟨-, rfl⟩
    · cases hl
    · omega
  | optionalLeaf hnull hvalue hdefinition _ =>
    rw [← hdefinition]
    rcases levelOf?_leaf.1 hx with ⟨-, hl⟩ | ⟨-, rfl⟩
    · obtain rfl := Option.some.inj hl
      omega
    · omega
  | requiredStruct _ ih =>
    obtain ⟨y, -, hy⟩ := levelOf?_requiredStruct.1 hx
    exact ih hy
  | optionalStruct hnull hmember ih =>
    have hinside := hmember.definition_le
    rcases levelOf?_optionalStruct.1 hx with ⟨-, rfl⟩ | ⟨y, -, hy⟩
    · omega
    · have hinner := ih hy
      omega
  | requiredList hempty _ helement ih =>
    have hinside := helement.definition_le
    rcases levelOf?_list.1 hx with ⟨-, hl⟩ | ⟨-, rfl⟩ | ⟨y, -, hy⟩
    · cases hl
    · omega
    · have hinner := ih hy
      omega
  | optionalList hnull hempty _ helement ih =>
    have hinside := helement.definition_le
    rcases levelOf?_list.1 hx with ⟨-, hl⟩ | ⟨-, rfl⟩ | ⟨y, -, hy⟩
    · obtain rfl := Option.some.inj hl
      omega
    · omega
    · have hinner := ih hy
      omega

/-- **Every level says something**, from the one that a node is reached at to the greatest one: it
is the level of what is read from it. -/
theorem Leveled.levelOf?_meaningOf (h : node.Leveled b d r) (hlow : d ≤ l.toInt)
    (hhigh : l.toInt ≤ b.definition.toInt) : node.levelOf? (node.meaningOf l) = some l := by
  induction h with
  | @requiredLeaf value d _ hvalue hdefinition _ =>
    rw [← hdefinition] at hhigh
    have hl : l = value := Int16.toInt_inj.1 (by omega)
    simp [levelOf?_leaf, meaningOf, hl]
  | @optionalLeaf null value d _ hnull hvalue hdefinition _ =>
    rw [← hdefinition] at hhigh
    by_cases hd : null = l
    · simp [levelOf?_leaf, meaningOf, hd]
    · have hne : l.toInt ≠ d := fun h => hd (Int16.toInt_inj.1 (hnull.trans h.symm))
      obtain rfl : l = value := Int16.toInt_inj.1 (by omega)
      simp [levelOf?_leaf, meaningOf, hd]
  | requiredStruct _ ih => exact levelOf?_requiredStruct.2 ⟨_, rfl, ih hlow⟩
  | @optionalStruct null member d _ hnull _ ih =>
    by_cases hd : l = null
    · simp [levelOf?_optionalStruct, meaningOf, hd]
    · have hne : l.toInt ≠ d := fun h => hd (Int16.toInt_inj.1 (h.trans hnull.symm))
      have hinner := ih (by omega)
      exact levelOf?_optionalStruct.2 (.inr ⟨member.meaningOf l, by simp [meaningOf, hd], hinner⟩)
  | @requiredList empty _ element d _ hempty _ _ ih =>
    by_cases he : l = empty
    · simp [levelOf?_list, meaningOf, he]
    · have hne : l.toInt ≠ d := fun h => he (Int16.toInt_inj.1 (h.trans hempty.symm))
      have hinner := ih (by omega)
      exact levelOf?_list.2 (.inr (.inr ⟨element.meaningOf l, by simp [meaningOf, he], hinner⟩))
  | @optionalList null empty _ element d _ hnull hempty _ _ ih =>
    by_cases hd : null = l
    · simp [levelOf?_list, meaningOf, hd]
    · have hne : l.toInt ≠ d := fun h => hd (Int16.toInt_inj.1 (hnull.trans h.symm))
      by_cases he : l = empty
      · subst he
        simp [levelOf?_list, meaningOf, hd]
      · have hne' : l.toInt ≠ d + 1 := fun h => he (Int16.toInt_inj.1 (h.trans hempty.symm))
        have hinner := ih (by omega)
        exact levelOf?_list.2
          (.inr (.inr ⟨element.meaningOf l, by simp [meaningOf, hd, he], hinner⟩))

/-- **No level says two things**: what it is the level of is what is read from it. -/
theorem Leveled.meaningOf_eq (h : node.Leveled b d r) (hx : node.levelOf? x = some l) :
    node.meaningOf l = x := by
  -- further in all levels are greater, so that none of them is taken for one of the node itself
  induction h generalizing x with
  | requiredLeaf _ _ _ =>
    rcases levelOf?_leaf.1 hx with ⟨-, hl⟩ | ⟨rfl, -⟩
    · cases hl
    · simp [meaningOf]
  | @optionalLeaf null value _ _ hnull hvalue _ _ =>
    rcases levelOf?_leaf.1 hx with ⟨rfl, hl⟩ | ⟨rfl, rfl⟩
    · simp [meaningOf, hl]
    · have hne : l ≠ null := Level.ne_of_lt (by omega)
      simp [meaningOf, hne.symm]
  | requiredStruct _ ih =>
    obtain ⟨y, rfl, hy⟩ := levelOf?_requiredStruct.1 hx
    simp [meaningOf, ih hy]
  | @optionalStruct null _ _ _ hnull hmember ih =>
    rcases levelOf?_optionalStruct.1 hx with ⟨rfl, hl⟩ | ⟨y, rfl, hy⟩
    · simp [meaningOf, hl]
    · have hlow := (hmember.levelOf?_bounds hy).1
      have hne : l ≠ null := Level.ne_of_lt (by omega)
      simp [meaningOf, hne, ih hy]
  | @requiredList empty _ _ _ _ hempty _ helement ih =>
    rcases levelOf?_list.1 hx with ⟨-, hl⟩ | ⟨rfl, hl⟩ | ⟨y, rfl, hy⟩
    · cases hl
    · simp [meaningOf, hl]
    · have hlow := (helement.levelOf?_bounds hy).1
      have hne : l ≠ empty := Level.ne_of_lt (by omega)
      simp [meaningOf, hne, ih hy]
  | @optionalList null empty _ _ _ _ hnull hempty _ helement ih =>
    rcases levelOf?_list.1 hx with ⟨rfl, hl⟩ | ⟨rfl, rfl⟩ | ⟨y, rfl, hy⟩
    · simp [meaningOf, hl]
    · have hne : l ≠ null := Level.ne_of_lt (by omega)
      simp [meaningOf, hne.symm]
    · have hlow := (helement.levelOf?_bounds hy).1
      have hne : l ≠ null := Level.ne_of_lt (by omega)
      have hne' : l ≠ empty := Level.ne_of_lt (by omega)
      simp [meaningOf, hne.symm, hne', ih hy]

end Meanings

end Node

/-- **Every definition level of a column says one thing.** A node below any frames is reached at the
definition and repetition level that these frames add up to. An optional struct is null at that
level, and its member begins one level above. An optional list is null at that level and empty one
level above, a required list is empty at that level; the items begin one level above the empty list,
one list further in. The leaf is present at the greatest definition level, and the innermost list
has the greatest repetition level. So whatever may be null or empty has a level of its own, and each
level from 0 to the greatest one says of just one node that it is null or that it is empty, or says
that the leaf is present. -/
theorem ColumnShape.levels_meaning {column : Column} {shape : Shape} {s : ColumnShape}
    (hmake : make column shape = .ok s) :
    (∀ n node, s.root.below? n = some node → ∃ f, column.frames[n]? = some f ∧
        node.Counts f (Frame.definitionTotal (column.frames.take n))
          (Frame.repetitionTotal (column.frames.take n))) ∧
      (∀ n nullLevel valueLevel, s.root.below? n = some (.leaf nullLevel valueLevel) →
        valueLevel = column.bounds.definition) ∧
      (∀ n nullLevel emptyLevel repetitionLevel element,
        s.root.below? n = some (.list nullLevel emptyLevel repetitionLevel element) →
        (∀ k inner, element.below? k = some inner → inner.isList = false) →
        repetitionLevel = column.bounds.repetition) ∧
      (∀ x y l k, s.root.levelOf? x = some l → s.root.levelOf? y = some k → x ≠ y → l ≠ k) ∧
      (∀ l : Level, 0 ≤ l ∧ l ≤ column.bounds.definition ↔ ∃! x, s.root.levelOf? x = some l) ∧
      s.root.levelOf? .present = some column.bounds.definition := by
  obtain ⟨rfl, rfl⟩ := parts_of_make hmake
  have hfollows := Node.follows_of_build s.root_eq
  have hleveled := s.leveled
  refine ⟨?_, ?_, ?_, ?_, ?_, congrArg some hleveled.valueLevel⟩
  · intro n node hbelow
    obtain ⟨s', dw', rw', hnode, hlevels⟩ := hfollows.below? hleveled hbelow
    obtain ⟨f, hf, hcounts⟩ := hnode.counts hlevels
    rw [List.head?_drop] at hf
    rw [Int.zero_add, Int.zero_add] at hcounts
    exact ⟨f, hf, hcounts⟩
  · intro n nullLevel valueLevel hbelow
    obtain ⟨-, -, -, -, hlevels⟩ := hfollows.below? hleveled hbelow
    exact hlevels.valueLevel
  · intro n nullLevel emptyLevel repetitionLevel element hbelow hinnermost
    obtain ⟨-, -, -, -, hlevels⟩ := hfollows.below? hleveled hbelow
    exact hlevels.innermost hinnermost
  · -- what is read from a level is all that it is the level of
    intro x y l k hx hy hxy hlk
    subst hlk
    exact hxy ((hleveled.meaningOf_eq hx).symm.trans (hleveled.meaningOf_eq hy))
  · intro l
    rw [Int16.le_iff_toInt_le, Int16.le_iff_toInt_le, Int16.toInt_zero]
    constructor
    · rintro ⟨hlow, hhigh⟩
      refine ⟨s.root.meaningOf l, hleveled.levelOf?_meaningOf hlow hhigh, ?_⟩
      intro x hx
      exact (hleveled.meaningOf_eq hx).symm
    · rintro ⟨x, hx, -⟩
      exact hleveled.levelOf?_bounds hx

/-- The column of an optional list of required structs with an optional struct inside, which has a
required map to optional numbers. -/
def ColumnShape.orders : ColumnShape where
  column :=
    { path := ⟨["orders"]⟩
      frames := [⟨.optional, .list⟩, .repeatedGroup, ⟨.required, .group⟩, ⟨.optional, .group⟩,
        ⟨.required, .map⟩, .repeatedGroup, ⟨.optional, .primitive⟩]
      physicalType := .int32
      bounds := ⟨5, 2⟩
      bounds_eq := rfl }
  shape := .list (.struct (.struct (.list .scalar)))
  root := .list (some 0) 1 1 (.requiredStruct (.optionalStruct 2 (.list none 3 2
    (.leaf (some 4) 5))))
  root_eq := rfl

/-- The map lies below 4 frames, of which 3 are optional or repeated and 1 is repeated. -/
theorem ColumnShape.levels_meaning_orders :
    make orders.column orders.shape = .ok orders ∧
      orders.root.below? 4 = some (.list none 3 2 (.leaf (some 4) 5)) ∧
      (Node.list none 3 2 (.leaf (some 4) 5)).Counts ⟨.required, .map⟩ 3 1 ∧
      orders.column.bounds.repetition = 2 ∧
      orders.root.levelOf? (.empty 4) = some 3 ∧ ∃! x, orders.root.levelOf? x = some 3 := by
  have hmake : make orders.column orders.shape = .ok orders := rfl
  have hmap : orders.root.below? 4 = some (.list none 3 2 (.leaf (some 4) 5)) := rfl
  obtain ⟨hnodes, -, hlists, -, hlevels, -⟩ := levels_meaning hmake
  obtain ⟨f, hf, hcounts⟩ := hnodes 4 _ hmap
  obtain rfl := Option.some.inj hf
  refine ⟨hmake, hmap, hcounts, ?_, rfl, (hlevels 3).1 (by decide)⟩
  refine (hlists 4 _ _ _ _ hmap fun k inner hk => ?_).symm
  cases k with
  | zero =>
    obtain rfl := Option.some.inj hk
    rfl
  | succ k => cases hk

/-- No level is left for the required struct below 2 frames, and just one for the required map. -/
example : [0, 1, 2, 3, 4, 5].map ColumnShape.orders.root.meaningOf =
    [.null 0, .empty 0, .null 3, .empty 4, .null 6, .present] := by decide

end Striping
