import Mathlib.Tactic.Common
import Striping.Shape.Column

/-!
# The levels of a shape

Levels are 16-bit words, and the bounds of a column say that none of the sums
taken on the way down to its leaf wraps around. So a node can be read with whole
numbers instead: a node reached at definition level `d` below `r` lists is
`Leveled` at `d` and `r`.

* `Node.Leveled`: the levels of a node, its members and elements count up by one
  for each optional or repeated frame.
* `Node.Follows`: the node of a shape along frames that nest; matching a shape against
  frames gives such a node, and finds it whenever there is one (`Node.follows_of_build`,
  `Node.Follows.build`).
* `Node.Follows.leveled`: such a node is leveled.
* `ColumnShape.leveled`: **the node of every column shape is leveled**, from 0
  and 0 down to the bounds of the column.
-/

namespace Striping

variable {b b' : LevelBounds} {f : Frame} {frames : List Frame} {s : Shape}

theorem Level.add?_eq_some {m n k : Level} (h : Level.add? m n = some k) :
    k = m + n ∧ k.toInt = m.toInt + n.toInt := by
  unfold Level.add? at h
  simp only at h
  split at h
  · rename_i hr
    obtain rfl := Option.some.inj h
    refine ⟨rfl, ?_⟩
    rw [Int16.toInt_add]
    exact Int.bmod_eq_of_le (by omega) (by omega)
  · cases h

theorem Frame.definitionStep_toInt (f : Frame) :
    f.definitionStep.toInt = if f.repetition = .required then 0 else 1 := by
  unfold Frame.definitionStep
  cases f.repetition <;> decide

theorem Frame.repetitionStep_toInt (f : Frame) :
    f.repetitionStep.toInt = if f.repetition = .repeated then 1 else 0 := by
  unfold Frame.repetitionStep
  cases f.repetition <;> decide

@[simp] theorem Frame.definitionStep_required {k : FrameKind} :
    Frame.definitionStep ⟨.required, k⟩ = 0 := rfl

@[simp] theorem Frame.definitionStep_optional {k : FrameKind} :
    Frame.definitionStep ⟨.optional, k⟩ = 1 := rfl

@[simp] theorem Frame.repetitionStep_required {k : FrameKind} :
    Frame.repetitionStep ⟨.required, k⟩ = 0 := rfl

@[simp] theorem Frame.repetitionStep_optional {k : FrameKind} :
    Frame.repetitionStep ⟨.optional, k⟩ = 0 := rfl

@[simp] theorem Frame.definitionStep_repeatedGroup : Frame.repeatedGroup.definitionStep = 1 := rfl

@[simp] theorem Frame.repetitionStep_repeatedGroup : Frame.repeatedGroup.repetitionStep = 1 := rfl

theorem Level.toInt_lt (n : Level) : n.toInt < 32768 := by
  have := Int16.toInt_lt n
  omega

/-- A frame adds its steps to both bounds, without wrapping around. -/
theorem LevelBounds.enter?_eq_some (h : b.enter? f = some b')
    (hr : 0 ≤ b.repetition.toInt ∧ b.repetition.toInt ≤ b.definition.toInt) :
    b' = ⟨b.definition + f.definitionStep, b.repetition + f.repetitionStep⟩ ∧
      (b.definition + f.definitionStep).toInt = b.definition.toInt + f.definitionStep.toInt ∧
      (b.repetition + f.repetitionStep).toInt = b.repetition.toInt + f.repetitionStep.toInt := by
  unfold LevelBounds.enter? at h
  cases hd : Level.add? b.definition f.definitionStep with
  | none => rw [hd] at h; cases h
  | some d =>
    rw [hd] at h
    obtain rfl := Option.some.inj h
    obtain ⟨rfl, hd⟩ := Level.add?_eq_some hd
    refine ⟨rfl, hd, ?_⟩
    have hlt := Level.toInt_lt (b.definition + f.definitionStep)
    -- a repeated frame adds to both levels, and the repetition level is never the greater
    have hle : f.repetitionStep.toInt ≤ f.definitionStep.toInt := by
      rw [f.definitionStep_toInt, f.repetitionStep_toInt]; cases f.repetition <;> decide
    have hnn : 0 ≤ f.repetitionStep.toInt := by
      rw [f.repetitionStep_toInt]; cases f.repetition <;> decide
    rw [Int16.toInt_add]
    exact Int.bmod_eq_of_le (by omega) (by omega)

/-- The bounds below some frames, reached at `b`. -/
def LevelBounds.below? (b : LevelBounds) (frames : List Frame) : Option LevelBounds :=
  frames.foldlM LevelBounds.enter? b

theorem LevelBounds.below?_cons {definition repetition : Level}
    (h : LevelBounds.below? ⟨definition, repetition⟩ (f :: frames) = some b)
    (hr : 0 ≤ repetition.toInt ∧ repetition.toInt ≤ definition.toInt) :
    LevelBounds.below? ⟨definition + f.definitionStep, repetition + f.repetitionStep⟩ frames =
        some b ∧
      (definition + f.definitionStep).toInt = definition.toInt + f.definitionStep.toInt ∧
      (repetition + f.repetitionStep).toInt = repetition.toInt + f.repetitionStep.toInt := by
  unfold LevelBounds.below? at h ⊢
  rw [List.foldlM_cons] at h
  cases hc : LevelBounds.enter? ⟨definition, repetition⟩ f with
  | none => rw [hc] at h; cases h
  | some c =>
    rw [hc] at h
    obtain ⟨rfl, hd, hr⟩ := LevelBounds.enter?_eq_some hc hr
    exact ⟨h, hd, hr⟩

theorem LevelBounds.below?_required {k : FrameKind} {d r : Level}
    (h : LevelBounds.below? ⟨d, r⟩ (⟨.required, k⟩ :: frames) = some b)
    (hr : 0 ≤ r.toInt ∧ r.toInt ≤ d.toInt) : LevelBounds.below? ⟨d, r⟩ frames = some b := by
  have h := (below?_cons h hr).1
  rwa [Frame.definitionStep_required, Frame.repetitionStep_required, Int16.add_zero,
    Int16.add_zero] at h

theorem LevelBounds.below?_optional {k : FrameKind} {d r : Level}
    (h : LevelBounds.below? ⟨d, r⟩ (⟨.optional, k⟩ :: frames) = some b)
    (hr : 0 ≤ r.toInt ∧ r.toInt ≤ d.toInt) :
    LevelBounds.below? ⟨d + 1, r⟩ frames = some b ∧ (d + 1).toInt = d.toInt + 1 := by
  obtain ⟨h, hd, -⟩ := below?_cons h hr
  rw [Frame.definitionStep_optional] at h hd
  rw [Frame.repetitionStep_optional, Int16.add_zero] at h
  exact ⟨h, hd⟩

theorem LevelBounds.below?_repeatedGroup {d r : Level}
    (h : LevelBounds.below? ⟨d, r⟩ (Frame.repeatedGroup :: frames) = some b)
    (hr : 0 ≤ r.toInt ∧ r.toInt ≤ d.toInt) :
    LevelBounds.below? ⟨d + 1, r + 1⟩ frames = some b ∧ (d + 1).toInt = d.toInt + 1 ∧
      (r + 1).toInt = r.toInt + 1 := by
  have h := below?_cons h hr
  rwa [Frame.definitionStep_repeatedGroup, Frame.repetitionStep_repeatedGroup] at h

/-- The bounds of a column are those below all its frames. -/
theorem LevelBounds.below?_of_ofFrames (h : LevelBounds.ofFrames frames = .ok b) :
    LevelBounds.below? ⟨0, 0⟩ frames = some b := by
  unfold LevelBounds.ofFrames at h
  unfold LevelBounds.below?
  split at h
  · cases h
  · split at h
    · split at h
      · cases h
      · split at h
        · rename_i hs
          obtain rfl := Except.ok.inj h
          exact hs
        · cases h
    · cases h

namespace Node

/-- The levels of a node that is reached at definition level `d` below `r` lists, in a
column with the bounds `b`. -/
inductive Leveled (b : LevelBounds) : Node → Int → Int → Prop where
  /-- A required leaf is present at the greatest levels. -/
  | requiredLeaf {v : Level} {d r : Int} (hv : v.toInt = d) (hd : v = b.definition)
      (hr : b.repetition.toInt = r) : Leveled b (leaf none v) d r
  /-- An optional leaf is null one level above. -/
  | optionalLeaf {n v : Level} {d r : Int} (hn : n.toInt = d) (hv : v.toInt = d + 1)
      (hd : v = b.definition) (hr : b.repetition.toInt = r) : Leveled b (leaf (some n) v) d r
  /-- A required struct adds no level. -/
  | requiredStruct {m : Node} {d r : Int} (hm : Leveled b m d r) : Leveled b (requiredStruct m) d r
  /-- An optional struct adds a definition level. -/
  | optionalStruct {n : Level} {m : Node} {d r : Int} (hn : n.toInt = d)
      (hm : Leveled b m (d + 1) r) : Leveled b (optionalStruct n m) d r
  /-- The repeated group of a required list adds to both levels. -/
  | requiredList {e l : Level} {m : Node} {d r : Int} (he : e.toInt = d) (hl : l.toInt = r + 1)
      (hm : Leveled b m (d + 1) (r + 1)) : Leveled b (list none e l m) d r
  /-- So does that of an optional list, which adds a definition level of its own. -/
  | optionalList {n e l : Level} {m : Node} {d r : Int} (hn : n.toInt = d)
      (he : e.toInt = d + 1) (hl : l.toInt = r + 1) (hm : Leveled b m (d + 2) (r + 1)) :
      Leveled b (list (some n) e l m) d r

variable {node : Node} {d r : Int}

/-- The least level of a node is the one it is reached at. -/
theorem Leveled.minimum (h : node.Leveled b d r) : node.minimum.toInt = d := by
  induction h with
  | requiredLeaf hv _ _ => exact hv
  | optionalLeaf hn _ _ _ => exact hn
  | requiredStruct _ ih => exact ih
  | optionalStruct hn _ _ => exact hn
  | requiredList he _ _ _ => exact he
  | optionalList hn _ _ _ _ => exact hn

theorem Leveled.definition_le (h : node.Leveled b d r) : d ≤ b.definition.toInt := by
  induction h with
  | requiredLeaf hv hd _ => subst hd; omega
  | optionalLeaf _ hv hd _ => subst hd; omega
  | requiredStruct _ ih => exact ih
  | optionalStruct _ _ ih => omega
  | requiredList _ _ _ ih => omega
  | optionalList _ _ _ _ ih => omega

theorem Leveled.repetition_le (h : node.Leveled b d r) : r ≤ b.repetition.toInt := by
  induction h with
  | requiredLeaf _ _ hr => omega
  | optionalLeaf _ _ _ hr => omega
  | requiredStruct _ ih => exact ih
  | optionalStruct _ _ ih => exact ih
  | requiredList _ _ _ ih => omega
  | optionalList _ _ _ _ ih => omega

/-- The node of a shape along frames that nest: what a column may look like from the
definition level `d` and the repetition level `r` downwards. -/
inductive Follows : Node → Shape → List Frame → Level → Level → Prop where
  | requiredLeaf {d r : Level} : Follows (leaf none d) .scalar [⟨.required, .primitive⟩] d r
  | optionalLeaf {d r : Level} :
      Follows (leaf (some d) (d + 1)) .scalar [⟨.optional, .primitive⟩] d r
  | requiredStruct {m : Node} {s : Shape} {below : List Frame} {d r : Level}
      (hm : Follows m s below d r) :
      Follows (requiredStruct m) (.struct s) (⟨.required, .group⟩ :: below) d r
  | optionalStruct {m : Node} {s : Shape} {below : List Frame} {d r : Level}
      (hm : Follows m s below (d + 1) r) :
      Follows (optionalStruct d m) (.struct s) (⟨.optional, .group⟩ :: below) d r
  | requiredList {m : Node} {s : Shape} {below : List Frame} {d r : Level} {k : FrameKind}
      (hk : k = .list ∨ k = .map) (hm : Follows m s below (d + 1) (r + 1)) :
      Follows (list none d (r + 1) m) (.list s)
        (⟨.required, k⟩ :: Frame.repeatedGroup :: below) d r
  | optionalList {m : Node} {s : Shape} {below : List Frame} {d r : Level} {k : FrameKind}
      (hk : k = .list ∨ k = .map) (hm : Follows m s below (d + 1 + 1) (r + 1)) :
      Follows (list (some d) (d + 1) (r + 1) m) (.list s)
        (⟨.optional, k⟩ :: Frame.repeatedGroup :: below) d r

theorem build_scalar {total : Nat} {d r : Level} :
    build total .scalar frames d r = .ok node ↔
      (frames = [⟨.required, .primitive⟩] ∧ node = leaf none d) ∨
        (frames = [⟨.optional, .primitive⟩] ∧ node = leaf (some d) (d + 1)) := by
  obtain _ | ⟨⟨rep, kind⟩, below⟩ := frames
  · simp [build]
  · by_cases hk : kind = .primitive ∧ below = []
    · obtain ⟨rfl, rfl⟩ := hk
      cases rep <;> simp [build, eq_comm]
    · cases rep <;> simp [build, hk]

theorem build_struct {total : Nat} {d r : Level} :
    build total (.struct s) frames d r = .ok node ↔
      ∃ below m,
        (frames = ⟨.required, .group⟩ :: below ∧ build total s below d r = .ok m ∧
          node = requiredStruct m) ∨
        (frames = ⟨.optional, .group⟩ :: below ∧ build total s below (d + 1) r = .ok m ∧
          node = optionalStruct d m) := by
  obtain _ | ⟨⟨rep, kind⟩, below⟩ := frames
  · simp [build]
  · cases rep with
    | required =>
      cases hm : build total s below d r <;> cases kind <;>
        simp [build, Frame.isStruct, hm, @eq_comm _ _ node]
    | optional =>
      cases hm : build total s below (d + 1) r <;> cases kind <;>
        simp [build, Frame.isStruct, hm, @eq_comm _ _ node]
    | repeated => simp [build, Frame.isStruct]

theorem build_list {total : Nat} {d r : Level} :
    build total (.list s) frames d r = .ok node ↔
      ∃ k below m, (k = .list ∨ k = .map) ∧ below ≠ [] ∧
        ((frames = ⟨.required, k⟩ :: Frame.repeatedGroup :: below ∧
            build total s below (d + 1) (r + 1) = .ok m ∧ node = list none d (r + 1) m) ∨
          (frames = ⟨.optional, k⟩ :: Frame.repeatedGroup :: below ∧
            build total s below (d + 1 + 1) (r + 1) = .ok m ∧
            node = list (some d) (d + 1) (r + 1) m)) := by
  obtain _ | ⟨⟨rep, kind⟩, _ | ⟨inner, _ | ⟨next, rest⟩⟩⟩ := frames
  · simp [build]
  · simp [build]
  · simp +contextual [build]
  · by_cases hi : inner = Frame.repeatedGroup
    · subst hi
      cases rep with
      | required =>
        cases hm : build total s (next :: rest) (d + 1) (r + 1) <;> cases kind <;>
          simp [build, Frame.isListLike, hm, @eq_comm _ _ node]
      | optional =>
        cases hm : build total s (next :: rest) (d + 1 + 1) (r + 1) <;> cases kind <;>
          simp [build, Frame.isListLike, hm, @eq_comm _ _ node]
      | repeated => simp [build]
    · cases kind <;> cases rep <;> simp [build, hi, Frame.isListLike]

theorem follows_of_build {total : Nat} {d r : Level} (h : build total s frames d r = .ok node) :
    node.Follows s frames d r := by
  induction s generalizing frames d r node with
  | scalar =>
    rcases build_scalar.1 h with ⟨rfl, rfl⟩ | ⟨rfl, rfl⟩
    · exact .requiredLeaf
    · exact .optionalLeaf
  | struct s ih =>
    obtain ⟨below, m, ⟨rfl, hm, rfl⟩ | ⟨rfl, hm, rfl⟩⟩ := build_struct.1 h
    · exact .requiredStruct (ih hm)
    · exact .optionalStruct (ih hm)
  | list s ih =>
    obtain ⟨k, below, m, hk, -, ⟨rfl, hm, rfl⟩ | ⟨rfl, hm, rfl⟩⟩ := build_list.1 h
    · exact .requiredList hk (ih hm)
    · exact .optionalList hk (ih hm)

theorem Follows.frames_ne_nil {d r : Level} (h : node.Follows s frames d r) : frames ≠ [] := by
  cases h <;> simp

/-- **Frames that nest are matched**, by the shape they nest in. -/
theorem Follows.build {total : Nat} {d r : Level} (h : node.Follows s frames d r) :
    Node.build total s frames d r = .ok node := by
  induction h with
  | requiredLeaf => exact build_scalar.2 (.inl ⟨rfl, rfl⟩)
  | optionalLeaf => exact build_scalar.2 (.inr ⟨rfl, rfl⟩)
  | requiredStruct _ ih => exact build_struct.2 ⟨_, _, .inl ⟨rfl, ih, rfl⟩⟩
  | optionalStruct _ ih => exact build_struct.2 ⟨_, _, .inr ⟨rfl, ih, rfl⟩⟩
  | requiredList hk hm ih =>
    exact build_list.2 ⟨_, _, _, hk, hm.frames_ne_nil, .inl ⟨rfl, ih, rfl⟩⟩
  | optionalList hk hm ih =>
    exact build_list.2 ⟨_, _, _, hk, hm.frames_ne_nil, .inr ⟨rfl, ih, rfl⟩⟩

/-- The shape that frames nest in is their canonical one. -/
theorem Follows.shape_eq {d r : Level} (h : node.Follows s frames d r) : s = .infer frames := by
  induction h with
  | requiredLeaf => rfl
  | optionalLeaf => rfl
  | @requiredStruct m s below d r hm ih =>
    obtain ⟨next, rest, rfl⟩ := List.exists_cons_of_ne_nil hm.frames_ne_nil
    rw [ih]; rfl
  | @optionalStruct m s below d r hm ih =>
    obtain ⟨next, rest, rfl⟩ := List.exists_cons_of_ne_nil hm.frames_ne_nil
    rw [ih]; rfl
  | requiredList hk _ ih => rw [ih]; rcases hk with rfl | rfl <;> rfl
  | optionalList hk _ ih => rw [ih]; rcases hk with rfl | rfl <;> rfl

/-- **A node along frames that nest is leveled**, if the bounds are those below the
frames. -/
theorem Follows.leveled {d r : Level} (h : node.Follows s frames d r)
    (hb : LevelBounds.below? ⟨d, r⟩ frames = some b)
    (hr : 0 ≤ r.toInt ∧ r.toInt ≤ d.toInt) : node.Leveled b d.toInt r.toInt := by
  -- each frame takes the bounds along, so at the leaf those below are those of the column
  induction h with
  | requiredLeaf =>
    obtain rfl := Option.some.inj (LevelBounds.below?_required hb hr)
    exact .requiredLeaf rfl rfl rfl
  | optionalLeaf =>
    obtain ⟨hb, hd⟩ := LevelBounds.below?_optional hb hr
    obtain rfl := Option.some.inj hb
    exact .optionalLeaf rfl hd rfl rfl
  | requiredStruct _ ih => exact .requiredStruct (ih (LevelBounds.below?_required hb hr) hr)
  | optionalStruct _ ih =>
    obtain ⟨hb, hd⟩ := LevelBounds.below?_optional hb hr
    have hm := ih hb (by omega)
    rw [hd] at hm
    exact .optionalStruct rfl hm
  | requiredList _ _ ih =>
    obtain ⟨hb, hd, hl⟩ := LevelBounds.below?_repeatedGroup (LevelBounds.below?_required hb hr) hr
    have hm := ih hb (by omega)
    rw [hd, hl] at hm
    exact .requiredList rfl hl hm
  | optionalList _ _ ih =>
    obtain ⟨hb, he⟩ := LevelBounds.below?_optional hb hr
    obtain ⟨hb, hd, hl⟩ := LevelBounds.below?_repeatedGroup hb (by omega)
    have hm := ih hb (by omega)
    rw [hd, hl, he, Int.add_assoc] at hm
    exact .optionalList rfl he hl hm

end Node

/-- **The node of every column shape is leveled.** -/
theorem ColumnShape.leveled (s : ColumnShape) : s.root.Leveled s.column.bounds 0 0 := by
  have hb := LevelBounds.below?_of_ofFrames s.column.bounds_eq
  exact (Node.follows_of_build s.root_eq).leveled hb (by decide)

theorem ColumnShape.bounds_nonneg (s : ColumnShape) :
    0 ≤ s.column.bounds.definition.toInt ∧ 0 ≤ s.column.bounds.repetition.toInt :=
  ⟨s.leveled.definition_le, s.leveled.repetition_le⟩

/-- The shape that is found for a column is one of that column. -/
theorem ColumnShape.column_of_infer {column : Column} {shape : ColumnShape}
    (h : ColumnShape.infer column = .ok shape) : shape.column = column := by
  unfold ColumnShape.infer make at h
  split at h
  · cases h
  · split at h
    · obtain rfl := Except.ok.inj h
      rfl
    · cases h

/-- The column of required numbers. -/
def ColumnShape.plain : ColumnShape where
  column :=
    { path := ⟨["plain"]⟩
      frames := [⟨.required, .primitive⟩]
      physicalType := .int32
      bounds := ⟨0, 0⟩
      bounds_eq := rfl }
  shape := .scalar
  root := .leaf none 0
  root_eq := rfl

/-- The column of optional numbers. -/
def ColumnShape.maybe : ColumnShape where
  column :=
    { path := ⟨["maybe"]⟩
      frames := [⟨.optional, .primitive⟩]
      physicalType := .int32
      bounds := ⟨1, 0⟩
      bounds_eq := rfl }
  shape := .scalar
  root := .leaf (some 0) 1
  root_eq := rfl

/-- The column of a required list of required numbers. -/
def ColumnShape.numbers : ColumnShape where
  column :=
    { path := ⟨["numbers"]⟩
      frames := [⟨.required, .list⟩, .repeatedGroup, ⟨.required, .primitive⟩]
      physicalType := .int32
      bounds := ⟨1, 1⟩
      bounds_eq := rfl }
  shape := .list .scalar
  root := .list none 0 1 (.leaf none 1)
  root_eq := rfl

example : ColumnShape.infer ColumnShape.numbers.column = .ok .numbers := rfl

end Striping
