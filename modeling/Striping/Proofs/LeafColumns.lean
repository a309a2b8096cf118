import Striping.Proofs.Levels
import Striping.Proofs.Steps
import Striping.Schema.Leaves

/-!
# The leaf columns of a schema

The walk keeps its place on a stack. What it meets is said by a recursion over the fields.

* `LeafColumn`: a leaf seen from a group above it.
* `Field.leaves`: the leaves below a field. `Field.length_leaves`: they are counted by
  `Field.leafCount`.
* `LeafWalk.step_columns`, `LeafWalk.run_of_weight_le`: **the walk meets these leaves**, one step
  and all of them.
* `Schema.leaves_eq`, `Schema.columns_eq_ok_iff`: so they are the columns of a schema.
* `Field.nests_of_mem_leaves`, `Schema.infer_of_mem_columns`: **every column of a schema
  has a shape**.
-/

namespace Striping

/-- A leaf as it is seen from a group above it. -/
structure LeafColumn where
  /-- The names below the group. -/
  path : List String
  /-- The frames below the group. -/
  frames : List Frame
  /-- What the column stores. -/
  physicalType : PhysicalType

namespace LeafColumn

/-- The leaf as it is seen from one frame further up. -/
def under (name : String) (frame : Frame) (l : LeafColumn) : LeafColumn :=
  ⟨name :: l.path, frame :: l.frames, l.physicalType⟩

/-- The column of a leaf below a group. -/
def column (path : Path) (frames : List Frame) (l : LeafColumn) : Except Error Column :=
  Column.make ⟨path.parts ++ l.path⟩ (frames ++ l.frames) l.physicalType

theorem column_under (path : Path) (frames : List Frame) (name : String) (frame : Frame)
    (l : LeafColumn) :
    (l.under name frame).column path frames =
      l.column (path.append name) (frames ++ [frame]) := by
  unfold column under Path.append
  rw [List.append_assoc, List.append_assoc]
  rfl

/-- Leaves below a frame are the columns of a group further in. -/
theorem map_column_under (path : Path) (frames : List Frame) (name : String) (frame : Frame)
    (ls : List LeafColumn) :
    (ls.map (under name frame)).map (column path frames) =
      ls.map (column (path.append name) (frames ++ [frame])) := by
  rw [List.map_map]
  exact List.map_congr_left fun l _ => l.column_under path frames name frame

end LeafColumn

/-- The kind of the outermost frame of a type. -/
def DataType.frameKind : DataType → FrameKind
  | .primitive _ => .primitive
  | .list _ => .list
  | .map _ _ => .map
  | .struct _ => .group

mutual

/-- The leaves of a field. -/
def Field.leaves : Field → List LeafColumn
  | .mk name type optional =>
    type.leaves.map (.under name ⟨if optional then .optional else .required, type.frameKind⟩)

/-- The leaves inside of a field with the given type. -/
def DataType.leaves : DataType → List LeafColumn
  | .primitive leaf => [⟨[], [], leaf.physicalType⟩]
  | .list element => element.leaves.map (.under listGroupName .repeatedGroup)
  | .map key value => (key.leaves ++ value.leaves).map (.under mapGroupName .repeatedGroup)
  | .struct fields => Field.allLeaves fields

/-- The leaves of several fields. -/
def Field.allLeaves : List Field → List LeafColumn
  | [] => []
  | f :: rest => f.leaves ++ Field.allLeaves rest

end

mutual

theorem Field.length_leaves : (f : Field) → f.leaves.length = f.leafCount
  | .mk _ type _ => by
    rw [Field.leaves, Field.leafCount, List.length_map, type.length_leaves]

/-- The leaves inside of a type are as many as are counted. -/
theorem DataType.length_leaves : (type : DataType) → type.leaves.length = type.leafCount
  | .primitive _ => rfl
  | .list element => by
    rw [DataType.leaves, DataType.leafCount, List.length_map, element.length_leaves]
  | .map key value => by
    rw [DataType.leaves, DataType.leafCount, List.length_map, List.length_append,
      key.length_leaves, value.length_leaves]
  | .struct fields => by
    rw [DataType.leaves, DataType.leafCount, Field.length_allLeaves fields]

theorem Field.length_allLeaves :
    (fields : List Field) → (Field.allLeaves fields).length = Field.leafCounts fields
  | [] => rfl
  | f :: fields => by
    rw [Field.allLeaves, Field.leafCounts, List.length_append, f.length_leaves,
      Field.length_allLeaves fields]

end

namespace LeafWalk

/-- The columns that a walk has still to meet below a group. -/
def groupColumns (g : OpenGroup) : List (Except Error Column) :=
  (Field.allLeaves g.fields).map (LeafColumn.column g.path g.frames)

/-- The columns that a walk has still to meet. -/
def columns (w : LeafWalk) : List (Except Error Column) := w.flatMap groupColumns

theorem columns_cons (g : OpenGroup) (w : LeafWalk) :
    columns (g :: w) = groupColumns g ++ columns w := List.flatMap_cons

/-- The first field of a group is visited before the others. -/
theorem groupColumns_cons (f : Field) (rest : List Field) (path : Path) (frames : List Frame) :
    groupColumns ⟨f :: rest, path, frames⟩ =
      f.leaves.map (LeafColumn.column path frames) ++ groupColumns ⟨rest, path, frames⟩ := by
  unfold groupColumns
  rw [Field.allLeaves, List.map_append]

/-- A visit goes into the group below a field, or meets its only leaf. -/
theorem visit_columns (g : OpenGroup) (f : Field) :
    (∃ inner, visit g f = .inl inner ∧ f.weight = Field.weights inner.fields + 2 ∧
        f.leaves.map (LeafColumn.column g.path g.frames) = groupColumns inner) ∨
      ∃ column, visit g f = .inr column ∧ f.weight = 1 ∧
        f.leaves.map (LeafColumn.column g.path g.frames) = [column] := by
  obtain ⟨name, type, optional⟩ := f
  cases type with
  | primitive leaf =>
    refine .inr ⟨_, rfl, rfl, ?_⟩
    rw [Field.leaves, LeafColumn.map_column_under, DataType.leaves, List.map_singleton]
    unfold LeafColumn.column
    rw [List.append_nil, List.append_nil]
    rfl
  | list element =>
    refine .inl ⟨_, rfl, ?_, ?_⟩
    · simp only [Field.weights, Field.weight, DataType.weight, Nat.add_zero]
    · rw [Field.leaves, LeafColumn.map_column_under, DataType.leaves,
        LeafColumn.map_column_under, groupColumns, Field.allLeaves, Field.allLeaves,
        List.append_nil, List.append_assoc]
      rfl
  | map key value =>
    refine .inl ⟨_, rfl, ?_, ?_⟩
    · simp only [Field.weights, Field.weight, DataType.weight]
      omega
    · rw [Field.leaves, LeafColumn.map_column_under, DataType.leaves,
        LeafColumn.map_column_under, groupColumns, Field.allLeaves, Field.allLeaves,
        Field.allLeaves, List.append_nil, List.append_assoc]
      rfl
  | struct fields =>
    refine .inl ⟨_, rfl, rfl, ?_⟩
    rw [Field.leaves, LeafColumn.map_column_under, DataType.leaves]
    rfl

/-- **A step meets the next column** or none, and there is one step less to go. -/
theorem step_columns {g : OpenGroup} {outer : LeafWalk} :
    weight (g :: outer) = (step (g :: outer)).1.weight + 1 ∧
      columns (g :: outer) = (step (g :: outer)).2.toList ++ (step (g :: outer)).1.columns := by
  obtain ⟨_ | ⟨f, rest⟩, path, frames⟩ := g
  · refine ⟨?_, rfl⟩
    show 0 + 1 + weight outer = weight outer + 1
    omega
  · rw [columns_cons, groupColumns_cons]
    rcases visit_columns ⟨f :: rest, path, frames⟩ f with
      ⟨inner, hv, hw, hc⟩ | ⟨column, hv, hw, hc⟩
    · simp only [step, hv, hc, weight, Field.weights, columns_cons, Option.toList_none,
        List.nil_append, List.append_assoc, and_true]
      omega
    · simp only [step, hv, hc, weight, Field.weights, columns_cons, Option.toList_some,
        List.append_assoc, and_true]
      omega

/-- The walk after so many steps. -/
def after : Nat → LeafWalk → LeafWalk
  | 0, w => w
  | steps + 1, w => after steps w.step.1

/-- **The walk ends, and meets all columns**, in as many steps as it has weight. -/
theorem run_of_weight_le {w : LeafWalk} {n : Nat} (h : w.weight ≤ n) :
    run n w = w.columns ∧ w.after n = [] := by
  -- each step takes one from the weight, so none is left when the walk is over
  induction n generalizing w with
  | zero =>
    cases w with
    | nil => exact ⟨rfl, rfl⟩
    | cons g outer =>
      have hweight := (@step_columns g outer).1
      omega
  | succ n ih =>
    cases w with
    | nil => exact ih (w := []) (Nat.zero_le n)
    | cons g outer =>
      obtain ⟨hweight, hcolumns⟩ := @step_columns g outer
      obtain ⟨hrun, hafter⟩ := ih (w := (step (g :: outer)).1) (by omega)
      refine ⟨?_, hafter⟩
      rw [run, hcolumns]
      rcases hs : step (g :: outer) with ⟨w, _ | column⟩
      · rw [hs] at hrun
        exact hrun
      · rw [hs] at hrun
        exact congrArg (column :: ·) hrun

end LeafWalk

/-- The walk over a schema has all its leaves before it. -/
theorem Schema.columns_walk (s : Schema) :
    s.walk.columns = (Field.allLeaves s.fields).map (LeafColumn.column .root []) := by
  unfold Schema.walk
  rw [LeafWalk.columns_cons]
  exact List.append_nil _

/-- **The leaves that are met in a schema are those said by the recursion.** -/
theorem Schema.leaves_eq (s : Schema) :
    s.leaves = (Field.allLeaves s.fields).map (LeafColumn.column .root []) := by
  unfold Schema.leaves
  rw [(LeafWalk.run_of_weight_le (Nat.le_refl _)).1, s.columns_walk]

/-- **The columns of a schema are those of its leaves.** -/
theorem Schema.columns_eq_ok_iff {s : Schema} {columns : List Column} :
    s.columns = .ok columns ↔
      List.Forall₂ (fun l column => LeafColumn.column .root [] l = .ok column)
        (Field.allLeaves s.fields) columns := by
  unfold Schema.columns
  rw [s.leaves_eq, mapM_eq_ok_iff, List.forall₂_map_left_iff]
  rfl

/-- Frames that some node follows, at any levels. -/
def Nests (frames : List Frame) : Prop := ∀ d r, ∃ node shape, Node.Follows node shape frames d r

/-- A struct around frames that nest. -/
theorem Nests.struct {below : List Frame} (h : Nests below) (optional : Bool) :
    Nests (⟨if optional then .optional else .required, .group⟩ :: below) := by
  intro d r
  cases optional with
  | false =>
    obtain ⟨node, shape, hm⟩ := h d r
    exact ⟨_, _, .requiredStruct hm⟩
  | true =>
    obtain ⟨node, shape, hm⟩ := h (d + 1) r
    exact ⟨_, _, .optionalStruct hm⟩

/-- A list or a map around frames that nest. -/
theorem Nests.list {below : List Frame} (h : Nests below) (optional : Bool) {k : FrameKind}
    (hk : k = .list ∨ k = .map) :
    Nests (⟨if optional then .optional else .required, k⟩ :: Frame.repeatedGroup :: below) := by
  intro d r
  cases optional with
  | false =>
    obtain ⟨node, shape, hm⟩ := h (d + 1) (r + 1)
    exact ⟨_, _, .requiredList hk hm⟩
  | true =>
    obtain ⟨node, shape, hm⟩ := h (d + 1 + 1) (r + 1)
    exact ⟨_, _, .optionalList hk hm⟩

mutual

/-- **The frames of a leaf nest.** -/
theorem Field.nests_of_mem_leaves : (f : Field) → ∀ l ∈ f.leaves, Nests l.frames
  | .mk name (.primitive leaf) optional => by
    intro l hl d r
    rw [Field.leaves, DataType.leaves, List.map_singleton, List.mem_singleton] at hl
    subst hl
    cases optional with
    | false => exact ⟨_, _, .requiredLeaf⟩
    | true => exact ⟨_, _, .optionalLeaf⟩
  | .mk name (.list element) optional => by
    intro l hl
    rw [Field.leaves, DataType.leaves, List.map_map] at hl
    obtain ⟨l', hl', rfl⟩ := List.mem_map.1 hl
    exact (element.nests_of_mem_leaves l' hl').list optional (.inl rfl)
  | .mk name (.map key value) optional => by
    intro l hl
    rw [Field.leaves, DataType.leaves, List.map_map] at hl
    obtain ⟨l', hl', rfl⟩ := List.mem_map.1 hl
    refine Nests.list ?_ optional (.inr rfl)
    rcases List.mem_append.1 hl' with hk | hv
    · exact key.nests_of_mem_leaves l' hk
    · exact value.nests_of_mem_leaves l' hv
  | .mk name (.struct fields) optional => by
    intro l hl
    rw [Field.leaves, DataType.leaves] at hl
    obtain ⟨l', hl', rfl⟩ := List.mem_map.1 hl
    exact (Field.nests_of_mem_allLeaves fields l' hl').struct optional

theorem Field.nests_of_mem_allLeaves :
    (fields : List Field) → ∀ l ∈ Field.allLeaves fields, Nests l.frames
  | [] => by
    intro l hl
    cases hl
  | f :: fields => by
    intro l hl
    rw [Field.allLeaves] at hl
    rcases List.mem_append.1 hl with hl | hl
    · exact f.nests_of_mem_leaves l hl
    · exact Field.nests_of_mem_allLeaves fields l hl

end

/-- The greatest definition level of a leveled node is that of the column. -/
theorem Node.Leveled.valueLevel {b : LevelBounds} {node : Node} {d r : Int}
    (h : node.Leveled b d r) : node.valueLevel = b.definition := by
  induction h with
  | requiredLeaf _ hd _ => exact hd
  | optionalLeaf _ _ hd _ => exact hd
  | requiredStruct _ ih => exact ih
  | optionalStruct _ _ ih => exact ih
  | requiredList _ _ _ ih => exact ih
  | optionalList _ _ _ _ ih => exact ih

/-- Matching a shape reaches the leaf at the greatest definition level. -/
theorem ColumnShape.valueLevel_of_build {column : Column} {shape : Shape} {root : Node}
    (h : Node.build column.frames.length shape column.frames 0 0 = .ok root) :
    root.valueLevel = column.bounds.definition := by
  have hbounds := LevelBounds.below?_of_ofFrames column.bounds_eq
  exact ((Node.follows_of_build h).leveled hbounds (by decide)).valueLevel

/-- A shape that is matched is one of the column. -/
theorem ColumnShape.make_of_build {column : Column} {shape : Shape} {root : Node}
    (h : Node.build column.frames.length shape column.frames 0 0 = .ok root) :
    make column shape = .ok ⟨column, shape, root, h⟩ := by
  have hvalue := valueLevel_of_build h
  unfold make
  split
  · rename_i fault hfault
    rw [h] at hfault
    cases hfault
  · rename_i root' hroot
    obtain rfl := Except.ok.inj (h.symm.trans hroot)
    exact if_pos hvalue

/-- A column whose frames nest has a shape. -/
theorem ColumnShape.infer_of_nests {column : Column} (h : Nests column.frames) :
    ∃ shape, ColumnShape.infer column = .ok shape := by
  -- the shape that the frames nest in is the one that is tried
  obtain ⟨node, s, hf⟩ := h 0 0
  obtain rfl := hf.shape_eq
  exact ⟨_, make_of_build hf.build⟩

/-- **Every column of a schema has a shape.** -/
theorem Schema.infer_of_mem_columns {s : Schema} {columns : List Column}
    (h : s.columns = .ok columns) {column : Column} (hc : column ∈ columns) :
    ∃ shape, ColumnShape.infer column = .ok shape := by
  obtain ⟨l, hl, hmake⟩ := exists_of_forall₂ (Schema.columns_eq_ok_iff.1 h) hc
  have hframes : column.frames = l.frames := by
    unfold LeafColumn.column Column.make at hmake
    split at hmake
    · obtain rfl := Except.ok.inj hmake
      rfl
    · cases hmake
  refine ColumnShape.infer_of_nests ?_
  rw [hframes]
  exact Field.nests_of_mem_allLeaves _ l hl

/-- A column has only one shape. -/
theorem ColumnShape.eq_of_column {s s' : ColumnShape} (h : s.column = s'.column) : s = s' := by
  obtain ⟨column, shape, root, hroot⟩ := s
  obtain ⟨column', shape', root', hroot'⟩ := s'
  obtain rfl : column = column' := h
  obtain rfl := (Node.follows_of_build hroot).shape_eq
  obtain rfl := (Node.follows_of_build hroot').shape_eq
  obtain rfl := Except.ok.inj (hroot.symm.trans hroot')
  rfl

end Striping
