import Striping.Column.Basic

/-!
# Shape nodes

The shape of a column with the levels of every way to be absent or present. Writing and
reading look at nodes only, not at frames.

* `Node`: a node of the tree, from the row down to the leaf.
* `Node.build`: matches a shape against frames, one to one.
* `Node.minimum`: the lowest definition level that belongs to the node and not to one
  above it.
-/

namespace Striping

/-- A node on the way from the row to the leaf. -/
inductive Node where
  /-- The leaf. `nullLevel` is there if the leaf is optional. -/
  | leaf (nullLevel : Option Level) (valueLevel : Level)
  /-- A required struct, which adds no levels. -/
  | requiredStruct (member : Node)
  /-- An optional struct. -/
  | optionalStruct (nullLevel : Level) (member : Node)
  /-- A list. `nullLevel` is there if the list is optional; `repetitionLevel` is that of
  every element but the first. -/
  | list (nullLevel : Option Level) (emptyLevel repetitionLevel : Level) (element : Node)
deriving DecidableEq, Repr

namespace Node

/-- The lowest definition level at which the node is reached. -/
def minimum : Node → Level
  | leaf nullLevel valueLevel => nullLevel.getD valueLevel
  | requiredStruct member => member.minimum
  | optionalStruct nullLevel _ => nullLevel
  | list nullLevel emptyLevel _ _ => nullLevel.getD emptyLevel

/-- The definition level of a present leaf. -/
def valueLevel : Node → Level
  | leaf _ level => level
  | requiredStruct member => member.valueLevel
  | optionalStruct _ member => member.valueLevel
  | list _ _ _ element => element.valueLevel

/-- Matches a shape against the frames still below, reached at the given levels. `total`
is the number of frames of the column. -/
def build (total : Nat) : Shape → List Frame → Level → Level → Except ShapeFault Node
  | shape, [], _, _ => .error (.tooDeep shape total)
  | .scalar, frame :: below, definition, _ =>
    if frame.kind = .primitive ∧ below = [] then
      match frame.repetition with
      | .required => .ok (leaf none definition)
      | .optional => .ok (leaf (some definition) (definition + frame.definitionStep))
      | .repeated => .error .repeatedLeaf
    else .error (.scalarAt frame (below.length + 1))
  | .struct member, frame :: below, definition, repetition =>
    if frame.isStruct then
      match build total member below (definition + frame.definitionStep) repetition with
      | .error fault => .error fault
      | .ok node =>
        match frame.repetition with
        | .optional => .ok (optionalStruct definition node)
        | .required | .repeated => .ok (requiredStruct node)
    else .error (.structAt frame)
  | .list element, frame :: below, definition, repetition =>
    match below with
    | inner :: next :: rest =>
      if frame.isListLike ∧ frame.repetition ≠ .repeated then
        if inner = Frame.repeatedGroup then
          let emptyLevel := definition + frame.definitionStep
          let repetitionLevel := repetition + inner.repetitionStep
          match build total element (next :: rest) (emptyLevel + inner.definitionStep)
              repetitionLevel with
          | .error fault => .error fault
          | .ok node =>
            let nullLevel := if frame.repetition = .optional then some definition else none
            .ok (list nullLevel emptyLevel repetitionLevel node)
        else .error (.notRepeated frame inner)
      else .error (.listAt frame)
    | _ => .error (.shortList (below.length + 1))

/-- Holds of a leaf that is its own row. -/
def isLeaf : Node → Bool
  | leaf _ _ => true
  | _ => false

end Node

end Striping
