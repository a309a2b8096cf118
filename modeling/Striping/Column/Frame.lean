import Striping.Level

/-!
# Schema frames

The nodes on the way from the schema root to one leaf, each reduced to what the
levels depend on.

* `Frame`: the repetition and the kind of a node.
* `Frame.definitionStep`, `Frame.repetitionStep`: what a frame adds to the levels.
-/

namespace Striping

/-- How often a node occurs below its parent. -/
inductive Repetition where
  /-- Exactly once. -/
  | required
  /-- At most once. -/
  | optional
  /-- Any number of times. -/
  | repeated
deriving DecidableEq, Repr

/-- The spelling of a repetition. -/
def Repetition.label : Repetition → String
  | .required => "required"
  | .optional => "optional"
  | .repeated => "repeated"

/-- What a node is. -/
inductive FrameKind where
  /-- A group without a meaning of its own. -/
  | group
  /-- The outer group of a list. -/
  | list
  /-- The outer group of a map. -/
  | map
  /-- A leaf. -/
  | primitive
deriving DecidableEq, Repr

/-- The spelling of a kind. -/
def FrameKind.label : FrameKind → String
  | .group => "group"
  | .list => "list group"
  | .map => "map group"
  | .primitive => "primitive"

/-- One node on the way from the schema root to a leaf. -/
structure Frame where
  /-- How often the node occurs. -/
  repetition : Repetition
  /-- What the node is. -/
  kind : FrameKind
deriving DecidableEq, Repr

namespace Frame

/-- The group that holds the elements of a list or the entries of a map. -/
def repeatedGroup : Frame := ⟨.repeated, .group⟩

/-- What the frame adds to the definition level of what lies below it. -/
def definitionStep (f : Frame) : Level :=
  match f.repetition with
  | .required => 0
  | .optional | .repeated => 1

/-- What the frame adds to the repetition level of what lies below it. -/
def repetitionStep (f : Frame) : Level :=
  match f.repetition with
  | .required | .optional => 0
  | .repeated => 1

/-- Holds of the frames of structs: plain groups that are not repeated. -/
def isStruct (f : Frame) : Bool := f.kind == .group && f.repetition != .repeated

/-- Holds of the outer groups of lists and maps. -/
def isListLike (f : Frame) : Bool := f.kind == .list || f.kind == .map

/-- The spelling of a frame. -/
def render (f : Frame) : String := f.repetition.label ++ " " ++ f.kind.label

instance : ToString Frame := ⟨render⟩

end Frame

end Striping
