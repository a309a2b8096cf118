import Striping.Column.Basic
import Striping.Schema.Basic

/-!
# Leaf columns of a schema

The leaf columns of a schema, in the order in which their fields are declared.

* `LeafWalk`: a depth-first walk that keeps the fields still to be visited on a stack,
  one entry for each group it is inside of.
* `LeafWalk.step`: one step of the walk. It visits a field or leaves a group.
* `LeafWalk.weight`: the number of steps until the stack is empty.
* `Schema.leaves`, `Schema.columns`.
-/

namespace Striping

/-- The name of the repeated group inside a list. -/
def listGroupName : String := "list"

/-- The name of the elements of a list. -/
def elementName : String := "element"

/-- The name of the repeated group inside a map. -/
def mapGroupName : String := "key_value"

/-- The name of the keys of a map. -/
def keyName : String := "key"

/-- The name of the values of a map. -/
def valueName : String := "value"

/-- A group on the way of a walk. -/
structure OpenGroup where
  /-- The fields that were not visited yet. -/
  fields : List Field
  /-- The path of the group. -/
  path : Path
  /-- The frames from the schema root to the group. -/
  frames : List Frame

/-- The groups a walk is inside of, innermost first. -/
abbrev LeafWalk := List OpenGroup

mutual

/-- The steps that a field takes. -/
def Field.weight : Field → Nat
  | .mk _ type _ => type.weight + 1

/-- The steps inside of a field with the given type. -/
def DataType.weight : DataType → Nat
  | .primitive _ => 0
  | .list element => element.weight + 1
  | .map key value => key.weight + value.weight + 1
  | .struct fields => Field.weights fields + 1

/-- The steps that several fields take. -/
def Field.weights : List Field → Nat
  | [] => 0
  | f :: rest => f.weight + Field.weights rest

end

namespace LeafWalk

/-- The steps until the walk is over. -/
def weight : LeafWalk → Nat
  | [] => 0
  | g :: outer => Field.weights g.fields + 1 + weight outer

/-- The group below a field, or the column of a leaf. -/
def visit (g : OpenGroup) (f : Field) : OpenGroup ⊕ Except Error Column :=
  let path := g.path.append f.name
  match f.type with
  | .primitive leaf =>
    .inr (Column.make path (g.frames ++ [⟨f.repetition, .primitive⟩]) leaf.physicalType)
  | .struct fields => .inl ⟨fields, path, g.frames ++ [⟨f.repetition, .group⟩]⟩
  | .list element =>
    .inl ⟨[element], path.append listGroupName,
      g.frames ++ [⟨f.repetition, .list⟩, Frame.repeatedGroup]⟩
  | .map key value =>
    .inl ⟨[key, value], path.append mapGroupName,
      g.frames ++ [⟨f.repetition, .map⟩, Frame.repeatedGroup]⟩

/-- One step, which may meet a leaf. -/
def step : LeafWalk → LeafWalk × Option (Except Error Column)
  | [] => ([], none)
  | g :: outer =>
    match g.fields with
    | [] => (outer, none)
    | f :: rest =>
      match visit g f with
      | .inl inner => (inner :: { g with fields := rest } :: outer, none)
      | .inr column => ({ g with fields := rest } :: outer, some column)

/-- The leaves met in so many steps. -/
def run : Nat → LeafWalk → List (Except Error Column)
  | 0, _ => []
  | steps + 1, w =>
    match w.step with
    | (w, some column) => column :: run steps w
    | (w, none) => run steps w

end LeafWalk

namespace Schema

/-- The walk over all fields of a schema. -/
def walk (s : Schema) : LeafWalk := [⟨s.fields, .root, []⟩]

/-- The leaf columns of a schema. A column whose frames cannot be counted is a failure
in its place. -/
def leaves (s : Schema) : List (Except Error Column) := s.walk.run s.walk.weight

/-- The leaf columns of a schema, or the first failure. -/
def columns (s : Schema) : Except Error (List Column) := s.leaves.mapM id

end Schema

end Striping
