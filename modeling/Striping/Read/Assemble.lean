import Striping.Leaf.Conversion
import Striping.Nested
import Striping.Read.Cursor
import Striping.Shape.Node

/-!
# Assembly

A run of positions becomes a row again. The definition level of a position tells down to
which node the row is there, the repetition level of the next one which list goes on.

* `Node.assemble`: the value of a node at the current position.
* `Cursor.readItems`: the further items of a list.
-/

namespace Striping

/-- The word for a node in messages about a level that lies above it. -/
def Node.title : Node → String
  | .leaf _ _ => "leaf"
  | .requiredStruct _ => "required struct"
  | .optionalStruct _ _ => "optional struct"
  | .list _ _ _ _ => "list"

namespace Cursor

variable {ρ P α : Type} [ColumnReader ρ P]

/-- The levels at the current position, which has to be there. -/
def expectLevels (c : Cursor ρ P) : Outcome (Cursor ρ P) Levels :=
  match c.peek with
  | (.error e, c) => (.error e, c)
  | (.ok none, c) => (.error (c.corruptBatch .cutShort), c)
  | (.ok (some levels), c) => (.ok levels, c)

/-- The levels at the current position, which has to reach down to the node. -/
def enter (c : Cursor ρ P) (node : Node) : Outcome (Cursor ρ P) Levels :=
  match c.expectLevels with
  | (.error e, c) => (.error e, c)
  | (.ok levels, c) =>
    if levels.definition < node.minimum then
      (.error (c.corrupt levels (.belowMinimum node.minimum node.title)), c)
    else (.ok levels, c)

/-- Reads the further items of a list, each of which starts at the repetition level of
the list. Every item consumes a position, so `count` of them are never exceeded when it
is above the number of positions left. -/
def readItems (read : Cursor ρ P → Outcome (Cursor ρ P) α) (level : Level) :
    Nat → Cursor ρ P → Outcome (Cursor ρ P) (List α)
  | 0, c => (.ok [], c)
  | count + 1, c =>
    match c.peek with
    | (.error e, c) => (.error e, c)
    | (.ok none, c) => (.ok [], c)
    | (.ok (some next), c) =>
      if next.repetition < level then (.ok [], c)
      else if level < next.repetition then (.error (c.corrupt next (.tooDeep level)), c)
      else
        match read c with
        | (.error e, c) => (.error e, c)
        | (.ok item, c) => Outcome.map (item :: ·) (readItems read level count c)

/-- Reads all items of a list that is not empty. -/
def readList (read : Cursor ρ P → Outcome (Cursor ρ P) α) (level : Level) (c : Cursor ρ P) :
    Outcome (Cursor ρ P) (List α) :=
  match read c with
  | (.error e, c) => (.error e, c)
  | (.ok item, c) => Outcome.map (item :: ·) (readItems read level (c.left + 1) c)

end Cursor

namespace Node

variable {ρ : Type}

/-- The value of a present leaf. A value that cannot be converted is taken all the same,
while its position stays the current one. -/
def readLeaf (t : LeafType) (c : Cursor ρ t.Physical) (levels : Levels) :
    Outcome (Cursor ρ t.Physical) (Nested t.Value) :=
  match c.takeValue levels with
  | (.error e, c) => (.error e, c)
  | (.ok physical, c) =>
    match t.ofPhysical physical with
    | .error e => (.error e, c)
    | .ok value => (.ok (.scalar value), c.advance)

/-- The value of a node that starts at the current position. -/
def assemble (t : LeafType) [ColumnReader ρ t.Physical] :
    Node → Cursor ρ t.Physical → Outcome (Cursor ρ t.Physical) (Nested t.Value)
  | leaf nullLevel valueLevel, c =>
    match c.enter (leaf nullLevel valueLevel) with
    | (.error e, c) => (.error e, c)
    | (.ok levels, c) =>
      if valueLevel ≤ levels.definition then readLeaf t c levels else (.ok .null, c.advance)
  | requiredStruct member, c =>
    match c.enter (requiredStruct member) with
    | (.error e, c) => (.error e, c)
    | (.ok _, c) => Outcome.map .struct (member.assemble t c)
  | optionalStruct nullLevel member, c =>
    match c.enter (optionalStruct nullLevel member) with
    | (.error e, c) => (.error e, c)
    | (.ok levels, c) =>
      if levels.definition = nullLevel then (.ok .null, c.advance)
      else Outcome.map .struct (member.assemble t c)
  | list nullLevel emptyLevel repetitionLevel element, c =>
    match c.enter (list nullLevel emptyLevel repetitionLevel element) with
    | (.error e, c) => (.error e, c)
    | (.ok levels, c) =>
      if some levels.definition = nullLevel then (.ok .null, c.advance)
      else if levels.definition = emptyLevel then (.ok (.list []), c.advance)
      else Outcome.map .list (c.readList (element.assemble t) repetitionLevel)

end Node

end Striping
