import Striping.Leaf.Conversion
import Striping.Nested
import Striping.Position
import Striping.Shape.Node

/-!
# Shredding

A row of a column becomes a run of positions: one for each leaf value, and one for each
place where the row stops short of a leaf.

* `Node.validate`: whether a value has the nesting of a node, without writing anything.
* `Node.shred`: the positions of a value. Only its first position has the repetition
  level it is reached at; further elements of a list have that of the list.
-/

namespace Striping

namespace Node

/-- The variant of the values that are present at a node. -/
def variant : Node → Variant
  | leaf _ _ => .scalar
  | requiredStruct _ | optionalStruct _ _ => .struct
  | list _ _ _ _ => .list

variable {α : Type}

/-- The failure to write a value where the column has something else. -/
def mismatch (column : String) (node : Node) (value : Nested α) : Error :=
  .unsupportedShape column (.wrongVariant value.variant node.variant)

/-- Checks that a value has the nesting of a node. -/
def validate (column : String) : Node → Nested α → Except Error Unit
  | leaf none _, .null => .error (.nullWrite column "scalar")
  | leaf _ _, .null => .ok ()
  | leaf _ _, .scalar _ => .ok ()
  | requiredStruct _, .null => .error (.nullWrite column "struct")
  | requiredStruct member, .struct value => member.validate column value
  | optionalStruct _ _, .null => .ok ()
  | optionalStruct _ member, .struct value => member.validate column value
  | list none _ _ _, .null => .error (.nullWrite column "array")
  | list _ _ _ _, .null => .ok ()
  | list _ _ _ element, .list items => items.forM (element.validate column)
  | node, value => .error (mismatch column node value)

/-- The positions of the items of a list, the first of which is reached at one
repetition level and all others at another one. -/
def shredItems {P : Type} (shred : Nested α → Level → Except Error (List (Position P)))
    (first later : Level) : List (Nested α) → Except Error (List (Position P))
  | [] => .ok []
  | item :: rest => do
    let positions ← shred item first
    let others ← shredItems shred later later rest
    return positions ++ others

/-- The positions of a value that is reached at a repetition level. -/
def shred (t : LeafType) (column : String) :
    Node → Nested t.Value → Level → Except Error (List (Position t.Physical))
  | leaf _ valueLevel, .scalar value, repetition =>
    .ok [⟨⟨valueLevel, repetition⟩, some (t.toPhysical value)⟩]
  | leaf (some nullLevel) _, .null, repetition => .ok [⟨⟨nullLevel, repetition⟩, none⟩]
  | leaf none _, .null, _ => .error (.nullWrite column "scalar")
  | requiredStruct member, .struct value, repetition => member.shred t column value repetition
  | requiredStruct _, .null, _ => .error (.nullWrite column "struct")
  | optionalStruct _ member, .struct value, repetition => member.shred t column value repetition
  | optionalStruct nullLevel _, .null, repetition => .ok [⟨⟨nullLevel, repetition⟩, none⟩]
  | list (some nullLevel) _ _ _, .null, repetition => .ok [⟨⟨nullLevel, repetition⟩, none⟩]
  | list none _ _ _, .null, _ => .error (.nullWrite column "array")
  | list _ emptyLevel _ _, .list [], repetition => .ok [⟨⟨emptyLevel, repetition⟩, none⟩]
  | list _ _ repetitionLevel element, .list (item :: rest), repetition =>
    shredItems (element.shred t column) repetition repetitionLevel (item :: rest)
  | node, value, _ => .error (mismatch column node value)

end Node

end Striping
