import Striping.Number.Notation
import Striping.Record.Value
import Striping.Text.Quoted

/-!
# Record text

* `Value.render`: a value as it is shown to people. Structs put each member on a line of
  its own, two blanks further in than the struct itself.
-/

namespace Striping.Value

/-- So many blanks. -/
def blanks (n : Nat) : String := String.ofList (List.replicate n ' ')

mutual

/-- The text of a value inside of structs that are moved in by `indent` blanks. -/
def renderAt (indent : Nat) : Value → String
  | null => "Value::Null"
  | boolean v => "Value::Boolean(" ++ toString v ++ ")"
  | int32 v => "Value::Int32(" ++ toString v ++ ")"
  | int64 v => "Value::Int64(" ++ toString v ++ ")"
  | float v => "Value::Float(" ++ v.render ++ ")"
  | double v => "Value::Double(" ++ v.render ++ ")"
  | string v => "Value::String(" ++ Text.quote v ++ ")"
  | binary v => "Value::Binary(" ++ toString v.size ++ " bytes)"
  | list items => "Value::List(items: [" ++ ", ".intercalate (renderItems indent items) ++ "])"
  | map entries =>
    "Value::Map(\x7b" ++ ", ".intercalate (renderEntries indent entries) ++ "\x7d)"
  | struct [] => "Value::Struct(\x7b\x7d)"
  | struct (member :: rest) =>
    "\x7b\n" ++ String.join (renderMembers (indent + 2) (member :: rest)) ++ blanks indent ++ "\x7d"

/-- The texts of the items of a list. -/
def renderItems (indent : Nat) : List Value → List String
  | [] => []
  | v :: rest => v.renderAt indent :: renderItems indent rest

/-- The texts of the entries of a map. -/
def renderEntries (indent : Nat) : List (Value × Value) → List String
  | [] => []
  | (k, v) :: rest =>
    (k.renderAt indent ++ " => " ++ v.renderAt indent) :: renderEntries indent rest

/-- The lines of the members of a struct. -/
def renderMembers (indent : Nat) : List (String × Value) → List String
  | [] => []
  | (name, v) :: rest =>
    (blanks indent ++ name ++ ": " ++ v.renderAt indent ++ ",\n") :: renderMembers indent rest

end

/-- The text of a value. -/
def render (v : Value) : String := v.renderAt 0

instance : ToString Value := ⟨render⟩

end Striping.Value
