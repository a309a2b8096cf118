import Striping.Schema.Basic

/-!
# Schema text

* `Field.render`, `DataType.render`: a field as name, repetition and type. The members of
  a struct stand on lines of their own, one blank further in than those around them.
* `Schema.render`.
-/

namespace Striping

namespace Field

/-- Drops a carriage return at the end of a line. -/
def dropReturn (line : List Char) : List Char :=
  if line.getLast? = some '\r' then line.dropLast else line

/-- The lines of a text in which every line is ended. -/
def endedLines (cs : List Char) : List (List Char) := (cs.splitOn '\n').dropLast.map dropReturn

/-- The body of a struct: one ended line for each member, moved in by one blank. The ends
of all lines but the last stay. -/
def indent (body : String) : String :=
  "\n".intercalate ((endedLines body.toList).map fun line => " " ++ String.ofList line)

end Field

mutual

/-- The text of a type. -/
def DataType.render : DataType → String
  | .primitive leaf => leaf.label
  | .list element => "List [ " ++ element.render ++ " ]"
  | .map key value => "Map [ " ++ key.render ++ ", " ++ value.render ++ " ]"
  | .struct fields => "Struct \x7b\n" ++ Field.indent (Field.renderMembers fields) ++ "\n\x7d"

/-- The text of a field. -/
def Field.render : Field → String
  | .mk name type optional =>
    name ++ " " ++ (if optional then Repetition.optional else .required).label ++ " " ++
      type.render

/-- The lines of the members of a struct, before they are moved in. -/
def Field.renderMembers : List Field → String
  | [] => ""
  | f :: rest => "  " ++ f.render ++ ",\n" ++ Field.renderMembers rest

end

/-- The text of a schema. -/
def Schema.render (s : Schema) : String :=
  s.name ++ " \x7b\n" ++ String.join (s.fields.map fun f => f.render ++ "\n") ++ "\x7d\n"

end Striping
