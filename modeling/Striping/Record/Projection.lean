import Striping.Error
import Striping.Nested
import Striping.Path
import Striping.Record.Value
import Striping.Schema.Leaves

/-!
# Projecting records onto columns

A column sees of a record the values along its own path.

* `Value.checkMembers`: every member of every struct is declared, and is there once.
* `projectRecord`: the slice of a record that a column sees. Where members are missing,
  a required list or map is empty and everything else is null.
-/

namespace Striping

namespace Value

mutual

/-- Checks the members of all structs inside a value of a type. Where the value does not
have the form of the type there is nothing to check. -/
def checkProperties : Value → DataType → Path → Except Error Unit
  | struct members, .struct fields, path => checkMembers members fields path []
  | list items, .list element, path => checkItems items element.type path
  | map entries, .map key value, path => checkEntries entries key.type value.type path
  | _, _, _ => .ok ()

/-- Checks the items of a list. -/
def checkItems : List Value → DataType → Path → Except Error Unit
  | [], _, _ => .ok ()
  | v :: rest, type, path =>
    match v.checkProperties type path with
    | .error e => .error e
    | .ok () => checkItems rest type path

/-- Checks the entries of a map. -/
def checkEntries : List (Value × Value) → DataType → DataType → Path → Except Error Unit
  | [], _, _, _ => .ok ()
  | (k, v) :: rest, keyType, valueType, path =>
    match k.checkProperties keyType path with
    | .error e => .error e
    | .ok () =>
      match v.checkProperties valueType path with
      | .error e => .error e
      | .ok () => checkEntries rest keyType valueType path

/-- Checks the members of a struct. `seen` holds the names that came before. -/
def checkMembers :
    List (String × Value) → List Field → Path → List String → Except Error Unit
  | [], _, _, _ => .ok ()
  | (name, v) :: rest, fields, path, seen =>
    if name ∈ seen then .error (.duplicateProperty name path.render)
    else
      match Field.find? fields name with
      | none => .error (.unknownProperty name path.render)
      | some f =>
        match v.checkProperties f.type (path.append name) with
        | .error e => .error e
        | .ok () => checkMembers rest fields path (name :: seen)

end

/-- The failure of a record that is not a struct. -/
def notRecord : Error := .typeMismatch Path.root.render "Struct"

/-- Checks the members of all structs inside a record, which has to be one itself. -/
def checkRecord (fields : List Field) : Value → Except Error Unit
  | struct members => checkMembers members fields .root []
  | _ => .error notRecord

end Value

/-- The failure of a value that does not have the form of its type. -/
def DataType.mismatch (type : DataType) (column : Path) : Error :=
  .typeMismatch column.render type.label

mutual

/-- The slice of the value of a field that a column sees. `rest` is the path of the
column below the field. -/
def Field.project : Field → Option Value → List String → Path → Except Error (Nested Cell)
  | .mk _ type optional, none, _, _ =>
    if !optional && type.isRepeated then .ok (.list []) else .ok .null
  | .mk _ _ _, some .null, _, _ => .ok .null
  | .mk _ type _, some value, rest, column =>
    if value.matchesType type then type.project value rest column
    else .error (type.mismatch column)

/-- The slice of a value that has the form of a type and is not null. Below a list or a
map the path first names its groups; below a map it goes to the keys if it has their
name. -/
def DataType.project : DataType → Value → List String → Path → Except Error (Nested Cell)
  | .struct fields, .struct members, rest, column =>
    match rest with
    | [] => .error ((DataType.struct fields).mismatch column)
    | name :: rest =>
      (Field.projectMember fields (.struct fields) name (Value.find? members name) rest
        column).map .struct
  | .list element, .list items, rest, column =>
    (items.mapM fun item => element.project (some item) (rest.drop 2) column).map .list
  | .map key value, .map entries, rest, column =>
    if rest[1]? = some keyName then
      (entries.mapM fun entry => key.project (some entry.1) (rest.drop 2) column).map .list
    else
      (entries.mapM fun entry => value.project (some entry.2) (rest.drop 2) column).map .list
  | type, value, _, column =>
    match value.toCell? with
    | some cell => .ok (.scalar cell)
    | none => .error (type.mismatch column)

/-- The slice of the member with the given name, by the first field of that name. -/
def Field.projectMember :
    List Field → DataType → String → Option Value → List String → Path →
      Except Error (Nested Cell)
  | [], type, _, _, _, column => .error (type.mismatch column)
  | f :: fields, type, name, value, rest, column =>
    if f.name == name then f.project value rest column
    else Field.projectMember fields type name value rest column

end

/-- The slice of a record that a column sees. -/
def projectRecord (fields : List Field) (record : Value) (column : Path) :
    Except Error (Nested Cell) :=
  match record with
  | .struct members =>
    match column.parts with
    | [] => .error (.invalidArgument .rootColumn)
    | name :: rest =>
      match Field.find? fields name with
      | none => .error (.invalidArgument (.foreignColumn column.render))
      | some f => f.project (Value.find? members name) rest column
  | _ => .error Value.notRecord

end Striping
