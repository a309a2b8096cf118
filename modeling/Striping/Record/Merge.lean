import Striping.Leaf.Conversion
import Striping.Nested
import Striping.Record.Value

/-!
# Merging columns into records

The slices of a record in all its columns are put together again. Columns below the same
field have to agree on nulls, on lengths of lists and on what is a struct.

* `Field.merge`: the value of a field from its columns, in the order of the schema.
* `mergeRecord`: a record from one row of all columns.
-/

namespace Striping

/-- The failure of columns that do not fit together. -/
def mergeFault (field : String) (fault : StreamFault) : Error := .corruptStream field ⟨0, 0⟩ fault

/-- The first `n` entries of some columns, one row after the other. -/
def rowsOf {α : Type} : Nat → List (List α) → List (List α)
  | 0, _ => []
  | n + 1, columns => columns.filterMap List.head? :: rowsOf n (columns.map List.tail)

/-- The items of list columns that are all as long as the first one, which has `length`
items. -/
def listItems (field : String) (length : Nat) :
    List (Nested Cell) → Except Error (List (List (Nested Cell)))
  | [] => .ok []
  | .list items :: rest =>
    if items.length = length then (listItems field length rest).map (items :: ·)
    else .error (mergeFault field .unevenLists)
  | column :: _ => .error (mergeFault field (.notList column.variant))

/-- The items of list columns, one row for each element of the list. -/
def transpose (field : String) (columns : List (Nested Cell)) :
    Except Error (List (List (Nested Cell))) :=
  let length :=
    match columns with
    | .list items :: _ => items.length
    | _ => 0
  (listItems field length columns).map (rowsOf length)

/-- The members of struct columns. -/
def structMembers (field : String) : List (Nested Cell) → Except Error (List (Nested Cell))
  | [] => .ok []
  | .struct member :: rest => (structMembers field rest).map (member :: ·)
  | column :: _ => .error (mergeFault field (.notStruct column.variant))

/-- The leaf value with the given stored form. -/
def Primitive.toValue (field : String) : Primitive → Cell → Except Error Value
  | .boolean, .boolean v => .ok (.boolean v)
  | .int32, .int32 v => .ok (.int32 v)
  | .int64, .int64 v => .ok (.int64 v)
  | .float, .float v => .ok (.float v)
  | .double, .double v => .ok (.double v)
  | .string, .byteArray v => (LeafType.textOf v).map .string
  | .binary, .byteArray v => .ok (.binary v)
  | leaf, c => .error (.conversion "Value" (.wrongType c.physicalType leaf.label field))

mutual

/-- The value of a field from its columns. A field without columns holds no leaves; it is
null if it can be, and otherwise a struct without members. -/
def Field.merge : Field → List (Nested Cell) → Except Error Value
  | .mk _ _ optional, [] => .ok (if optional then .null else .struct [])
  | .mk name type _, first :: others =>
    if first.isNull then
      if others.all Nested.isNull then .ok .null else .error (mergeFault name .mixedNull)
    else type.merge name (first :: others)

/-- The value of a type from its columns, the first of which is not null. -/
def DataType.merge : DataType → String → List (Nested Cell) → Except Error Value
  | .primitive leaf, field, columns =>
    match columns with
    | [] => .ok .null
    | .scalar c :: _ => leaf.toValue field c
    | column :: _ => .error (mergeFault field (.notLeaf column.variant))
  | .list element, field, columns =>
    match transpose field columns with
    | .error e => .error e
    | .ok rows => (rows.mapM element.merge).map .list
  | .map key value, field, columns =>
    match transpose field columns with
    | .error e => .error e
    | .ok rows =>
      (rows.mapM fun (row : List (Nested Cell)) => do
        let k ← key.merge (row.take key.leafCount)
        let v ← value.merge (row.drop key.leafCount)
        return (k, v)).map .map
  | .struct fields, field, columns => (Field.mergeMembers fields field columns).map .struct

/-- The members of a struct from its columns. -/
def Field.mergeMembers :
    List Field → String → List (Nested Cell) → Except Error (List (String × Value))
  | [], _, _ => .ok []
  | f :: fields, field, columns =>
    match structMembers field (columns.take f.leafCount) with
    | .error e => .error e
    | .ok own =>
      match f.merge own with
      | .error e => .error e
      | .ok v =>
        (Field.mergeMembers fields field (columns.drop f.leafCount)).map ((f.name, v) :: ·)

end

/-- The members of a record from one row of all columns. -/
def mergeFields : List Field → List (Nested Cell) → Except Error (List (String × Value))
  | [], _ => .ok []
  | f :: fields, row =>
    match f.merge (row.take f.leafCount) with
    | .error e => .error e
    | .ok v => (mergeFields fields (row.drop f.leafCount)).map ((f.name, v) :: ·)

/-- The record with one row of all columns. -/
def mergeRecord (fields : List Field) (row : List (Nested Cell)) : Except Error Value :=
  (mergeFields fields row).map .struct

end Striping
