import Striping.Proofs.Steps
import Striping.Record.Projection

/-!
# Slices of values

Which values have slices, and what the slices look like.

* `Value.exists_items` and so on: the form of a value that is there.
* `DataType.project_list` and so on: the slice of a list, of a map, of a struct.
* `Field.SeesEntry`: the slice of an entry of a map.
* `projectRecord_struct`: the slice of a record.
-/

namespace Striping

section Forms

variable {v : Value}

theorem Value.exists_items {element : Field} (hm : v.matchesType (.list element) = true)
    (hv : v ≠ .null) : ∃ items, v = .list items := by
  cases v with
  | null => exact absurd rfl hv
  | list items => exact ⟨items, rfl⟩
  | _ => cases hm

theorem Value.exists_entries {key value : Field} (hm : v.matchesType (.map key value) = true)
    (hv : v ≠ .null) : ∃ entries, v = .map entries := by
  cases v with
  | null => exact absurd rfl hv
  | map entries => exact ⟨entries, rfl⟩
  | _ => cases hm

theorem Value.exists_members {fields : List Field} (hm : v.matchesType (.struct fields) = true)
    (hv : v ≠ .null) : ∃ members, v = .struct members := by
  cases v with
  | null => exact absurd rfl hv
  | struct members => exact ⟨members, rfl⟩
  | _ => cases hm

end Forms

section Slices

variable {type : DataType} {v : Value} {rest : List String} {c : Path} {n : Nested Cell}

theorem Field.project_of_ne_null {name : String} {optional : Bool} (hv : v ≠ .null) :
    (Field.mk name type optional).project (some v) rest c =
      if v.matchesType type then type.project v rest c
      else .error (type.mismatch c) := by
  cases v with
  | null => exact absurd rfl hv
  | _ => rfl

theorem Field.projectMember_eq_ok_iff {fields : List Field} {name : String} {m : Option Value} :
    Field.projectMember fields type name m rest c = .ok n ↔
      ∃ f, Field.find? fields name = some f ∧ f.project m rest c = .ok n := by
  unfold Field.find?
  induction fields with
  | nil =>
    constructor
    · intro h; cases h
    · rintro ⟨_, h, -⟩; cases h
  | cons f fields ih =>
    rw [Field.projectMember, List.find?_cons]
    by_cases hn : f.name == name
    · rw [if_pos hn, hn]
      constructor
      · intro h
        exact ⟨f, rfl, h⟩
      · rintro ⟨f', hf, hp⟩
        obtain rfl := Option.some.inj hf
        exact hp
    · rw [if_neg hn, Bool.eq_false_iff.2 hn]
      exact ih

/-- The slice of a value that is there is there. -/
theorem DataType.project_isNull (h : type.project v rest c = .ok n) : n.isNull = false := by
  unfold DataType.project at h
  split at h
  · split at h
    · cases h
    · obtain ⟨_, -, rfl⟩ := map_eq_ok_iff.1 h
      rfl
  · obtain ⟨_, -, rfl⟩ := map_eq_ok_iff.1 h
    rfl
  · split at h
    · obtain ⟨_, -, rfl⟩ := map_eq_ok_iff.1 h
      rfl
    · obtain ⟨_, -, rfl⟩ := map_eq_ok_iff.1 h
      rfl
  · split at h
    · obtain rfl := Except.ok.inj h
      rfl
    · cases h

/-- The slice of a list holds a slice of each item. -/
theorem map_list_eq_ok_iff {ι : Type} {f : ι → Except Error (Nested Cell)} {is : List ι} :
    (is.mapM f).map Nested.list = .ok n ↔
      ∃ column, n = .list column ∧ List.Forall₂ (fun i n => f i = .ok n) is column := by
  rw [map_eq_ok_iff]
  constructor
  · rintro ⟨column, h, rfl⟩
    exact ⟨column, rfl, mapM_eq_ok_iff.1 h⟩
  · rintro ⟨column, rfl, h⟩
    exact ⟨column, mapM_eq_ok_iff.2 h, rfl⟩

theorem DataType.project_list {element : Field} {items : List Value} :
    (DataType.list element).project (.list items) rest c = .ok n ↔
      ∃ column, n = .list column ∧ List.Forall₂
        (fun item n => element.project (some item) (rest.drop 2) c = .ok n) items column := by
  rw [DataType.project, map_list_eq_ok_iff]

theorem DataType.project_map {key value : Field} {entries : List (Value × Value)} :
    (DataType.map key value).project (.map entries) rest c = .ok n ↔
      ∃ column, n = .list column ∧ List.Forall₂
        (fun entry n => if rest[1]? = some keyName
          then key.project (some entry.1) (rest.drop 2) c = .ok n
          else value.project (some entry.2) (rest.drop 2) c = .ok n) entries column := by
  rw [DataType.project]
  split <;> exact map_list_eq_ok_iff

/-- What a column of a map sees of an entry. Below the group of the entries comes the name of the
key or of the value. -/
def Field.SeesEntry (key value : Field) (path : List String) (c : Path) (entry : Value × Value)
    (n : Nested Cell) : Prop :=
  if path.head? = some keyName then key.project (some entry.1) path.tail c = .ok n
  else value.project (some entry.2) path.tail c = .ok n

/-- The slice of a map holds what is seen of each entry. -/
theorem DataType.project_entries {key value : Field} {entries : List (Value × Value)}
    {group : String} {path : List String} :
    (DataType.map key value).project (.map entries) (group :: path) c = .ok n ↔
      ∃ column, n = .list column ∧
        List.Forall₂ (Field.SeesEntry key value path c) entries column := by
  rw [DataType.project_map]
  cases path <;> exact Iff.rfl

theorem DataType.project_struct {fields : List Field} {members : List (String × Value)} :
    (DataType.struct fields).project (.struct members) rest c = .ok n ↔
      ∃ name below f m, rest = name :: below ∧ Field.find? fields name = some f ∧
        f.project (Value.find? members name) below c = .ok m ∧ n = .struct m := by
  cases rest with
  | nil =>
    constructor
    · intro h; cases h
    · rintro ⟨name, below, f, m, h, -⟩; cases h
  | cons name below =>
    rw [DataType.project, map_eq_ok_iff]
    constructor
    · rintro ⟨m, h, rfl⟩
      obtain ⟨f, hf, hm⟩ := Field.projectMember_eq_ok_iff.1 h
      exact ⟨name, below, f, m, rfl, hf, hm, rfl⟩
    · rintro ⟨_, _, f, m, ⟨⟩, hf, hm, rfl⟩
      exact ⟨m, Field.projectMember_eq_ok_iff.2 ⟨f, hf, hm⟩, rfl⟩

/-- Only a struct has slices as a record. -/
theorem exists_members_of_projectRecord {fields : List Field} {record : Value}
    (h : projectRecord fields record c = .ok n) : ∃ members, record = .struct members := by
  cases record with
  | struct members => exact ⟨members, rfl⟩
  | _ => cases h

theorem projectRecord_struct {fields : List Field} {members : List (String × Value)} :
    projectRecord fields (.struct members) c = .ok n ↔
      ∃ name rest f, c.parts = name :: rest ∧ Field.find? fields name = some f ∧
        f.project (Value.find? members name) rest c = .ok n := by
  simp only [projectRecord]
  constructor
  · intro h
    split at h
    · cases h
    · rename_i name rest hpath
      split at h
      · cases h
      · rename_i f hf
        exact ⟨name, rest, f, hpath, hf, h⟩
  · rintro ⟨name, rest, f, hpath, hf, h⟩
    simp only [hpath, hf, h]

end Slices

end Striping
