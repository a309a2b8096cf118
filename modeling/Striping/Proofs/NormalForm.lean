import Striping.Proofs.Conversion
import Striping.Proofs.LeafColumns
import Striping.Proofs.Projection
import Striping.Record.Merge

/-!
# The normal form of a record

Records come back with every member named. What is merged from the slices of a record is
its normal form.

* `GroupRule`, `DataType.Obeys`: conditions on all structs and maps of a type. `Schema.Sane`,
  `Schema.Named`, `Schema.Distinct`: the schemas in which names tell columns apart.
* `Field.normalize`, `normalizeRecord`: the normal form.
* `Field.Sees`: the slices of a value in all columns of a field.
* `rowsOf_forall₂`: the items of list columns, taken row by row.
* `Field.merge_of_sees`, `mergeRecord_of_project`: **slices merge into the normal form**.
-/

namespace Striping

section Groups

/-- Conditions on the groups of a type. -/
structure GroupRule where
  /-- What has to hold of the members of a struct. -/
  struct : List Field → Prop
  /-- What has to hold of the key and the value of a map. -/
  map : Field → Field → Prop

namespace GroupRule

/-- Names tell the members of a struct apart, and the key of a map, and nothing else, has the name
of keys. -/
def named : GroupRule where
  struct fields := (fields.map Field.name).Nodup
  map key value := key.name = keyName ∧ value.name ≠ keyName

/-- In addition every struct has a member. -/
def sane : GroupRule where
  struct fields := fields ≠ [] ∧ (fields.map Field.name).Nodup
  map key value := key.name = keyName ∧ value.name ≠ keyName

/-- Names tell the members of a struct apart, and the key and the value of a map. -/
def distinct : GroupRule where
  struct fields := (fields.map Field.name).Nodup
  map key value := key.name ≠ value.name

end GroupRule

mutual

/-- A field all groups of whose type obey a rule. -/
def Field.Obeys (rule : GroupRule) : Field → Prop
  | .mk _ type _ => type.Obeys rule

/-- A type all of whose groups obey a rule, at every depth. -/
def DataType.Obeys (rule : GroupRule) : DataType → Prop
  | .primitive _ => True
  | .list element => element.Obeys rule
  | .map key value => rule.map key value ∧ key.Obeys rule ∧ value.Obeys rule
  | .struct fields => rule.struct fields ∧ Field.AllObey rule fields

/-- Fields all of which do. -/
def Field.AllObey (rule : GroupRule) : List Field → Prop
  | [] => True
  | f :: rest => f.Obeys rule ∧ Field.AllObey rule rest

end

/-- A schema in which every struct, the records among them, has members with different names, and
every map names its key, and nothing else, by the name of keys. -/
def Schema.Sane (s : Schema) : Prop := (DataType.struct s.fields).Obeys .sane

/-- A schema in which the members of every struct have different names, and every map names its key,
and nothing else, by the name of keys. Structs may be without members. -/
def Schema.Named (s : Schema) : Prop := (DataType.struct s.fields).Obeys .named

/-- A schema in which the members of every struct have different names, and so have the key and the
value of every map. -/
def Schema.Distinct (s : Schema) : Prop := (DataType.struct s.fields).Obeys .distinct

variable {rule rule' : GroupRule}

theorem Field.Obeys.type {f : Field} (h : f.Obeys rule) : f.type.Obeys rule := by
  obtain ⟨name, type, optional⟩ := f
  exact h

theorem Field.obeys_of_mem {fields : List Field} (h : Field.AllObey rule fields) {f : Field}
    (hf : f ∈ fields) : f.Obeys rule := by
  induction fields with
  | nil => cases hf
  | cons g fields ih =>
    rcases List.mem_cons.1 hf with rfl | hf
    · exact h.1
    · exact ih h.2 hf

/-- A rule that asks for no less than another one. -/
structure GroupRule.Implies (rule rule' : GroupRule) : Prop where
  struct : ∀ fields, rule.struct fields → rule'.struct fields
  map : ∀ key value, rule.map key value → rule'.map key value

mutual

theorem Field.Obeys.imp (hr : rule.Implies rule') : (f : Field) → f.Obeys rule → f.Obeys rule'
  | .mk _ type _, h => DataType.Obeys.imp hr type h

/-- **Groups that obey a rule obey those that it implies.** -/
theorem DataType.Obeys.imp (hr : rule.Implies rule') :
    (type : DataType) → type.Obeys rule → type.Obeys rule'
  | .primitive _, _ => trivial
  | .list element, h => Field.Obeys.imp hr element h
  | .map key value, ⟨h, hk, hv⟩ =>
    ⟨hr.map key value h, Field.Obeys.imp hr key hk, Field.Obeys.imp hr value hv⟩
  | .struct fields, ⟨h, hs⟩ => ⟨hr.struct fields h, Field.AllObey.imp hr fields hs⟩

theorem Field.AllObey.imp (hr : rule.Implies rule') :
    (fields : List Field) → Field.AllObey rule fields → Field.AllObey rule' fields
  | [], _ => trivial
  | f :: rest, ⟨h, hs⟩ => ⟨Field.Obeys.imp hr f h, Field.AllObey.imp hr rest hs⟩

end

/-- In a sane schema names tell siblings apart. -/
theorem Schema.Sane.distinct {s : Schema} (hs : s.Sane) : s.Distinct := by
  have hr : GroupRule.sane.Implies .distinct := by
    constructor
    · intro fields h
      exact h.2
    · intro key value h heq
      exact h.2 (heq.symm.trans h.1)
  exact DataType.Obeys.imp hr (.struct s.fields) hs

end Groups

/-- The value that is there for a missing member: an empty list or map if it has to be there
and can be empty, and null otherwise. -/
def DataType.missing : DataType → Bool → Value
  | .list _, false => .list []
  | .map _ _, false => .map []
  | _, _ => .null

mutual

/-- The normal form of a member, which may be missing. -/
def Field.normalize : Field → Option Value → Value
  | .mk _ type optional, none => type.missing optional
  | .mk _ type _, some v => type.normalize v

/-- The normal form of a value: every struct in it has all the members of its type, in the
order of the type. -/
def DataType.normalize : DataType → Value → Value
  | .list element, .list items => .list (items.map fun item => element.normalize (some item))
  | .map key value, .map entries =>
    .map (entries.map fun entry => (key.normalize (some entry.1), value.normalize (some entry.2)))
  | .struct fields, .struct members => .struct (Field.normalizeMembers fields members)
  | _, v => v

/-- The members of the given fields, in order. -/
def Field.normalizeMembers : List Field → List (String × Value) → List (String × Value)
  | [], _ => []
  | f :: fields, members =>
    (f.name, f.normalize (Value.find? members f.name)) :: Field.normalizeMembers fields members

end

/-- The normal form of a record. -/
def normalizeRecord (fields : List Field) (record : Value) : Value :=
  (DataType.struct fields).normalize record

theorem DataType.normalize_null (type : DataType) : type.normalize .null = .null := by
  cases type <;> rfl

mutual

/-- There is a leaf below every field. -/
theorem Field.type_leaves_ne_nil : (f : Field) → f.Obeys .sane → f.type.leaves ≠ []
  | .mk _ type _, hs => type.leaves_ne_nil hs

theorem DataType.leaves_ne_nil : (type : DataType) → type.Obeys .sane → type.leaves ≠ []
  | .primitive _, _ => List.cons_ne_nil _ _
  | .list (.mk _ type _), hs => by
    have := type.leaves_ne_nil hs
    rw [DataType.leaves, Field.leaves]
    simp [this]
  | .map (.mk _ type _) _, hs => by
    have := type.leaves_ne_nil hs.2.1
    rw [DataType.leaves, Field.leaves]
    simp [this]
  | .struct [], ⟨⟨hne, _⟩, _⟩ => absurd rfl hne
  | .struct (.mk _ type _ :: _), hs => by
    have := type.leaves_ne_nil hs.2.1
    rw [DataType.leaves, Field.allLeaves, Field.leaves]
    simp [this]

end

section Transposing

variable {α ι κ : Type}

/-- **Rows across columns.** What each column holds along the items, each row holds along the
columns. -/
theorem rowsOf_forall₂ {R : ι → κ → α → Prop} {is : List ι} {ks : List κ}
    {columns : List (List α)}
    (h : List.Forall₂ (fun i column => List.Forall₂ (R i) ks column) is columns) :
    List.Forall₂ (fun k row => List.Forall₂ (fun i a => R i k a) is row) ks
      (rowsOf ks.length columns) := by
  induction ks generalizing columns with
  | nil => exact .nil
  | cons k ks ih =>
    rw [List.length_cons, rowsOf]
    -- the first row, and the columns without it
    have hsplit : List.Forall₂ (fun i a => R i k a) is (columns.filterMap List.head?) ∧
        List.Forall₂ (fun i column => List.Forall₂ (R i) ks column) is
          (columns.map List.tail) := by
      clear ih
      induction h with
      | nil => exact ⟨.nil, .nil⟩
      | cons hc _ ihc =>
        obtain _ | ⟨ha, hrest⟩ := hc
        exact ⟨.cons ha ihc.1, .cons hrest ihc.2⟩
    exact .cons hsplit.1 (ih hsplit.2)

/-- List columns of one length give their items. -/
theorem transpose_lists {field : String} {n : Nat} {columns : List (List (Nested Cell))}
    (hn : ∀ column ∈ columns, column.length = n) (hne : columns ≠ []) :
    transpose field (columns.map .list) = .ok (rowsOf n columns) := by
  have hitems : listItems field n (columns.map .list) = .ok columns := by
    clear hne
    induction columns with
    | nil => rfl
    | cons column columns ih =>
      rw [List.forall_mem_cons] at hn
      rw [List.map_cons, listItems, if_pos hn.1, ih hn.2]
      rfl
  obtain ⟨column, columns, rfl⟩ := List.exists_cons_of_ne_nil hne
  have hlen : column.length = n := hn column List.mem_cons_self
  unfold transpose
  rw [List.map_cons] at hitems ⊢
  simp only [hlen, hitems]
  rfl

/-- List columns along the same items are taken apart into rows, one for each item. -/
theorem transpose_of_forall₂ {R : ι → κ → Nested Cell → Prop} {is : List ι} {ks : List κ}
    {columns : List (List (Nested Cell))} (field : String) (hne : is ≠ [])
    (h : List.Forall₂ (fun i column => List.Forall₂ (R i) ks column) is columns) :
    ∃ rows, transpose field (columns.map .list) = .ok rows ∧
      List.Forall₂ (fun row k => List.Forall₂ (fun i a => R i k a) is row) rows ks := by
  have hlen : ∀ column ∈ columns, column.length = ks.length := by
    intro column hmem
    obtain ⟨i, -, hi⟩ := exists_of_forall₂ h hmem
    exact hi.length_eq.symm
  have hcolumns : columns ≠ [] := by
    rintro rfl
    exact hne (List.forall₂_nil_right_iff.1 h)
  exact ⟨_, transpose_lists hlen hcolumns, (rowsOf_forall₂ h).flip⟩

/-- Struct columns give their members. -/
theorem structMembers_structs (field : String) (columns : List (Nested Cell)) :
    structMembers field (columns.map .struct) = .ok columns := by
  induction columns with
  | nil => rfl
  | cons column columns ih =>
    rw [List.map_cons, structMembers, ih]
    rfl

/-- The members of a struct are merged like those of a record. -/
theorem mergeMembers_structs (fields : List Field) (field : String)
    (columns : List (Nested Cell)) :
    Field.mergeMembers fields field (columns.map .struct) = mergeFields fields columns := by
  induction fields generalizing columns with
  | nil => rfl
  | cons f fields ih =>
    rw [Field.mergeMembers, mergeFields, ← List.map_take, ← List.map_drop,
      structMembers_structs, ih]

end Transposing

/-- The slices of a member in all columns of its field. -/
def Field.Sees (f : Field) (v : Option Value) (slices : List (Nested Cell)) : Prop :=
  List.Forall₂ (fun l n => ∃ column, f.project v l.path column = .ok n) f.type.leaves slices

/-- The slices of a value in all columns of its type. -/
def DataType.Sees (type : DataType) (v : Value) (slices : List (Nested Cell)) : Prop :=
  List.Forall₂ (fun l n => ∃ column, type.project v l.path column = .ok n) type.leaves slices

/-- The slice that a column sees of the members of a struct with the given fields. -/
def Field.SeesMember (fields : List Field) (members : List (String × Value)) (l : LeafColumn)
    (n : Nested Cell) : Prop :=
  ∃ name rest f column, l.path = name :: rest ∧ Field.find? fields name = some f ∧
    f.project (Value.find? members name) rest column = .ok n

section Projection

variable {slices : List (Nested Cell)}

/-- The slices of a list hold the slices of its items. -/
theorem DataType.sees_list {element : Field} {items : List Value}
    (h : (DataType.list element).Sees (.list items) slices) :
    ∃ columns, slices = columns.map .list ∧
      List.Forall₂ (fun l column => List.Forall₂
        (fun item n => ∃ c, element.project (some item) l.path c = .ok n) items column)
        element.type.leaves columns := by
  obtain ⟨name, type, optional⟩ := element
  refine forall₂_map_of_exists ?_
  rw [DataType.Sees, DataType.leaves, Field.leaves, List.forall₂_map_left_iff,
    List.forall₂_map_left_iff] at h
  refine h.imp ?_
  rintro l n ⟨c, hn⟩
  obtain ⟨column, rfl, hc⟩ := DataType.project_list.1 hn
  exact ⟨column, rfl, hc.imp fun _ _ hn => ⟨c, hn⟩⟩

/-- The slices of a map hold the slices of its keys or of its values. -/
theorem DataType.sees_map {key value : Field} {entries : List (Value × Value)}
    (h : (DataType.map key value).Sees (.map entries) slices) :
    ∃ columns, slices = columns.map .list ∧
      List.Forall₂ (fun l column => List.Forall₂
        (fun entry n => if l.path.head? = some keyName
          then ∃ c, key.project (some entry.1) l.path.tail c = .ok n
          else ∃ c, value.project (some entry.2) l.path.tail c = .ok n) entries column)
        (key.leaves ++ value.leaves) columns := by
  refine forall₂_map_of_exists ?_
  rw [DataType.Sees, DataType.leaves, List.forall₂_map_left_iff] at h
  refine h.imp ?_
  rintro l n ⟨c, hn⟩
  obtain ⟨column, rfl, hc⟩ := DataType.project_entries.1 hn
  refine ⟨column, rfl, hc.imp fun entry n hn => ?_⟩
  unfold Field.SeesEntry at hn
  by_cases hpath : l.path.head? = some keyName
  · rw [if_pos hpath] at hn ⊢
    exact ⟨c, hn⟩
  · rw [if_neg hpath] at hn ⊢
    exact ⟨c, hn⟩

/-- The slices of a struct hold the slices of its members. -/
theorem DataType.sees_struct {fields : List Field} {members : List (String × Value)}
    (h : (DataType.struct fields).Sees (.struct members) slices) :
    ∃ columns, slices = columns.map .struct ∧
      List.Forall₂ (Field.SeesMember fields members) (Field.allLeaves fields) columns := by
  refine forall₂_map_of_exists ?_
  rw [DataType.Sees, DataType.leaves] at h
  refine h.imp ?_
  rintro l n ⟨c, hn⟩
  obtain ⟨name, rest, f, m, hpath, hf, hp, rfl⟩ := DataType.project_struct.1 hn
  exact ⟨m, rfl, name, rest, f, c, hpath, hf, hp⟩

end Projection

section Merging

variable {type : DataType} {name : String} {optional : Bool} {v : Value}
  {slices : List (Nested Cell)}

/-- Columns that are all null merge into null. -/
theorem Field.merge_nulls (hne : slices ≠ []) (h : ∀ n ∈ slices, n = .null) :
    (Field.mk name type optional).merge slices = .ok .null := by
  obtain ⟨n, slices, rfl⟩ := List.exists_cons_of_ne_nil hne
  rw [List.forall_mem_cons] at h
  obtain ⟨rfl, h⟩ := h
  have hall : slices.all Nested.isNull = true := by
    rw [List.all_eq_true]
    intro n hn
    rw [h n hn]
    rfl
  have hnull : (Nested.null : Nested Cell).isNull = true := rfl
  rw [Field.merge, if_pos hnull, if_pos hall]

/-- Columns of a value that is there are merged by its type. -/
theorem Field.merge_present (hne : type.leaves ≠ []) (h : type.Sees v slices) :
    (Field.mk name type optional).merge slices = type.merge name slices := by
  obtain ⟨l, leaves, hl⟩ := List.exists_cons_of_ne_nil hne
  rw [DataType.Sees, hl] at h
  obtain _ | ⟨⟨c, hn⟩, hrest⟩ := h
  rw [Field.merge, DataType.project_isNull hn, if_neg Bool.false_ne_true]

/-- The slices of an empty list or map. -/
theorem Field.sees_none_of_isRepeated (hr : type.isRepeated = true)
    (h : (Field.mk name type false).Sees none slices) :
    (type.missing false).matchesType type = true ∧ type.missing false ≠ .null ∧
      type.Sees (type.missing false) slices ∧
      type.normalize (type.missing false) = type.missing false := by
  have hnil : ∀ n c path, (Field.mk name type false).project none path c = .ok n →
      n = .list [] := by
    intro n c path hn
    rw [Field.project, hr] at hn
    exact (Except.ok.inj hn).symm
  cases type with
  | primitive leaf => cases hr
  | struct fields => cases hr
  | list element =>
    refine ⟨rfl, (by intro hn; cases hn), h.imp ?_, rfl⟩
    rintro l n ⟨c, hn⟩
    rw [hnil n c _ hn]
    exact ⟨c, rfl⟩
  | map key value =>
    refine ⟨rfl, (by intro hn; cases hn), h.imp ?_, rfl⟩
    rintro l n ⟨c, hn⟩
    rw [hnil n c _ hn]
    refine ⟨c, ?_⟩
    by_cases hpath : l.path[1]? = some keyName
    · exact if_pos hpath
    · exact if_neg hpath

/-- A member of which every column sees null is merged into null. -/
theorem Field.merge_of_project_null {m : Option Value} (hne : slices ≠ [])
    (hp : ∀ l n c, (Field.mk name type optional).project m l c = .ok n → n = .null)
    (h : (Field.mk name type optional).Sees m slices) :
    (Field.mk name type optional).merge slices = .ok .null := by
  refine Field.merge_nulls hne fun n hn => ?_
  obtain ⟨l, -, c, hl⟩ := exists_of_forall₂ h hn
  exact hp _ n c hl

/-- A value that is there and has a slice has the form of its type. -/
theorem Field.sees_some (hne : slices ≠ []) (hv : v ≠ .null)
    (h : (Field.mk name type optional).Sees (some v) slices) :
    v.matchesType type = true ∧ type.Sees v slices := by
  have hm : v.matchesType type = true := by
    obtain ⟨n, hn⟩ := List.exists_mem_of_ne_nil _ hne
    obtain ⟨l, -, c, hp⟩ := exists_of_forall₂ h hn
    rw [Field.project_of_ne_null hv] at hp
    by_contra hf
    rw [if_neg hf] at hp
    cases hp
  have hsees : type.Sees v slices := by
    refine List.Forall₂.imp ?_ h
    rintro l n ⟨c, hp⟩
    rw [Field.project_of_ne_null hv, if_pos hm] at hp
    exact ⟨c, hp⟩
  exact ⟨hm, hsees⟩

/-- **A field merges like its type**, and a missing member like the one that is put there. -/
theorem Field.merge_of_type (hne : type.leaves ≠ [])
    (ht : ∀ v slices, v.matchesType type = true → v ≠ .null → type.Sees v slices →
      type.merge name slices = .ok (type.normalize v))
    {m : Option Value} (h : (Field.mk name type optional).Sees m slices) :
    (Field.mk name type optional).merge slices =
      .ok ((Field.mk name type optional).normalize m) := by
  have hslices : slices ≠ [] := by
    rintro rfl
    exact hne (List.forall₂_nil_right_iff.1 h)
  cases m with
  | none =>
    -- only a list or a map that has to be there is put there
    by_cases hr : (!optional && type.isRepeated) = true
    · obtain ⟨ho, hr⟩ := Bool.and_eq_true_iff.1 hr
      obtain rfl : optional = false := by simpa using ho
      obtain ⟨hm, hn, hsees, hnorm⟩ := Field.sees_none_of_isRepeated hr h
      rw [Field.merge_present hne hsees, ht _ _ hm hn hsees, hnorm, Field.normalize]
    · have hmissing : type.missing optional = .null := by
        cases type <;> cases optional <;> first | rfl | exact absurd rfl hr
      rw [Field.normalize, hmissing]
      refine Field.merge_of_project_null hslices (fun l n c hp => ?_) h
      rw [Field.project, if_neg hr] at hp
      exact (Except.ok.inj hp).symm
  | some v =>
    by_cases hv : v = .null
    · subst hv
      rw [Field.normalize, type.normalize_null]
      refine Field.merge_of_project_null hslices (fun l n c hp => ?_) h
      exact (Except.ok.inj hp).symm
    · obtain ⟨hm, hsees⟩ := Field.sees_some hslices hv h
      rw [Field.merge_present hne hsees, ht v _ hm hv hsees, Field.normalize]

/-- A leaf value is read back from its stored form. -/
theorem Primitive.toValue_of_toCell {leaf : Primitive} {cell : Cell}
    (hm : v.matchesType (.primitive leaf) = true) (hc : v.toCell? = some cell) :
    leaf.toValue name cell = .ok v := by
  cases leaf <;> cases v <;> simp only [Value.matchesType, Bool.false_eq_true] at hm <;>
    simp only [Value.toCell?, Option.some.injEq, reduceCtorEq] at hc <;> subst hc
  case string.string s =>
    rw [Primitive.toValue, LeafType.textOf_eq_ok_iff.2 rfl]
    rfl
  all_goals rfl

/-- The leaves of a field begin with its name. -/
theorem Field.leaves_eq (f : Field) :
    ∃ frame, f.leaves = f.type.leaves.map (.under f.name frame) := by
  obtain ⟨name, type, optional⟩ := f
  exact ⟨_, rfl⟩

/-- The items of a list are merged one by one. -/
theorem DataType.merge_list {element : Field} {items : List Value}
    (hne : element.type.leaves ≠ [])
    (ih : ∀ m slices, element.Sees m slices → element.merge slices = .ok (element.normalize m))
    (h : (DataType.list element).Sees (.list items) slices) :
    (DataType.list element).merge name slices =
      .ok ((DataType.list element).normalize (.list items)) := by
  obtain ⟨columns, rfl, hc⟩ := DataType.sees_list h
  obtain ⟨rows, htranspose, hrows⟩ := transpose_of_forall₂ name hne hc
  have hmerge : rows.mapM element.merge =
      .ok (items.map fun item => element.normalize (some item)) := by
    refine mapM_eq_ok_iff.2 (List.forall₂_map_right_iff.2 (hrows.imp ?_))
    exact fun row item hrow => ih (some item) row hrow
  rw [DataType.merge, htranspose]
  simp only [hmerge]
  rfl

/-- The slices of an entry are those of its key, then those of its value. -/
theorem Field.sees_entry {key value : Field} {entry : Value × Value} {row : List (Nested Cell)}
    (hk : key.name = keyName) (hv : value.name ≠ keyName)
    (h : List.Forall₂ (fun l n => if l.path.head? = some keyName
      then ∃ c, key.project (some entry.1) l.path.tail c = .ok n
      else ∃ c, value.project (some entry.2) l.path.tail c = .ok n)
        (key.leaves ++ value.leaves) row) :
    key.Sees (some entry.1) (row.take key.leafCount) ∧
      value.Sees (some entry.2) (row.drop key.leafCount) := by
  obtain ⟨kf, hkl⟩ := key.leaves_eq
  obtain ⟨vf, hvl⟩ := value.leaves_eq
  obtain ⟨hkeys, hvalues⟩ := forall₂_split h key.length_leaves
  rw [hkl, List.forall₂_map_left_iff] at hkeys
  rw [hvl, List.forall₂_map_left_iff] at hvalues
  constructor
  · refine hkeys.imp fun l n hn => ?_
    have hpath : (LeafColumn.under key.name kf l).path.head? = some keyName := congrArg some hk
    rwa [if_pos hpath] at hn
  · refine hvalues.imp fun l n hn => ?_
    have hpath : (LeafColumn.under value.name vf l).path.head? ≠ some keyName :=
      fun h => hv (Option.some.inj h)
    rwa [if_neg hpath] at hn

/-- The entries of a map are merged one by one. The keys have the first columns. -/
theorem DataType.merge_map {key value : Field} {entries : List (Value × Value)}
    (hk : key.name = keyName) (hv : value.name ≠ keyName) (hne : key.type.leaves ≠ [])
    (ihk : ∀ m slices, key.Sees m slices → key.merge slices = .ok (key.normalize m))
    (ihv : ∀ m slices, value.Sees m slices → value.merge slices = .ok (value.normalize m))
    (h : (DataType.map key value).Sees (.map entries) slices) :
    (DataType.map key value).merge name slices =
      .ok ((DataType.map key value).normalize (.map entries)) := by
  obtain ⟨columns, rfl, hc⟩ := DataType.sees_map h
  have hleaves : key.leaves ++ value.leaves ≠ [] := by
    obtain ⟨frame, hl⟩ := key.leaves_eq
    intro hnil
    rw [hl, List.append_eq_nil_iff, List.map_eq_nil_iff] at hnil
    exact hne hnil.1
  obtain ⟨rows, htranspose, hrows⟩ := transpose_of_forall₂ name hleaves hc
  have hmerge : rows.mapM (fun (row : List (Nested Cell)) => do
      let k ← key.merge (row.take key.leafCount)
      let v ← value.merge (row.drop key.leafCount)
      return (k, v)) =
      .ok (entries.map fun entry =>
        (key.normalize (some entry.1), value.normalize (some entry.2))) := by
    refine mapM_eq_ok_iff.2 (List.forall₂_map_right_iff.2 (hrows.imp fun row entry hrow => ?_))
    obtain ⟨hkeys, hvalues⟩ := Field.sees_entry hk hv hrow
    show (do
      let k ← key.merge (row.take key.leafCount)
      let v ← value.merge (row.drop key.leafCount)
      return (k, v)) = _
    rw [ihk _ _ hkeys, ihv _ _ hvalues]
    rfl
  rw [DataType.merge, htranspose]
  simp only [hmerge]
  rfl

/-- The slice of a member is that of its field. -/
theorem Field.sees_of_seesMember {fields : List Field} {members : List (String × Value)}
    {f : Field} (hf : Field.find? fields f.name = some f)
    (h : List.Forall₂ (Field.SeesMember fields members) f.leaves slices) :
    f.Sees (Value.find? members f.name) slices := by
  obtain ⟨frame, hl⟩ := f.leaves_eq
  rw [hl, List.forall₂_map_left_iff] at h
  refine h.imp ?_
  rintro l n ⟨name, rest, f', c, hpath, hf', hp⟩
  obtain ⟨rfl, rfl⟩ := List.cons.inj hpath
  obtain rfl := Option.some.inj (hf.symm.trans hf')
  exact ⟨c, hp⟩

/-- A field is found by its name if no other has it. -/
theorem Field.find?_of_nodup {fields : List Field} (h : (fields.map Field.name).Nodup)
    {f : Field} (hf : f ∈ fields) : Field.find? fields f.name = some f := by
  unfold Field.find?
  induction fields with
  | nil => cases hf
  | cons g fields ih =>
    rw [List.map_cons, List.nodup_cons] at h
    rw [List.find?_cons]
    rcases List.mem_cons.1 hf with rfl | hf
    · rw [beq_self_eq_true]
    · have hne : (g.name == f.name) = false := by
        rw [beq_eq_false_iff_ne]
        intro hn
        exact h.1 (hn ▸ List.mem_map_of_mem hf)
      rw [hne]
      exact ih h.2 hf

mutual

/-- **The slices of a member merge into its normal form.** -/
theorem Field.merge_of_sees : (f : Field) → f.Obeys .sane → ∀ m slices, f.Sees m slices →
    f.merge slices = .ok (f.normalize m)
  | .mk name type _, hs, _, _, h =>
    Field.merge_of_type (type.leaves_ne_nil hs) (type.merge_of_sees hs name) h

/-- So do those of a value that is there. -/
theorem DataType.merge_of_sees : (type : DataType) → type.Obeys .sane → ∀ name v slices,
    v.matchesType type = true → v ≠ .null → type.Sees v slices →
      type.merge name slices = .ok (type.normalize v)
  | .primitive leaf, _ => by
    -- a leaf has one column, and a value that is there has its form stored in it
    intro name v slices hm hv h
    obtain _ | ⟨⟨c, hn⟩, hnil⟩ := h
    obtain rfl := List.forall₂_nil_left_iff.1 hnil
    cases hcell : v.toCell? with
    | none => simp [DataType.project, hcell] at hn
    | some cell =>
      obtain rfl : Nested.scalar cell = _ := by simpa [DataType.project, hcell] using hn
      rw [DataType.merge, DataType.normalize]
      · exact Primitive.toValue_of_toCell hm hcell
      all_goals exact fun _ => nofun
  | .list element, hs => by
    intro name v slices hm hv h
    obtain ⟨items, rfl⟩ := Value.exists_items hm hv
    exact DataType.merge_list (element.type_leaves_ne_nil hs) (element.merge_of_sees hs) h
  | .map key value, ⟨⟨hk, hn⟩, hsk, hsv⟩ => by
    intro name v slices hm hv h
    obtain ⟨entries, rfl⟩ := Value.exists_entries hm hv
    exact DataType.merge_map hk hn (key.type_leaves_ne_nil hsk) (key.merge_of_sees hsk)
      (value.merge_of_sees hsv) h
  | .struct fields, ⟨⟨_, hn⟩, hs⟩ => by
    intro name v slices hm hv h
    obtain ⟨members, rfl⟩ := Value.exists_members hm hv
    obtain ⟨columns, rfl, hc⟩ := DataType.sees_struct h
    rw [DataType.merge, mergeMembers_structs,
      Field.mergeFields_of_sees fields hs (fun f hf => Field.find?_of_nodup hn hf) hc]
    rfl

theorem Field.mergeFields_of_sees : (fs : List Field) → Field.AllObey .sane fs →
    ∀ {fields members slices}, (∀ f ∈ fs, Field.find? fields f.name = some f) →
      List.Forall₂ (Field.SeesMember fields members) (Field.allLeaves fs) slices →
      mergeFields fs slices = .ok (Field.normalizeMembers fs members)
  | [], _ => fun _ _ => rfl
  | f :: fs, ⟨hs, hss⟩ => by
    intro hfind h
    rw [List.forall_mem_cons] at hfind
    rw [Field.allLeaves] at h
    obtain ⟨hown, hrest⟩ := forall₂_split h f.length_leaves
    rw [mergeFields, f.merge_of_sees hs _ _ (Field.sees_of_seesMember hfind.1 hown),
      Field.mergeFields_of_sees fs hss hfind.2 hrest]
    rfl

end

/-- There is a column in every sane schema. -/
theorem Schema.columns_ne_nil {s : Schema} (hs : s.Sane) {columns : List Column}
    (hc : s.columns = .ok columns) : columns ≠ [] := by
  rintro rfl
  have hnil := List.forall₂_nil_right_iff.1 (Schema.columns_eq_ok_iff.1 hc)
  exact DataType.leaves_ne_nil (.struct s.fields) hs hnil

/-- A column of a schema has the path of its leaf. -/
theorem LeafColumn.path_of_column {l : LeafColumn} {column : Column}
    (h : l.column .root [] = .ok column) : column.path = ⟨l.path⟩ := by
  unfold LeafColumn.column Column.make at h
  split at h
  · obtain rfl := Except.ok.inj h
    rfl
  · cases h

/-- **The slices of a record merge into its normal form.** -/
theorem mergeRecord_of_project {s : Schema} (hs : s.Sane) {columns : List Column}
    (hc : s.columns = .ok columns) {record : Value} {row : List (Nested Cell)}
    (h : List.Forall₂ (fun column n => projectRecord s.fields record column.path = .ok n)
      columns row) :
    mergeRecord s.fields row = .ok (normalizeRecord s.fields record) := by
  have hleaves := forall₂_trans (Schema.columns_eq_ok_iff.1 hc) h
  have hne : Field.allLeaves s.fields ≠ [] := DataType.leaves_ne_nil _ hs
  -- there is a column, so a record that is projected is a struct
  obtain ⟨members, rfl⟩ : ∃ members, record = .struct members := by
    obtain ⟨l, leaves, hl⟩ := List.exists_cons_of_ne_nil hne
    rw [hl] at hleaves
    obtain _ | ⟨⟨column, -, hp⟩, -⟩ := hleaves
    exact exists_members_of_projectRecord hp
  have hsees : List.Forall₂ (Field.SeesMember s.fields members) (Field.allLeaves s.fields) row := by
    refine hleaves.imp ?_
    rintro l n ⟨column, hmake, hp⟩
    rw [LeafColumn.path_of_column hmake] at hp
    obtain ⟨name, rest, f, hpath, hf, hp⟩ := projectRecord_struct.1 hp
    exact ⟨name, rest, f, _, hpath, hf, hp⟩
  obtain ⟨⟨-, hn⟩, hall⟩ := hs
  unfold mergeRecord
  rw [Field.mergeFields_of_sees s.fields hall (fun f hf => Field.find?_of_nodup hn hf) hsees]
  rfl

end Merging

end Striping
