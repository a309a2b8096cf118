import Mathlib
import Striping.Proofs.Merging
import Striping.Proofs.Reception
import Striping.Proofs.Records
import Striping.Proofs.Routes

/-!
# The records that are accepted

No part of the record writer decides as a whole whether a record conforms to the schema. Members
are checked by `Value.checkRecord`, forms of values by the projection onto the columns, and nulls
by the check of the slices. Together they visit every part of a record.

* `Value.checkMembers_eq_ok_iff` and so on: what the check of members says.
  `DataType.check_of_accepts`: records that conform pass it.
* `Route.conforms_view`: **what lies along the routes of a value that conforms can be stored**.
* `Field.Storable`: every column of a field can store its slice of a member.
  `DataType.accepts_of_storable`: **a value that passes the check and can be stored conforms**.
* `Schema.accepts_iff`: what is checked of a record says that it conforms.
* `RecordWriter.write_accepts`: **a batch is accepted exactly if all of its records conform**.
-/

namespace Striping

section Checking

variable {path : Path}

theorem Value.checkProperties_null {type : DataType} :
    Value.null.checkProperties type path = .ok () := by
  cases type <;> rfl

theorem Value.checkProperties_primitive {v : Value} {leaf : Primitive} :
    v.checkProperties (.primitive leaf) path = .ok () := by
  cases v <;> rfl

theorem Value.checkItems_eq_ok_iff {items : List Value} {type : DataType} :
    checkItems items type path = .ok () ↔
      ∀ item ∈ items, item.checkProperties type path = .ok () := by
  induction items with
  | nil => exact ⟨fun _ _ h => absurd h List.not_mem_nil, fun _ => rfl⟩
  | cons item items ih =>
    rw [checkItems, List.forall_mem_cons, ← ih]
    rcases item.checkProperties type path with e | ⟨⟩
    · exact ⟨fun h => (by cases h), fun h => (by cases h.1)⟩
    · exact ⟨fun h => ⟨rfl, h⟩, fun h => h.2⟩

theorem Value.checkEntries_eq_ok_iff {entries : List (Value × Value)} {key value : DataType} :
    checkEntries entries key value path = .ok () ↔
      ∀ entry ∈ entries, entry.1.checkProperties key path = .ok () ∧
        entry.2.checkProperties value path = .ok () := by
  induction entries with
  | nil => exact ⟨fun _ _ h => absurd h List.not_mem_nil, fun _ => rfl⟩
  | cons entry entries ih =>
    obtain ⟨k, v⟩ := entry
    rw [checkEntries, List.forall_mem_cons, ← ih]
    rcases k.checkProperties key path with e | ⟨⟩
    · exact ⟨fun h => (by cases h), fun h => (by cases h.1.1)⟩
    · rcases v.checkProperties value path with e | ⟨⟩
      · exact ⟨fun h => (by cases h), fun h => (by cases h.1.2)⟩
      · exact ⟨fun h => ⟨⟨rfl, rfl⟩, h⟩, fun h => h.2⟩

/-- The members of a struct pass the check if their names are different from each other and from
those seen before, and each is that of a field by whose type the member passes the check. -/
theorem Value.checkMembers_eq_ok_iff {members : List (String × Value)} {fields : List Field}
    {seen : List String} :
    checkMembers members fields path seen = .ok () ↔
      (members.map Prod.fst).Nodup ∧ (∀ member ∈ members, member.1 ∉ seen) ∧
        ∀ member ∈ members, ∃ f, Field.find? fields member.1 = some f ∧
          member.2.checkProperties f.type (path.append member.1) = .ok () := by
  induction members generalizing seen with
  | nil =>
    exact ⟨fun _ => ⟨List.nodup_nil, fun _ h => absurd h List.not_mem_nil,
      fun _ h => absurd h List.not_mem_nil⟩, fun _ => rfl⟩
  | cons member members ih =>
    obtain ⟨name, v⟩ := member
    rw [checkMembers, List.map_cons, List.nodup_cons, List.forall_mem_cons, List.forall_mem_cons]
    by_cases hseen : name ∈ seen
    · rw [if_pos hseen]
      exact ⟨fun h => (by cases h), fun h => absurd hseen h.2.1.1⟩
    rw [if_neg hseen]
    cases hf : Field.find? fields name with
    | none =>
      refine ⟨fun h => (by cases h), ?_⟩
      rintro ⟨-, -, ⟨f, hf', -⟩, -⟩
      cases hf'
    | some f =>
      simp only
      cases hv : v.checkProperties f.type (path.append name) with
      | error e =>
        refine ⟨fun h => (by cases h), ?_⟩
        rintro ⟨-, -, ⟨f', hf', hv'⟩, -⟩
        obtain rfl := Option.some.inj hf'
        rw [hv] at hv'
        cases hv'
      | ok =>
        simp only [ih, List.mem_cons, not_or]
        constructor
        · rintro ⟨hnodup, hnew, hall⟩
          refine ⟨⟨?_, hnodup⟩, ⟨hseen, fun m hm => (hnew m hm).2⟩, ⟨f, rfl, hv⟩, hall⟩
          intro hmem
          obtain ⟨m, hm, hname⟩ := List.mem_map.1 hmem
          exact (hnew m hm).1 hname
        · rintro ⟨⟨hname, hnodup⟩, ⟨-, hnew⟩, -, hall⟩
          refine ⟨hnodup, fun m hm => ⟨?_, hnew m hm⟩, hall⟩
          rintro rfl
          exact hname (List.mem_map_of_mem hm)

/-- A struct passes the check if its members do. -/
theorem Value.checkProperties_struct {members : List (String × Value)} {fields : List Field} :
    (Value.struct members).checkProperties (.struct fields) path = .ok () ↔
      (members.map Prod.fst).Nodup ∧
        ∀ member ∈ members, ∃ f, Field.find? fields member.1 = some f ∧
          member.2.checkProperties f.type (path.append member.1) = .ok () := by
  rw [Value.checkProperties, Value.checkMembers_eq_ok_iff]
  simp

/-- The field of a name is one of the fields, and has the name. -/
theorem Field.find?_eq_some {fields : List Field} {name : String} {f : Field}
    (h : Field.find? fields name = some f) : f ∈ fields ∧ f.name = name :=
  ⟨List.mem_of_find?_eq_some h, by simpa using List.find?_some h⟩

/-- There is a field of every name that is declared. -/
theorem Field.exists_find? {fields : List Field} {name : String}
    (h : name ∈ fields.map Field.name) : ∃ f, Field.find? fields name = some f := by
  obtain ⟨f, hf, rfl⟩ := List.mem_map.1 h
  refine Option.isSome_iff_exists.1 ?_
  unfold Field.find?
  rw [List.find?_isSome]
  exact ⟨f, hf, beq_self_eq_true _⟩

mutual

theorem Field.check_of_accepts : (f : Field) → ∀ v path, f.Accepts (some v) →
    v.checkProperties f.type path = .ok ()
  | .mk _ type _ => by
    rintro v path (⟨-, rfl⟩ | hv)
    · exact Value.checkProperties_null
    · exact type.check_of_accepts v path hv

/-- **A value that conforms passes the check of its members.** -/
theorem DataType.check_of_accepts : (type : DataType) → ∀ v path, type.Accepts v →
    v.checkProperties type path = .ok ()
  | .primitive _ => fun _ _ _ => Value.checkProperties_primitive
  | .list element => by
    intro v path hv
    obtain ⟨items, rfl⟩ := Value.exists_items hv.form.1 hv.form.2
    rw [Value.checkProperties, Value.checkItems_eq_ok_iff]
    intro item hitem
    exact element.check_of_accepts item path (hv item hitem)
  | .map key value => by
    intro v path hv
    obtain ⟨entries, rfl⟩ := Value.exists_entries hv.form.1 hv.form.2
    rw [Value.checkProperties, Value.checkEntries_eq_ok_iff]
    intro entry hentry
    obtain ⟨hk, hv⟩ := hv entry hentry
    exact ⟨key.check_of_accepts _ path hk, value.check_of_accepts _ path hv⟩
  | .struct fields => by
    intro v path hv
    obtain ⟨members, rfl⟩ := Value.exists_members hv.form.1 hv.form.2
    obtain ⟨hnodup, hdeclared, hmembers⟩ := DataType.accepts_struct.1 hv
    refine Value.checkProperties_struct.2 ⟨hnodup, ?_⟩
    rintro ⟨name, v⟩ hmem
    obtain ⟨f, hf⟩ := Field.exists_find? (hdeclared _ hmem)
    obtain ⟨hfields, rfl⟩ := Field.find?_eq_some hf
    have hv := hmembers f hfields
    rw [Value.find?_of_nodup hnodup hmem] at hv
    exact ⟨f, hf, Field.check_of_mem fields f hfields v _ hv⟩

theorem Field.check_of_mem : (fields : List Field) → ∀ f ∈ fields, ∀ v path,
    f.Accepts (some v) → v.checkProperties f.type path = .ok ()
  | [] => fun _ h => absurd h List.not_mem_nil
  | f :: rest => List.forall_mem_cons.2 ⟨f.check_of_accepts, Field.check_of_mem rest⟩

end

end Checking

section Storing

/-- What lies along a route in a member that is accepted can be stored in a column, if that holds
for the values of its type. -/
theorem Field.conforms_view {f : Field} {r : Route f.type}
    (hr : ∀ v repetition, f.type.Accepts v →
      (r.view v).Conforms (⟨repetition, f.type.frameKind⟩ :: r.column.frames))
    {m : Option Value} (hm : f.Accepts m) :
    (r.view (f.present m)).Conforms (f.frame :: r.column.frames) := by
  rcases hm.present with ⟨hoptional, hnull⟩ | hv
  · have hframe : f.frame = ⟨.optional, f.type.frameKind⟩ := by
      rw [Field.frame, Field.repetition, if_pos hoptional]
    rw [hnull, r.view_null, hframe]
    exact .null
  · exact hr _ _ hv

/-- **What lies along a route in a value that conforms can be stored.** -/
theorem Route.conforms_view : {type : DataType} → (r : Route type) → ∀ v repetition,
    type.Accepts v → (r.view v).Conforms (⟨repetition, type.frameKind⟩ :: r.column.frames)
  | .primitive _, .leaf _ => by
    intro v repetition hv
    obtain ⟨cell, hcell⟩ := Value.exists_toCell hv.1 hv.2
    rw [Route.view, hcell]
    exact .scalar cell
  | .list _, .element below => by
    intro v repetition hv
    obtain ⟨items, rfl⟩ := Value.exists_items hv.form.1 hv.form.2
    refine .list (.inl rfl) (List.forall_mem_map.2 fun item hitem => ?_)
    exact Field.conforms_view below.conforms_view (hv item hitem)
  | .map _ _, .key below => by
    intro v repetition hv
    obtain ⟨entries, rfl⟩ := Value.exists_entries hv.form.1 hv.form.2
    refine .list (.inr rfl) (List.forall_mem_map.2 fun entry hentry => ?_)
    exact Field.conforms_view below.conforms_view (hv entry hentry).1
  | .map _ _, .value below => by
    intro v repetition hv
    obtain ⟨entries, rfl⟩ := Value.exists_entries hv.form.1 hv.form.2
    refine .list (.inr rfl) (List.forall_mem_map.2 fun entry hentry => ?_)
    exact Field.conforms_view below.conforms_view (hv entry hentry).2
  | .struct _, .member f hf below => by
    intro v repetition hv
    obtain ⟨members, rfl⟩ := Value.exists_members hv.form.1 hv.form.2
    exact .struct (Field.conforms_view below.conforms_view
      ((DataType.accepts_struct.1 hv).2.2 f hf))

/-- So it is for records. -/
theorem Route.conforms_viewRecord {fields : List Field} {record : Value}
    (hv : (DataType.struct fields).Accepts record) :
    (r : Route (.struct fields)) → (r.viewRecord record).Conforms r.column.frames
  | .member f hf below => by
    obtain ⟨members, rfl⟩ := Value.exists_members hv.form.1 hv.form.2
    exact Field.conforms_view below.conforms_view ((DataType.accepts_struct.1 hv).2.2 f hf)

/-- Every column of a field can store its slice of a member. -/
def Field.Storable (f : Field) (m : Option Value) : Prop :=
  ∀ r : Route f.type, ∃ c n, f.project m r.column.path c = .ok n ∧
    n.Conforms (f.frame :: r.column.frames)

/-- Every column of a type can store its slice of a value. -/
def DataType.Storable (type : DataType) (v : Value) : Prop :=
  ∀ r : Route type, ∃ c n repetition, type.project v r.column.path c = .ok n ∧
    n.Conforms (⟨repetition, type.frameKind⟩ :: r.column.frames)

/-- There is a route through every sane type. -/
theorem DataType.nonempty_route {type : DataType} (hs : type.Obeys .sane) :
    Nonempty (Route type) := by
  have hne := type.leaves_ne_nil hs
  rw [← type.map_column_routes, Ne, List.map_eq_nil_iff] at hne
  obtain ⟨r, -⟩ := List.exists_mem_of_ne_nil _ hne
  exact ⟨r⟩

/-- A null conforms to an optional frame only. -/
theorem Nested.repetition_of_conforms_null {α : Type} {f : Frame} {below : List Frame}
    (h : (Nested.null : Nested α).Conforms (f :: below)) : f.repetition = .optional := by
  cases h
  rfl

/-- Only an optional field can store a null. -/
theorem Field.optional_of_conforms {name : String} {type : DataType} {optional : Bool}
    {below : List Frame}
    (h : (Nested.null : Nested Cell).Conforms ((Field.mk name type optional).frame :: below)) :
    optional = true := by
  cases optional with
  | true => rfl
  | false => cases Nested.repetition_of_conforms_null h

/-- **A member that passes the check and can be stored is accepted**, if that holds for the values
of its type. -/
theorem Field.accepts_of_type {name : String} {type : DataType} {optional : Bool}
    (hne : Nonempty (Route type))
    (ht : ∀ v path, v.matchesType type = true → v ≠ .null →
      v.checkProperties type path = .ok () → type.Storable v → type.Accepts v)
    {m : Option Value} (hcheck : ∀ v, m = some v → ∃ path, v.checkProperties type path = .ok ())
    (h : (Field.mk name type optional).Storable m) : (Field.mk name type optional).Accepts m := by
  obtain ⟨r⟩ := hne
  obtain ⟨c, n, hp, hn⟩ := h r
  cases m with
  | none =>
    by_cases hrepeated : (!optional && type.isRepeated) = true
    · exact .inr (Bool.and_eq_true_iff.1 hrepeated).2
    · rw [Field.project, if_neg hrepeated] at hp
      obtain rfl := Except.ok.inj hp
      exact .inl (Field.optional_of_conforms hn)
  | some v =>
    by_cases hv : v = .null
    · subst hv
      obtain rfl := Except.ok.inj hp
      exact .inl ⟨Field.optional_of_conforms hn, rfl⟩
    · rw [Field.project_of_ne_null hv] at hp
      have hmatch : v.matchesType type = true := by
        by_contra hmatch
        rw [if_neg hmatch] at hp
        cases hp
      obtain ⟨path, hpath⟩ := hcheck v rfl
      refine .inr (ht v path hmatch hv hpath fun r => ?_)
      obtain ⟨c, n, hp, hn⟩ := h r
      rw [Field.project_of_ne_null hv, if_pos hmatch] at hp
      exact ⟨c, n, _, hp, hn⟩

/-- The items of a list can be stored if the list can. -/
theorem DataType.Storable.items {element : Field} {items : List Value}
    (h : (DataType.list element).Storable (.list items)) {item : Value} (hitem : item ∈ items) :
    element.Storable (some item) := by
  intro r
  obtain ⟨c, n, repetition, hp, hn⟩ := h (.element r)
  obtain ⟨column, rfl, hcolumn⟩ := DataType.project_list.1 hp
  obtain ⟨m, hmem, hm⟩ := exists_of_forall₂ hcolumn.flip hitem
  rcases (Nested.conforms_list (.inl rfl)).1 hn with ⟨-, hnull⟩ | ⟨column', hlist, hall⟩
  · cases hnull
  · obtain rfl := Nested.list.inj hlist
    exact ⟨c, m, hm, hall m hmem⟩

/-- What lies below a route into a map can be stored if the map can. -/
theorem Route.storable_entry {key value : Field} {entries : List (Value × Value)}
    (h : (DataType.map key value).Storable (.map entries)) {entry : Value × Value}
    (hentry : entry ∈ entries) {f : Field} {below : Route f.type} {r : Route (.map key value)}
    (hr : r.column = (below.column.under f.name f.frame).under mapGroupName .repeatedGroup) :
    ∃ c n, Field.SeesEntry key value (f.name :: below.column.path) c entry n ∧
      n.Conforms (f.frame :: below.column.frames) := by
  obtain ⟨c, n, repetition, hp, hn⟩ := h r
  rw [hr] at hp hn
  obtain ⟨column, rfl, hcolumn⟩ := DataType.project_entries.1 hp
  obtain ⟨m, hmem, hm⟩ := exists_of_forall₂ hcolumn.flip hentry
  rcases (Nested.conforms_list (.inr rfl)).1 hn with ⟨-, hnull⟩ | ⟨column', hlist, hall⟩
  · cases hnull
  · obtain rfl := Nested.list.inj hlist
    exact ⟨c, m, hm, hall m hmem⟩

/-- The keys of a map can be stored if the map can, and the values. -/
theorem DataType.Storable.entries {key value : Field} (hk : key.name = keyName)
    (hv : value.name ≠ keyName) {entries : List (Value × Value)}
    (h : (DataType.map key value).Storable (.map entries)) {entry : Value × Value}
    (hentry : entry ∈ entries) :
    key.Storable (some entry.1) ∧ value.Storable (some entry.2) := by
  constructor
  · intro r
    obtain ⟨c, n, hn, hconforms⟩ := Route.storable_entry h hentry (r := .key r) rfl
    have hname : (key.name :: r.column.path).head? = some keyName := congrArg some hk
    rw [Field.SeesEntry, if_pos hname] at hn
    exact ⟨c, n, hn, hconforms⟩
  · intro r
    obtain ⟨c, n, hn, hconforms⟩ := Route.storable_entry h hentry (r := .value r) rfl
    have hname : (value.name :: r.column.path).head? ≠ some keyName :=
      fun h => hv (Option.some.inj h)
    rw [Field.SeesEntry, if_neg hname] at hn
    exact ⟨c, n, hn, hconforms⟩

/-- The members of a struct can be stored if the struct can. -/
theorem DataType.Storable.members {fields : List Field} (hn : (fields.map Field.name).Nodup)
    {members : List (String × Value)} (h : (DataType.struct fields).Storable (.struct members))
    {f : Field} (hf : f ∈ fields) : f.Storable (Value.find? members f.name) := by
  intro r
  obtain ⟨c, n, repetition, hp, hconforms⟩ := h (.member f hf r)
  obtain ⟨name, below, g, m, hpath, hg, hp, rfl⟩ := DataType.project_struct.1 hp
  obtain ⟨rfl, rfl⟩ := List.cons.inj hpath
  obtain rfl := Option.some.inj ((Field.find?_of_nodup hn hf).symm.trans hg)
  rcases Nested.conforms_struct.1 hconforms with ⟨-, hnull⟩ | ⟨u, hstruct, hu⟩
  · cases hnull
  · obtain rfl := Nested.struct.inj hstruct
    exact ⟨c, m, hp, hu⟩

/-- The members of a struct pass the check if the struct does. -/
theorem Value.check_of_find? {fields : List Field} (hn : (fields.map Field.name).Nodup)
    {members : List (String × Value)} {path : Path}
    (h : ∀ member ∈ members, ∃ f, Field.find? fields member.1 = some f ∧
      member.2.checkProperties f.type (path.append member.1) = .ok ())
    {f : Field} (hf : f ∈ fields) :
    ∀ v, Value.find? members f.name = some v →
      ∃ path, v.checkProperties f.type path = .ok () := by
  intro v hv
  obtain ⟨⟨name, v'⟩, hfound, rfl⟩ := Option.map_eq_some_iff.1 hv
  obtain ⟨g, hg, hcheck⟩ := h _ (List.mem_of_find?_eq_some hfound)
  obtain rfl : name = f.name := by simpa using List.find?_some hfound
  obtain rfl := Option.some.inj ((Field.find?_of_nodup hn hf).symm.trans hg)
  exact ⟨_, hcheck⟩

/-- A struct that passes the check conforms if its members do. -/
theorem DataType.accepts_of_members {fields : List Field} (hn : (fields.map Field.name).Nodup)
    {members : List (String × Value)} {path : Path}
    (hcheck : (Value.struct members).checkProperties (.struct fields) path = .ok ())
    (h : ∀ f ∈ fields, (∀ v, Value.find? members f.name = some v →
      ∃ path, v.checkProperties f.type path = .ok ()) → f.Accepts (Value.find? members f.name)) :
    (DataType.struct fields).Accepts (.struct members) := by
  obtain ⟨hnodup, hmembers⟩ := Value.checkProperties_struct.1 hcheck
  refine DataType.accepts_struct.2 ⟨hnodup, ?_, fun f hf => ?_⟩
  · intro member hmem
    obtain ⟨f, hf, -⟩ := hmembers member hmem
    obtain ⟨hfields, hname⟩ := Field.find?_eq_some hf
    exact hname ▸ List.mem_map_of_mem hfields
  · exact h f hf (Value.check_of_find? hn hmembers hf)

mutual

theorem Field.accepts_of_storable : (f : Field) → f.Obeys .sane → ∀ {m},
    (∀ v, m = some v → ∃ path, v.checkProperties f.type path = .ok ()) → f.Storable m →
      f.Accepts m
  | .mk _ type _, hs, _, hcheck, h =>
    Field.accepts_of_type (DataType.nonempty_route hs) (type.accepts_of_storable hs) hcheck h

/-- **A value that passes the check of its members and can be stored conforms to its type.** -/
theorem DataType.accepts_of_storable : (type : DataType) → type.Obeys .sane → ∀ v path,
    v.matchesType type = true → v ≠ .null → v.checkProperties type path = .ok () →
      type.Storable v → type.Accepts v
  | .primitive _, _ => fun _ _ hm hv _ _ => ⟨hm, hv⟩
  | .list element, hs => by
    intro v path hm hv hcheck h
    obtain ⟨items, rfl⟩ := Value.exists_items hm hv
    rw [Value.checkProperties, Value.checkItems_eq_ok_iff] at hcheck
    intro item hitem
    refine element.accepts_of_storable hs (fun v hv => ?_) (h.items hitem)
    obtain rfl := Option.some.inj hv
    exact ⟨path, hcheck item hitem⟩
  | .map key value, ⟨⟨hk, hn⟩, hsk, hsv⟩ => by
    intro v path hm hv hcheck h
    obtain ⟨entries, rfl⟩ := Value.exists_entries hm hv
    rw [Value.checkProperties, Value.checkEntries_eq_ok_iff] at hcheck
    intro entry hentry
    obtain ⟨hkey, hvalue⟩ := h.entries hk hn hentry
    constructor
    · refine key.accepts_of_storable hsk (fun v hv => ?_) hkey
      obtain rfl := Option.some.inj hv
      exact ⟨path, (hcheck entry hentry).1⟩
    · refine value.accepts_of_storable hsv (fun v hv => ?_) hvalue
      obtain rfl := Option.some.inj hv
      exact ⟨path, (hcheck entry hentry).2⟩
  | .struct fields, ⟨⟨_, hn⟩, hs⟩ => by
    intro v path hm hv hcheck h
    obtain ⟨members, rfl⟩ := Value.exists_members hm hv
    refine DataType.accepts_of_members hn hcheck fun f hf hmember => ?_
    exact Field.accepts_of_mem fields hs f hf hmember (h.members hn hf)

theorem Field.accepts_of_mem : (fields : List Field) → Field.AllObey .sane fields →
    ∀ f ∈ fields, ∀ {m}, (∀ v, m = some v → ∃ path, v.checkProperties f.type path = .ok ()) →
      f.Storable m → f.Accepts m
  | [], _ => fun _ h => absurd h List.not_mem_nil
  | f :: rest, ⟨hs, hss⟩ =>
    List.forall_mem_cons.2 ⟨f.accepts_of_storable hs, Field.accepts_of_mem rest hss⟩

end

/-- **What is checked of a record says that it conforms.** A record conforms to a schema if its
members pass the check, and its slices in all columns are there and can be stored. -/
theorem Schema.accepts_iff {s : Schema} (hs : s.Sane) {columns : List Column}
    (hc : s.columns = .ok columns) {record : Value} :
    s.Accepts record ↔ Value.checkRecord s.fields record = .ok () ∧
      ∀ column ∈ columns, ∃ n, projectRecord s.fields record column.path = .ok n ∧
        n.Conforms column.frames := by
  have hroutes := Schema.forall₂_routes hc
  constructor
  · intro h
    constructor
    · have hcheck := (DataType.struct s.fields).check_of_accepts record .root h
      obtain ⟨members, rfl⟩ := Value.exists_members h.form.1 h.form.2
      exact hcheck
    · intro column hcolumn
      obtain ⟨r, -, hmake⟩ := exists_of_forall₂ hroutes hcolumn
      rw [LeafColumn.path_of_column hmake, LeafColumn.frames_of_column hmake]
      exact ⟨_, r.projectRecord_view hs.distinct h (r.straight_of_sane hs),
        r.conforms_viewRecord h⟩
  · rintro ⟨hcheck, hslices⟩
    obtain ⟨⟨hne, hn⟩, hsane⟩ := hs
    cases record with
    | struct members =>
      refine DataType.accepts_of_members hn hcheck fun f hf hmember => ?_
      refine Field.accepts_of_mem s.fields hsane f hf hmember fun r => ?_
      -- the column at the end of the route through the member
      obtain ⟨column, hcolumn, hmake⟩ :=
        exists_of_forall₂ hroutes.flip (Route.mem_routes (.member f hf r))
      obtain ⟨n, hp, hconforms⟩ := hslices column hcolumn
      rw [LeafColumn.path_of_column hmake] at hp
      rw [LeafColumn.frames_of_column hmake] at hconforms
      obtain ⟨name, rest, g, hpath, hg, hp⟩ := projectRecord_struct.1 hp
      obtain ⟨rfl, rfl⟩ := List.cons.inj hpath
      obtain rfl := Option.some.inj ((Field.find?_of_nodup hn hf).symm.trans hg)
      exact ⟨_, n, hp, hconforms⟩
    | _ => cases hcheck

end Storing

namespace Shredder

variable {t : LeafType} {ω : Type} {s : Shredder t ω} {rows : List (Nested t.Value)}

/-- Rows pass the check if they conform to the column. -/
theorem validate_iff_conforms :
    s.validate rows = .ok () ↔ ∀ row ∈ rows, row.Conforms s.shape.column.frames := by
  refine ⟨fun h => ?_, validate_of_conforms⟩
  obtain ⟨ps, hp⟩ := validate_eq_ok_iff.1 h
  exact ColumnShape.conforms_of_shredRows hp

/-- A stripe that holds the rows written so far takes all that follow. -/
theorem Kept.neverFails {s : Shredder t (Stripe t.Physical)} (h : s.Kept rows) :
    ColumnWriter.NeverFails s.writer s.shape.column.bounds := by
  obtain ⟨ps, -, hstores⟩ := h.stores
  rw [← h.bounds]
  intro runs hfit
  obtain ⟨s', hrun, -⟩ := hstores.forEach_write
    fun run hrun p hp => (hfit run hrun p hp).paired
  exact congrArg Prod.fst hrun

end Shredder

namespace RecordWriter

section Checks

variable {ω : Type} {w : RecordWriter ω} {schema : Schema} {records : List Value}

/-- All columns can take their rows of some records if each of them can. -/
theorem exists_rows_iff {fields : List Field} {columns : List (Shredder .cell ω)} :
    (∃ rows, columns.mapM (·.slicesOf fields records) = .ok rows ∧
        validateColumns columns rows = .ok ()) ↔
      ∀ s ∈ columns, ∃ rows, s.slicesOf fields records = .ok rows ∧ s.validate rows = .ok () := by
  simp only [mapM_eq_ok_iff]
  induction columns with
  | nil => exact ⟨fun _ _ h => absurd h List.not_mem_nil, fun _ => ⟨[], .nil, rfl⟩⟩
  | cons s columns ih =>
    rw [List.forall_mem_cons, ← ih]
    constructor
    · rintro ⟨rows, hrows, hv⟩
      obtain _ | ⟨hrow, hrows⟩ := hrows
      rw [validateColumns] at hv
      split at hv
      · cases hv
      · rename_i hval
        exact ⟨⟨_, hrow, hval⟩, _, hrows, hv⟩
    · rintro ⟨⟨row, hrow, hval⟩, rows, hrows, hv⟩
      refine ⟨row :: rows, .cons hrow hrows, ?_⟩
      rw [validateColumns, hval]
      exact hv

/-- A column can take its rows of some records if it can take each of them. -/
theorem exists_slices_iff {fields : List Field} {s : Shredder .cell ω} :
    (∃ rows, s.slicesOf fields records = .ok rows ∧ s.validate rows = .ok ()) ↔
      ∀ record ∈ records, ∃ n, projectRecord fields record s.shape.column.path = .ok n ∧
        n.Conforms s.shape.column.frames := by
  have hvalid : ∀ rows : List (Nested Cell),
      s.validate rows = .ok () ↔ ∀ row ∈ rows, row.Conforms s.shape.column.frames :=
    fun rows => Shredder.validate_iff_conforms
  unfold Shredder.slicesOf
  simp only [mapM_eq_ok_iff, hvalid]
  constructor
  · rintro ⟨rows, hrows, hall⟩ record hrecord
    obtain ⟨n, hn, hp⟩ := exists_of_forall₂ hrows.flip hrecord
    exact ⟨n, hp, hall n hn⟩
  · intro h
    induction records with
    | nil => exact ⟨[], .nil, fun _ h => absurd h List.not_mem_nil⟩
    | cons record records ih =>
      rw [List.forall_mem_cons] at h
      obtain ⟨⟨n, hp, hn⟩, h⟩ := h
      obtain ⟨rows, hrows, hall⟩ := ih h
      exact ⟨n :: rows, .cons hp hrows, List.forall_mem_cons.2 ⟨hn, hall⟩⟩

/-- **A batch passes the checks exactly if all of its records conform.** -/
theorem exists_prepare_iff (hw : w.WritesTo schema) (hs : schema.Sane)
    (hu : w.failedColumn = none) :
    (∃ rows, w.prepare records = .ok rows) ↔ ∀ record ∈ records, schema.Accepts record := by
  have hrecord : ∀ record, schema.Accepts record ↔
      Value.checkRecord schema.fields record = .ok () ∧
        ∀ s ∈ w.columns, ∃ n, projectRecord schema.fields record s.shape.column.path = .ok n ∧
          n.Conforms s.shape.column.frames := by
    intro record
    rw [Schema.accepts_iff hs hw.columns_eq, List.forall_mem_map]
  have hprepare : (∃ rows, w.prepare records = .ok rows) ↔
      (∀ record ∈ records, Value.checkRecord schema.fields record = .ok ()) ∧
        ∀ s ∈ w.columns, ∃ rows, s.slicesOf schema.fields records = .ok rows ∧
          s.validate rows = .ok () := by
    rw [← exists_rows_iff]
    simp only [prepare_eq_ok_iff, hu, hw.schema_eq, true_and, exists_and_left]
  rw [hprepare]
  simp only [exists_slices_iff, hrecord]
  constructor
  · rintro ⟨hcheck, hslices⟩ record hmem
    exact ⟨hcheck record hmem, fun s hs => hslices s hs record hmem⟩
  · intro h
    exact ⟨fun record hmem => (h record hmem).1, fun s hs record hmem => (h record hmem).2 s hs⟩

end Checks

section Writing

variable {ω : Type} [ColumnWriter ω Cell] {w₀ w : RecordWriter ω} {schema : Schema}
  {records : List Value}

/-- A writer to a schema all of whose columns are ready, unless one of them has failed. -/
structure Sound (w : RecordWriter ω) (schema : Schema) : Prop where
  writesTo : w.WritesTo schema
  ready : w.failedColumn = none → ∀ s ∈ w.columns, s.Ready

omit [ColumnWriter ω Cell] in
theorem sound_of_ofSchema {writers : List ω} {cache cache' : ShapeCache} {options : Options}
    (h : ofSchema schema writers cache options = (.ok w, cache')) : w.Sound schema := by
  obtain ⟨hs, -, -, columns, -, -, hopen⟩ := ofSchema_ok h
  refine ⟨hs, fun _ s hmem => ?_⟩
  obtain ⟨_, -, shape, -, hshape⟩ := exists_of_forall₂ hopen hmem
  exact (Shredder.ready_of_ofShape hshape).1

/-- A column that is ready takes rows that pass the check, and is ready again unless its writer
has failed. -/
theorem ready_of_write {s : Shredder .cell ω} {rows : List (Nested Cell)} (hs : s.Ready)
    (hv : s.validate rows = .ok ()) :
    ∃ s', s'.shape = s.shape ∧ ((∃ n, s.write rows = (.ok n, s') ∧ s'.Ready) ∨
      ∃ e, s.write rows = (.error e, s') ∧ True) := by
  obtain ⟨ps, hp⟩ := Shredder.validate_eq_ok_iff.1 hv
  obtain ⟨s', ha, hw, ⟨hx, hfailed, -⟩ | ⟨e, hx, -⟩⟩ := hs.write hp rfl
  · rw [hx] at hw
    exact ⟨s', ha.shape, .inl ⟨_, hw, ha.ready hfailed⟩⟩
  · rw [hx] at hw
    exact ⟨s', ha.shape, .inr ⟨_, hw, trivial⟩⟩

/-- **A batch leaves a writer sound**, whatever becomes of it. -/
theorem Sound.write (h : w.Sound schema) (records : List Value) :
    (w.write records).2.Sound schema := by
  cases hprep : w.prepare records with
  | error e => rwa [write_of_prepare_error hprep]
  | ok rows =>
    obtain ⟨hu, -, hrows, hv⟩ := prepare_eq_ok_iff.1 hprep
    obtain ⟨columns, hshapes, ⟨hwc, hq⟩ | ⟨e, before, s, after, hwc, -⟩⟩ :=
      writeColumns_cases (R := fun _ _ => True) (fun _ _ hs _ => ready_of_write hs) (h.ready hu)
        hrows hv
    · unfold RecordWriter.write
      rw [hprep]
      simp only [hwc]
      exact ⟨h.writesTo.of_same rfl hshapes, fun _ => hq⟩
    · unfold RecordWriter.write
      rw [hprep]
      simp only [hwc]
      exact ⟨h.writesTo.of_same rfl hshapes, fun hu => by cases hu⟩

/-- So do several batches. -/
theorem Sound.writeEach (h : w.Sound schema) (calls : List (List Value)) :
    (w.writeEach calls).1.Sound schema := by
  induction calls generalizing w with
  | nil => exact h
  | cons call calls ih =>
    have hwritten := h.write call
    rw [RecordWriter.writeEach]
    rcases hcall : w.write call with ⟨e | n, w'⟩
    · rw [hcall] at hwritten
      exact ih hwritten
    · rw [hcall] at hwritten
      exact ih hwritten

/-- A batch that passes the checks is accepted if no physical writer fails. -/
theorem Sound.write_of_prepare (h : w.Sound schema)
    (hn : ∀ s ∈ w.columns, ColumnWriter.NeverFails s.writer s.shape.column.bounds)
    {rows : List (List (Nested Cell))} (hprep : w.prepare records = .ok rows) :
    ∃ w', w.write records = (.ok records.length, w') := by
  obtain ⟨hu, -, hrows, hv⟩ := prepare_eq_ok_iff.1 hprep
  -- the pieces of the rows are batches of the kind that the writers take
  have hstep : ∀ (s : Shredder .cell ω) (rows : List (Nested Cell)),
      s.Ready ∧ ColumnWriter.NeverFails s.writer s.shape.column.bounds →
      s.slicesOf w.schema.fields records = .ok rows → s.validate rows = .ok () →
      ∃ s', s'.shape = s.shape ∧ ((∃ n, s.write rows = (.ok n, s') ∧ True) ∨
        ∃ e, s.write rows = (.error e, s') ∧ False) := by
    rintro s rows ⟨hs, hnever⟩ - hv
    obtain ⟨ps, hp⟩ := Shredder.validate_eq_ok_iff.1 hv
    have hpieces := hnever _ (Shredder.fits_of_mem_chunks hp)
    obtain ⟨s', ha, hw, -⟩ := hs.write hp (Prod.ext hpieces rfl)
    exact ⟨s', ha.shape, .inl ⟨_, hw, trivial⟩⟩
  have hready : ∀ s ∈ w.columns,
      s.Ready ∧ ColumnWriter.NeverFails s.writer s.shape.column.bounds :=
    fun s hs => ⟨h.ready hu s hs, hn s hs⟩
  obtain ⟨columns, -, ⟨hwc, -⟩ | ⟨-, -, -, -, -, -, -, hf, -⟩⟩ :=
    writeColumns_cases (Q := fun _ => True) (R := fun _ _ => False) hstep hready hrows hv
  · unfold RecordWriter.write
    rw [hprep]
    simp only [hwc]
    exact ⟨_, rfl⟩
  · exact hf.elim

/-- **A batch is accepted exactly if all of its records conform.** In a sane schema every struct
has members, siblings have different names, and maps name their keys, and nothing else, by the name
of keys; there is a column in every such schema. A writer that has not failed, and whose physical
writers do not fail, then accepts a batch if every record is a struct that conforms: members are
different and declared, only an optional member, a list or a map is missing, only an optional
member is null, and every other value has the form of its field, and so do all of its items,
entries and members. Every other batch is refused without an effect. -/
theorem write_accepts (hs : schema.Sane) {writers : List ω} {cache cache' : ShapeCache}
    {options : Options} (h : ofSchema schema writers cache options = (.ok w₀, cache'))
    {calls accepted : List (List Value)} (hcalls : w₀.writeEach calls = (w, accepted))
    (hu : w.failedColumn = none)
    (hn : ∀ s ∈ w.columns, ColumnWriter.NeverFails s.writer s.shape.column.bounds)
    (records : List Value) :
    w.columns ≠ [] ∧
      ((∃ n w', w.write records = (.ok n, w')) ↔ ∀ record ∈ records, schema.Accepts record) ∧
      ((¬ ∀ record ∈ records, schema.Accepts record) → ∃ e, w.write records = (.error e, w)) := by
  have hw := (sound_of_ofSchema h).writeEach calls
  rw [hcalls] at hw
  have hprepare : (∃ rows, w.prepare records = .ok rows) ↔
      ∀ record ∈ records, schema.Accepts record := exists_prepare_iff hw.writesTo hs hu
  refine ⟨?_, ?_, ?_⟩
  · intro hnil
    exact Schema.columns_ne_nil hs hw.writesTo.columns_eq (by rw [hnil]; rfl)
  · rw [← hprepare]
    constructor
    · rintro ⟨n, w', hwrite⟩
      cases hprep : w.prepare records with
      | error e =>
        rw [write_of_prepare_error hprep] at hwrite
        cases hwrite
      | ok rows => exact ⟨rows, rfl⟩
    · rintro ⟨rows, hprep⟩
      obtain ⟨w', hwrite⟩ := hw.write_of_prepare hn hprep
      exact ⟨_, w', hwrite⟩
  · intro hall
    cases hprep : w.prepare records with
    | error e => exact ⟨e, write_of_prepare_error hprep⟩
    | ok rows => exact absurd (hprepare.1 ⟨rows, hprep⟩) hall

end Writing

/-- A record whose home has two floors. -/
def twoFloors : Value :=
  .struct [("id", .int32 3), ("home", .struct [("floor", .int32 1), ("floor", .int32 2)])]

/-- Records with missing lists, structs and maps are accepted, one with a member that comes twice
is not. -/
theorem write_accepts_houses :
    ∃ columns w₀ cache w n w' e,
      RecordReader.houses.columns = .ok columns ∧
      ofSchema RecordReader.houses (columns.map Stripe.ofColumn) .empty ⟨2⟩ = (.ok w₀, cache) ∧
      w₀.writeEach [[RecordReader.bare]] = (w, [[RecordReader.bare]]) ∧ w.columns.length = 6 ∧
      w.write [RecordReader.doorless, RecordReader.bare] = (.ok n, w') ∧
      w.write [RecordReader.doorless, twoFloors] = (.error e, w) := by
  have hs : RecordReader.houses.Sane := by
    simp [Schema.Sane, RecordReader.houses, DataType.Obeys, Field.Obeys, Field.AllObey,
      GroupRule.sane, Field.name, keyName, valueName]
  have hbare : RecordReader.houses.Accepts RecordReader.bare := by
    simp [Schema.Accepts, RecordReader.houses, RecordReader.bare, Field.name, Value.find?,
      Value.matchesType, DataType.isRepeated]
  have hdoorless : RecordReader.houses.Accepts RecordReader.doorless := by
    simp [Schema.Accepts, RecordReader.houses, RecordReader.doorless, Field.name, Value.find?,
      Value.matchesType, DataType.isRepeated]
  have hfloors : ¬ RecordReader.houses.Accepts twoFloors := by
    simp [Schema.Accepts, RecordReader.houses, twoFloors, Field.name, Value.find?]
  obtain ⟨columns, w₀, cache, hc, hopen, haccepted, hlength⟩ : ∃ columns w₀ cache,
      RecordReader.houses.columns = .ok columns ∧
      ofSchema RecordReader.houses (columns.map Stripe.ofColumn) .empty ⟨2⟩ = (.ok w₀, cache) ∧
      (w₀.writeEach [[RecordReader.bare]]).2 = [[RecordReader.bare]] ∧
      (w₀.writeEach [[RecordReader.bare]]).1.columns.length = 6 :=
    ⟨_, _, _, rfl, rfl, by cbv, by cbv⟩
  have hcalls : w₀.writeEach [[RecordReader.bare]] = (_, [[RecordReader.bare]]) :=
    Prod.ext rfl haccepted
  obtain ⟨hto, hkeeps⟩ := keeps_of_ofSchema hc hopen
  obtain ⟨hkeeps, -⟩ := hkeeps.writeEach hto [[RecordReader.bare]]
  have hnever : ∀ s ∈ (w₀.writeEach [[RecordReader.bare]]).1.columns,
      ColumnWriter.NeverFails s.writer s.shape.column.bounds := by
    intro s hmem
    obtain ⟨rows, -, hk⟩ := hkeeps.kept s hmem
    exact hk.neverFails
  obtain ⟨-, hconform, -⟩ := write_accepts hs hopen hcalls hkeeps.usable hnever
    [RecordReader.doorless, RecordReader.bare]
  obtain ⟨-, -, hrefuse⟩ := write_accepts hs hopen hcalls hkeeps.usable hnever
    [RecordReader.doorless, twoFloors]
  obtain ⟨n, w', hwrite⟩ := hconform.2 (by simp [hbare, hdoorless])
  obtain ⟨e, herror⟩ := hrefuse (by simp [hfloors])
  exact ⟨columns, w₀, cache, _, n, w', e, hc, hopen, hcalls, hlength, hwrite, herror⟩

end RecordWriter

end Striping
