import Striping.Proofs.NormalForm

/-!
# Routes through a schema

Every leaf column of a schema belongs to a way from the records down to one leaf. What a column
holds of a record is what lies along that way.

* `Field.Accepts`, `Schema.Accepts`: the records that conform to a schema.
* `Route`: a way from a type to one of its leaves, through elements of lists, through keys or
  values of maps, and through members of structs.
* `Route.column`: the leaf at its end. `DataType.map_column_routes`: **there is one route for each
  leaf**, in the order of the schema.
* `Route.view`: what lies along a route. Along the keys of a map these are the keys of its entries,
  along the values their values.
* `Route.project_view`: **a projection is what lies along the route**, if every map on it has its
  keys, and only these, under the name of keys.
* `projectRecord_route`: so it is for the columns of a schema. `projectRecord_misnamed`: a map that
  names its keys in another way.
-/

namespace Striping

section Acceptance

mutual

/-- The members that a field accepts. A list or a map may be missing, and so may every optional
member; only an optional member may be null. -/
def Field.Accepts : Field → Option Value → Prop
  | .mk _ type optional, none => optional = true ∨ type.isRepeated = true
  | .mk _ type optional, some v => (optional = true ∧ v = .null) ∨ type.Accepts v

/-- The values that a type accepts, null not being one of them. The members of a struct have
different names, all of them names of its fields. -/
def DataType.Accepts : DataType → Value → Prop
  | .primitive leaf, v => v.matchesType (.primitive leaf) = true ∧ v ≠ .null
  | .list element, .list items => ∀ item ∈ items, element.Accepts (some item)
  | .map key value, .map entries =>
    ∀ entry ∈ entries, key.Accepts (some entry.1) ∧ value.Accepts (some entry.2)
  | .struct fields, .struct members =>
    (members.map Prod.fst).Nodup ∧ (∀ member ∈ members, member.1 ∈ fields.map Field.name) ∧
      Field.AllAccept fields members
  | _, _ => False

/-- Each of the fields accepts the member that has its name, or that there is none. -/
def Field.AllAccept : List Field → List (String × Value) → Prop
  | [], _ => True
  | f :: fields, members =>
    f.Accepts (Value.find? members f.name) ∧ Field.AllAccept fields members

end

/-- The records that conform to a schema. -/
def Schema.Accepts (s : Schema) (record : Value) : Prop := (DataType.struct s.fields).Accepts record

@[simp] theorem Field.accepts_none {name : String} {type : DataType} {optional : Bool} :
    (Field.mk name type optional).Accepts none ↔ optional = true ∨ type.isRepeated = true := Iff.rfl

@[simp] theorem Field.accepts_some {name : String} {type : DataType} {optional : Bool} {v : Value} :
    (Field.mk name type optional).Accepts (some v) ↔
      (optional = true ∧ v = .null) ∨ type.Accepts v := Iff.rfl

@[simp] theorem DataType.accepts_primitive {leaf : Primitive} {v : Value} :
    (primitive leaf).Accepts v ↔ v.matchesType (.primitive leaf) = true ∧ v ≠ .null := Iff.rfl

@[simp] theorem DataType.accepts_list {element : Field} {items : List Value} :
    (list element).Accepts (.list items) ↔ ∀ item ∈ items, element.Accepts (some item) := Iff.rfl

@[simp] theorem DataType.accepts_map {key value : Field} {entries : List (Value × Value)} :
    (map key value).Accepts (.map entries) ↔
      ∀ entry ∈ entries, key.Accepts (some entry.1) ∧ value.Accepts (some entry.2) := Iff.rfl

theorem Field.allAccept_iff {fields : List Field} {members : List (String × Value)} :
    Field.AllAccept fields members ↔
      ∀ f ∈ fields, f.Accepts (Value.find? members f.name) := by
  induction fields with
  | nil => exact ⟨fun _ _ h => absurd h List.not_mem_nil, fun _ => trivial⟩
  | cons f fields ih => rw [Field.AllAccept, ih, List.forall_mem_cons]

@[simp] theorem DataType.accepts_struct {fields : List Field} {members : List (String × Value)} :
    (struct fields).Accepts (.struct members) ↔ (members.map Prod.fst).Nodup ∧
      (∀ member ∈ members, member.1 ∈ fields.map Field.name) ∧
        ∀ f ∈ fields, f.Accepts (Value.find? members f.name) := by
  rw [← Field.allAccept_iff]
  exact Iff.rfl

/-- A type does not accept null. -/
theorem DataType.not_accepts_null (type : DataType) : ¬ type.Accepts .null := by
  intro h
  cases type with
  | primitive leaf => exact h.2 rfl
  | list element => exact h
  | map key value => exact h
  | struct fields => exact h

/-- A value that is accepted has the form of its type and is there. -/
theorem DataType.Accepts.form {type : DataType} {v : Value} (h : type.Accepts v) :
    v.matchesType type = true ∧ v ≠ .null := by
  have hv : v ≠ .null := by
    rintro rfl
    exact type.not_accepts_null h
  refine ⟨?_, hv⟩
  cases type with
  | primitive leaf => exact h.1
  | list element => cases v <;> first | rfl | exact h.elim
  | map key value => cases v <;> first | rfl | exact h.elim
  | struct fields => cases v <;> first | rfl | exact h.elim

end Acceptance

/-- The outermost frame of a field. -/
def Field.frame (f : Field) : Frame := ⟨f.repetition, f.type.frameKind⟩

/-- The value of a member, or what is put in its place if it is missing. -/
def Field.present (f : Field) (m : Option Value) : Value := m.getD (f.type.missing f.isOptional)

/-- What is there for a member that is accepted is null, or conforms to the type. -/
theorem Field.Accepts.present {f : Field} {m : Option Value} (h : f.Accepts m) :
    (f.isOptional = true ∧ f.present m = .null) ∨ f.type.Accepts (f.present m) := by
  obtain ⟨name, type, optional⟩ := f
  cases m with
  | none =>
    cases optional with
    | true => exact .inl ⟨rfl, by cases type <;> rfl⟩
    | false =>
      -- an empty list or map conforms to its type
      have hrepeated : type.isRepeated = true := h.resolve_left Bool.false_ne_true
      cases type with
      | list | map => exact .inr fun _ h => absurd h List.not_mem_nil
      | primitive | struct => cases hrepeated
  | some v => exact h

/-- What is put in the place of a missing member is projected like it. -/
theorem Field.project_present (f : Field) (m : Option Value) (path : List String) (c : Path) :
    f.project m path c = f.project (some (f.present m)) path c := by
  obtain ⟨name, type, optional⟩ := f
  cases m with
  | none =>
    cases optional with
    | true => cases type <;> rfl
    | false =>
      cases type with
      -- the path plays no part where there are no entries
      | map key value => exact (DataType.project_map.2 ⟨[], rfl, .nil⟩).symm
      | primitive | list | struct => rfl
  | some v => rfl

/-- A way from a type to one of its leaves. -/
inductive Route : DataType → Type where
  /-- The type is a leaf. -/
  | leaf (leaf : Primitive) : Route (.primitive leaf)
  /-- Through the elements of a list. -/
  | element {element : Field} (below : Route element.type) : Route (.list element)
  /-- Through the keys of a map. -/
  | key {key value : Field} (below : Route key.type) : Route (.map key value)
  /-- Through the values of a map. -/
  | value {key value : Field} (below : Route value.type) : Route (.map key value)
  /-- Through a member of a struct. -/
  | member {fields : List Field} (f : Field) (hf : f ∈ fields) (below : Route f.type) :
      Route (.struct fields)

mutual

/-- The routes below a field. -/
def Field.routes : (f : Field) → List (Route f.type)
  | .mk _ type _ => type.routes

/-- The routes through a type, in the order of its leaves. -/
def DataType.routes : (type : DataType) → List (Route type)
  | .primitive leaf => [.leaf leaf]
  | .list element => element.routes.map .element
  | .map key value => key.routes.map .key ++ value.routes.map .value
  | .struct fields => Field.memberRoutes fields fields fun _ hf => hf

/-- The routes through a struct that begin with some of its members. -/
def Field.memberRoutes (fields : List Field) :
    (some : List Field) → (∀ f ∈ some, f ∈ fields) → List (Route (.struct fields))
  | [], _ => []
  | f :: rest, h =>
    f.routes.map (.member f (h f List.mem_cons_self)) ++
      Field.memberRoutes fields rest fun g hg => h g (List.mem_cons_of_mem f hg)

end

namespace Route

variable {type : DataType}

/-- The leaf at the end of a route. -/
def column : {type : DataType} → Route type → LeafColumn
  | _, leaf p => ⟨[], [], p.physicalType⟩
  | .list f, element below => (below.column.under f.name f.frame).under listGroupName .repeatedGroup
  | .map f _, key below => (below.column.under f.name f.frame).under mapGroupName .repeatedGroup
  | .map _ f, value below => (below.column.under f.name f.frame).under mapGroupName .repeatedGroup
  | _, member f _ below => below.column.under f.name f.frame

/-- What lies along a route in a value: the leaf value at its end, a list of what lies further
along in the elements of a list, or in the keys or the values of a map, and a struct around what
lies in the member of a struct. Where a member is missing, this is what is put there. -/
def view : {type : DataType} → Route type → Value → Nested Cell
  | _, leaf _, v => (v.toCell?.map .scalar).getD .null
  | _, element below, .list items => .list (items.map below.view)
  | _, key below, .map entries => .list (entries.map fun entry => below.view entry.1)
  | _, value below, .map entries => .list (entries.map fun entry => below.view entry.2)
  | _, member f _ below, .struct members =>
    .struct (below.view (f.present (Value.find? members f.name)))
  | _, _, _ => .null

/-- What lies along a route in a record. A record is a struct, but its columns do not say so. -/
def viewRecord {fields : List Field} : Route (.struct fields) → Value → Nested Cell
  | member f _ below, record => below.view (f.present (record.get? f.name))

/-- A route on which every map has its keys, and only these, under the name of keys. -/
def Straight : {type : DataType} → Route type → Prop
  | _, leaf _ => True
  | _, element below => below.Straight
  | .map f _, key below => f.name = keyName ∧ below.Straight
  | .map _ f, value below => f.name ≠ keyName ∧ below.Straight
  | _, member _ _ below => below.Straight

/-- Every route through a sane type is straight. -/
theorem straight_of_sane :
    {type : DataType} → (r : Route type) → type.Obeys .sane → r.Straight
  | _, leaf _, _ => trivial
  | _, element below, hs => below.straight_of_sane (Field.Obeys.type hs)
  | _, key below, ⟨⟨hk, _⟩, hs, _⟩ => ⟨hk, below.straight_of_sane hs.type⟩
  | _, value below, ⟨⟨_, hv⟩, _, hs⟩ => ⟨hv, below.straight_of_sane hs.type⟩
  | _, member _ hf below, ⟨_, hs⟩ => below.straight_of_sane (Field.obeys_of_mem hs hf).type

end Route

mutual

/-- **There is one route for each leaf.** -/
theorem Field.map_column_routes : (f : Field) →
    f.routes.map (fun r => r.column.under f.name f.frame) = f.leaves
  | .mk name type optional => by
    rw [Field.leaves, ← type.map_column_routes, List.map_map]
    rfl

/-- There is one route for each leaf of a type, in the order of the leaves. -/
theorem DataType.map_column_routes : (type : DataType) → type.routes.map Route.column = type.leaves
  | .primitive leaf => rfl
  | .list element => by
    rw [DataType.routes, DataType.leaves, ← element.map_column_routes, List.map_map, List.map_map]
    rfl
  | .map key value => by
    rw [DataType.routes, DataType.leaves, ← key.map_column_routes, ← value.map_column_routes,
      List.map_append, List.map_append, List.map_map, List.map_map, List.map_map, List.map_map]
    rfl
  | .struct fields => Field.map_column_memberRoutes fields fields fun _ hf => hf

theorem Field.map_column_memberRoutes (fields : List Field) :
    (fs : List Field) → (h : ∀ f ∈ fs, f ∈ fields) →
      (Field.memberRoutes fields fs h).map Route.column = Field.allLeaves fs
  | [], _ => rfl
  | f :: rest, h => by
    rw [Field.memberRoutes, Field.allLeaves, ← f.map_column_routes, List.map_append, List.map_map,
      Field.map_column_memberRoutes fields rest]
    rfl

end

theorem Field.routes_eq (f : Field) : f.routes = f.type.routes := by
  obtain ⟨name, type, optional⟩ := f
  rfl

/-- The routes through a member of a struct are among those of the struct. -/
theorem Field.mem_memberRoutes {fields some : List Field} (h : ∀ f ∈ some, f ∈ fields) {f : Field}
    (hf : f ∈ some) {below : Route f.type} (hbelow : below ∈ f.routes) :
    .member f (h f hf) below ∈ Field.memberRoutes fields some h := by
  induction some with
  | nil => cases hf
  | cons g rest ih =>
    rw [Field.memberRoutes]
    rcases List.mem_cons.1 hf with rfl | hf
    · exact List.mem_append_left _ (List.mem_map_of_mem hbelow)
    · exact List.mem_append_right _ (ih (fun f hf => h f (List.mem_cons_of_mem _ hf)) hf)

/-- The routes through a type are all enumerated. -/
theorem Route.mem_routes : {type : DataType} → (r : Route type) → r ∈ type.routes
  | _, leaf _ => List.mem_singleton_self _
  | .list f, element below => by
    rw [DataType.routes, f.routes_eq]
    exact List.mem_map_of_mem below.mem_routes
  | .map f g, key below => by
    rw [DataType.routes, f.routes_eq]
    exact List.mem_append_left _ (List.mem_map_of_mem below.mem_routes)
  | .map f g, value below => by
    rw [DataType.routes, g.routes_eq]
    exact List.mem_append_right _ (List.mem_map_of_mem below.mem_routes)
  | .struct fields, member f hf below => by
    refine Field.mem_memberRoutes (fun _ hf => hf) hf ?_
    rw [f.routes_eq]
    exact below.mem_routes

section Projection

variable {type : DataType}

/-- A leaf value has a stored form. -/
theorem Value.exists_toCell {leaf : Primitive} {v : Value}
    (hm : v.matchesType (.primitive leaf) = true) (hv : v ≠ .null) :
    ∃ cell, v.toCell? = some cell := by
  cases v with
  | null => exact absurd rfl hv
  | list | map | struct => cases hm
  | _ => exact ⟨_, rfl⟩

theorem Route.view_null (r : Route type) : r.view .null = .null := by
  cases r <;> rfl

/-- A member is projected to what lies along the route, if that holds for the values of its
type. -/
theorem Field.project_view {f : Field} {r : Route f.type}
    (hr : ∀ v c, f.type.Accepts v → f.type.project v r.column.path c = .ok (r.view v))
    {m : Option Value} (hm : f.Accepts m) (c : Path) :
    f.project m r.column.path c = .ok (r.view (f.present m)) := by
  rw [f.project_present]
  obtain ⟨name, type, optional⟩ := f
  rcases hm.present with ⟨-, hnull⟩ | hv
  · rw [hnull, r.view_null]
    rfl
  · obtain ⟨hform, hnull⟩ := hv.form
    rw [Field.project_of_ne_null hnull]
    exact (if_pos hform).trans (hr _ c hv)

/-- **A projection is what lies along the route.** The values of a list or a map are projected one
by one. -/
theorem Route.project_view :
    {type : DataType} → (r : Route type) → type.Obeys .distinct → r.Straight →
    ∀ v c, type.Accepts v → type.project v r.column.path c = .ok (r.view v)
  | .primitive _, .leaf _, _, _ => by
    intro v c hv
    obtain ⟨cell, hcell⟩ := Value.exists_toCell hv.1 hv.2
    rw [Route.view, hcell]
    simp [DataType.project, hcell]
  | .list _, .element below, hd, hs => by
    intro v c hv
    obtain ⟨items, rfl⟩ := Value.exists_items hv.form.1 hv.form.2
    refine DataType.project_list.2 ⟨_, rfl, List.forall₂_map_right_iff.2 (List.forall₂_same.2 ?_)⟩
    intro item hitem
    exact Field.project_view (below.project_view (Field.Obeys.type hd) hs) (hv item hitem) c
  | .map f _, .key below, hd, hs => by
    intro v c hv
    obtain ⟨entries, rfl⟩ := Value.exists_entries hv.form.1 hv.form.2
    refine DataType.project_entries.2
      ⟨_, rfl, List.forall₂_map_right_iff.2 (List.forall₂_same.2 ?_)⟩
    intro entry hentry
    have hname : (below.column.under f.name f.frame).path.head? = some keyName :=
      congrArg some hs.1
    rw [Field.SeesEntry, if_pos hname]
    exact Field.project_view (below.project_view hd.2.1.type hs.2)
      (hv entry hentry).1 c
  | .map _ f, .value below, hd, hs => by
    intro v c hv
    obtain ⟨entries, rfl⟩ := Value.exists_entries hv.form.1 hv.form.2
    refine DataType.project_entries.2
      ⟨_, rfl, List.forall₂_map_right_iff.2 (List.forall₂_same.2 ?_)⟩
    intro entry hentry
    have hname : (below.column.under f.name f.frame).path.head? ≠ some keyName :=
      fun h => hs.1 (Option.some.inj h)
    rw [Field.SeesEntry, if_neg hname]
    exact Field.project_view (below.project_view hd.2.2.type hs.2)
      (hv entry hentry).2 c
  | .struct _, .member f hf below, hd, hs => by
    intro v c hv
    obtain ⟨members, rfl⟩ := Value.exists_members hv.form.1 hv.form.2
    refine DataType.project_struct.2
      ⟨f.name, below.column.path, f, _, rfl, Field.find?_of_nodup hd.1 hf, ?_, rfl⟩
    exact Field.project_view (below.project_view (Field.obeys_of_mem hd.2 hf).type hs)
      ((DataType.accepts_struct.1 hv).2.2 f hf) c

/-- So it is for records. -/
theorem Route.projectRecord_view {fields : List Field}
    (hd : (DataType.struct fields).Obeys .distinct)
    {record : Value} (hv : (DataType.struct fields).Accepts record) :
    (r : Route (.struct fields)) → r.Straight →
      projectRecord fields record ⟨r.column.path⟩ = .ok (r.viewRecord record)
  | .member f hf below, hs => by
    obtain ⟨members, rfl⟩ := Value.exists_members hv.form.1 hv.form.2
    refine projectRecord_struct.2
      ⟨f.name, below.column.path, f, rfl, Field.find?_of_nodup hd.1 hf, ?_⟩
    exact Field.project_view (below.project_view (Field.obeys_of_mem hd.2 hf).type hs)
      ((DataType.accepts_struct.1 hv).2.2 f hf) _

end Projection

/-- The routes of a schema, one for each column. -/
def Schema.routes (s : Schema) : List (Route (.struct s.fields)) :=
  (DataType.struct s.fields).routes

/-- The columns of a schema are the leaves at the ends of its routes. -/
theorem Schema.forall₂_routes {s : Schema} {columns : List Column} (hc : s.columns = .ok columns) :
    List.Forall₂ (fun r column => r.column.column .root [] = .ok column) s.routes columns := by
  have hleaves := Schema.columns_eq_ok_iff.1 hc
  have hroutes : s.routes.map Route.column = Field.allLeaves s.fields :=
    (DataType.struct s.fields).map_column_routes
  rw [← hroutes, List.forall₂_map_left_iff] at hleaves
  exact hleaves

/-- **Columns hold what lies along their routes.** Every column of a schema has a route of its
own, through the names of its path. A record that conforms to the schema is projected onto the
column to what lies along that route: for a column below the key of a map these are the keys of
its entries, for a column below the value their values, at every depth. Maps may name their values
as they like, but have to name their keys by the name of keys. -/
theorem projectRecord_route {s : Schema} (hs : s.Distinct) {columns : List Column}
    (hc : s.columns = .ok columns) :
    List.Forall₂ (fun r column => column.path = ⟨r.column.path⟩ ∧ (r.Straight → ∀ record,
        s.Accepts record → projectRecord s.fields record column.path = .ok (r.viewRecord record)))
      s.routes columns := by
  refine (Schema.forall₂_routes hc).imp fun r column hmake => ?_
  have hpath := LeafColumn.path_of_column hmake
  refine ⟨hpath, fun hr record hv => ?_⟩
  rw [hpath]
  exact r.projectRecord_view hs hv hr

/-- Records with shops, each of them with a map from numbers of goods to how many there are. -/
def stocks : Schema where
  name := "stocks"
  fields := [.mk "shops" (.list (.mk elementName (.struct [.mk "stock"
    (.map (.mk keyName (.primitive .int32) false) (.mk "count" (.primitive .int32) true))
      false]) false)) false]

/-- A shop with two goods, of one of which the count is not known, and a shop without a stock. -/
def twoShops : Value :=
  .struct [("shops", .list [.struct [("stock", .map [(.int32 7, .int32 3), (.int32 8, .null)])],
    .struct []])]

/-- Below the key there are the numbers of the goods, below the value their counts. -/
theorem projectRecord_route_stocks :
    ∃ columns, stocks.Distinct ∧ stocks.columns = .ok columns ∧ stocks.Accepts twoShops ∧
      (∀ r ∈ stocks.routes, r.Straight) ∧
      columns.map (fun column => projectRecord stocks.fields twoShops column.path) =
        [.ok (.list [.struct (.list [.scalar (.int32 7), .scalar (.int32 8)]), .struct (.list [])]),
          .ok (.list [.struct (.list [.scalar (.int32 3), .null]), .struct (.list [])])] := by
  have hs : stocks.Distinct := by
    simp [Schema.Distinct, stocks, DataType.Obeys, Field.Obeys, Field.AllObey, GroupRule.distinct,
      Field.name, keyName]
  have haccepts : stocks.Accepts twoShops := by
    simp [Schema.Accepts, stocks, twoShops, Field.name, Value.find?, Value.matchesType,
      DataType.isRepeated]
  have hsane : stocks.Sane := by
    simp [Schema.Sane, stocks, DataType.Obeys, Field.Obeys, Field.AllObey, GroupRule.sane,
      Field.name, keyName]
  have hstraight : ∀ r ∈ stocks.routes, r.Straight := fun r _ => r.straight_of_sane hsane
  obtain ⟨columns, hc⟩ : ∃ columns, stocks.columns = .ok columns := ⟨_, rfl⟩
  refine ⟨columns, hs, hc, haccepts, hstraight, ?_⟩
  have hroutes := (projectRecord_route hs hc).imp fun r column h =>
    h.2 (r.straight_of_sane hsane) twoShops haccepts
  exact (map_eq_map_of_forall₂ hroutes.flip).trans rfl

/-- Records with a map that names its keys in another way. -/
def prices : Schema where
  name := "prices"
  fields := [.mk "prices"
    (.map (.mk "good" (.primitive .int32) false) (.mk "price" (.primitive .int32) false)) false]

/-- The column of the keys is given the values. -/
theorem projectRecord_misnamed :
    ∃ columns, prices.Distinct ∧ prices.columns = .ok columns ∧
      prices.Accepts (.struct [("prices", .map [(.int32 1, .int32 10)])]) ∧
      columns.map (·.path.parts) =
        [["prices", "key_value", "good"], ["prices", "key_value", "price"]] ∧
      prices.routes.map (·.viewRecord (.struct [("prices", .map [(.int32 1, .int32 10)])])) =
        [.list [.scalar (.int32 1)], .list [.scalar (.int32 10)]] ∧
      columns.map (fun column => projectRecord prices.fields
          (.struct [("prices", .map [(.int32 1, .int32 10)])]) column.path) =
        [.ok (.list [.scalar (.int32 10)]), .ok (.list [.scalar (.int32 10)])] := by
  have hs : prices.Distinct := by
    simp [Schema.Distinct, prices, DataType.Obeys, Field.Obeys, Field.AllObey, GroupRule.distinct,
      Field.name]
  have haccepts : prices.Accepts (.struct [("prices", .map [(.int32 1, .int32 10)])]) := by
    simp [Schema.Accepts, prices, Field.name, Value.find?, Value.matchesType]
  exact ⟨_, hs, rfl, haccepts, rfl, rfl, rfl⟩

end Striping
