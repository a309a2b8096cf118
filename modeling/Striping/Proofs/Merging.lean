import Striping.Proofs.Overlap

/-!
# Merging is sound

Whatever rows the columns deliver, a record that they merge into is one that projects back onto
them. So columns that do not fit together are never merged.

* `transpose_eq_ok`, `mergeMembers_eq_ok`: what columns have to look like to be taken apart.
* `forall₂_of_rowsOf`: items taken row by row, put together column by column.
* `Field.Returns`: what a field is merged into has the slices that it was merged from.
* `Field.returns`, `projectRecord_of_merge`: **every record that is merged has the row it was
  merged from**.
-/

namespace Striping

section Inversion

variable {field : String} {slices : List (Nested Cell)}

theorem listItems_eq_ok {n : Nat} {lists : List (List (Nested Cell))}
    (h : listItems field n slices = .ok lists) :
    slices = lists.map .list ∧ ∀ items ∈ lists, items.length = n := by
  induction slices generalizing lists with
  | nil =>
    obtain rfl := Except.ok.inj h
    exact ⟨rfl, fun _ h => absurd h List.not_mem_nil⟩
  | cons slice slices ih =>
    cases slice with
    | list items =>
      rw [listItems] at h
      split at h
      · rename_i hn
        obtain ⟨rest, hrest, rfl⟩ := map_eq_ok_iff.1 h
        obtain ⟨rfl, hall⟩ := ih hrest
        exact ⟨rfl, List.forall_mem_cons.2 ⟨hn, hall⟩⟩
      · cases h
    | _ => cases h

/-- Columns that are taken apart are lists of one length. -/
theorem transpose_eq_ok {rows : List (List (Nested Cell))} (h : transpose field slices = .ok rows) :
    ∃ n lists, slices = lists.map .list ∧ (∀ items ∈ lists, items.length = n) ∧
      rows = rowsOf n lists := by
  unfold transpose at h
  obtain ⟨lists, hlists, rfl⟩ := map_eq_ok_iff.1 h
  obtain ⟨rfl, hall⟩ := listItems_eq_ok hlists
  exact ⟨_, lists, rfl, hall, rfl⟩

theorem structMembers_eq_ok {members : List (Nested Cell)}
    (h : structMembers field slices = .ok members) : slices = members.map .struct := by
  induction slices generalizing members with
  | nil =>
    obtain rfl := Except.ok.inj h
    rfl
  | cons slice slices ih =>
    cases slice with
    | struct member =>
      obtain ⟨rest, hrest, rfl⟩ := map_eq_ok_iff.1 h
      rw [ih hrest]
      rfl
    | _ => cases h

/-- Columns that are merged into a struct are structs. -/
theorem mergeMembers_eq_ok {fields : List Field} {members : List (String × Value)}
    (hl : slices.length = Field.leafCounts fields)
    (h : Field.mergeMembers fields field slices = .ok members) :
    ∃ columns, slices = columns.map .struct ∧ mergeFields fields columns = .ok members := by
  have hstructs : ∃ columns : List (Nested Cell), slices = columns.map .struct := by
    induction fields generalizing slices members with
    | nil => exact ⟨[], List.eq_nil_of_length_eq_zero hl⟩
    | cons f fields ih =>
      rw [Field.leafCounts] at hl
      rw [Field.mergeMembers] at h
      split at h
      · cases h
      · rename_i own hown
        split at h
        · cases h
        · obtain ⟨rest, hrest, -⟩ := map_eq_ok_iff.1 h
          obtain ⟨columns, hcolumns⟩ := ih (by rw [List.length_drop]; omega) hrest
          refine ⟨own ++ columns, ?_⟩
          rw [List.map_append, ← structMembers_eq_ok hown, ← hcolumns, List.take_append_drop]
  obtain ⟨columns, rfl⟩ := hstructs
  exact ⟨columns, rfl, by rwa [mergeMembers_structs] at h⟩

end Inversion

section Transposing

variable {α ι κ : Type}

theorem length_rowsOf (n : Nat) (columns : List (List α)) : (rowsOf n columns).length = n := by
  induction n generalizing columns with
  | zero => rfl
  | succ n ih => rw [rowsOf, List.length_cons, ih]

/-- What holds of all items of the columns holds along each row. -/
theorem forall₂_of_mem_rowsOf {R : ι → α → Prop} {is : List ι} {columns : List (List α)} {n : Nat}
    (hn : ∀ column ∈ columns, column.length = n)
    (h : List.Forall₂ (fun i column => ∀ a ∈ column, R i a) is columns) {row : List α}
    (hrow : row ∈ rowsOf n columns) : List.Forall₂ R is row := by
  have hcolumns : List.Forall₂ (fun i column => List.Forall₂ (fun (_ : Unit) a => R i a)
      (List.replicate n ()) column) is columns := by
    obtain ⟨hlen, hzip⟩ := List.forall₂_iff_zip.1 h
    refine List.forall₂_iff_zip.2 ⟨hlen, fun hmem => List.forall₂_iff_zip.2 ⟨?_, fun hitem => ?_⟩⟩
    · rw [List.length_replicate, hn _ (List.of_mem_zip hmem).2]
    · exact hzip hmem _ (List.of_mem_zip hitem).2
  have hrows := rowsOf_forall₂ hcolumns
  rw [List.length_replicate] at hrows
  obtain ⟨-, -, hr⟩ := exists_of_forall₂ hrows hrow
  exact hr

/-- Each row has an item of each column. -/
theorem length_of_mem_rowsOf {n : Nat} {columns : List (List α)}
    (h : ∀ column ∈ columns, column.length = n) {row : List α} (hrow : row ∈ rowsOf n columns) :
    row.length = columns.length := by
  have hall : List.Forall₂ (fun (_ : List α) (column : List α) => ∀ a ∈ column, True) columns
      columns := List.forall₂_same.2 fun _ _ _ _ => trivial
  exact (forall₂_of_mem_rowsOf (R := fun _ _ => True) h hall hrow).length_eq.symm

/-- **Columns across rows.** What each row holds along the columns, each column holds along the
rows. -/
theorem forall₂_of_rowsOf {R : ι → κ → α → Prop} {is : List ι} {ks : List κ}
    {columns : List (List α)} (hl : is.length = columns.length)
    (hn : ∀ column ∈ columns, column.length = ks.length)
    (h : List.Forall₂ (fun k row => List.Forall₂ (fun i a => R i k a) is row) ks
      (rowsOf ks.length columns)) :
    List.Forall₂ (fun i column => List.Forall₂ (R i) ks column) is columns := by
  induction ks generalizing columns with
  | nil =>
    refine List.forall₂_iff_zip.2 ⟨hl, fun {i column} hmem => ?_⟩
    rw [List.eq_nil_of_length_eq_zero (hn column (List.of_mem_zip hmem).2)]
    exact .nil
  | cons k ks ih =>
    rw [List.length_cons, rowsOf] at h
    obtain _ | ⟨hrow, hrest⟩ := h
    have htails : ∀ column ∈ columns.map List.tail, column.length = ks.length := by
      intro column hc
      obtain ⟨column, hmem, rfl⟩ := List.mem_map.1 hc
      rw [List.length_tail, hn column hmem, List.length_cons, Nat.add_sub_cancel]
    replace hrest := ih (by rw [List.length_map, hl]) htails hrest
    -- the first item of each column is in the first row
    clear ih hl htails
    induction columns generalizing is with
    | nil =>
      obtain rfl := List.forall₂_nil_right_iff.1 hrest
      exact .nil
    | cons column columns ihc =>
      rw [List.forall_mem_cons] at hn
      obtain _ | ⟨a, items⟩ := column
      · cases hn.1
      · obtain _ | ⟨ha, hrow⟩ := hrow
        obtain _ | ⟨hitems, hrest⟩ := hrest
        exact .cons (.cons ha hitems) (ihc hn.2 hrow hrest)

/-- What holds along two lists for everything holds for everything along them. -/
theorem forall₂_forall {β γ : Type} [Nonempty γ] {R : γ → α → β → Prop} {as : List α} {bs : List β}
    (h : ∀ c, List.Forall₂ (R c) as bs) : List.Forall₂ (fun a b => ∀ c, R c a b) as bs := by
  have hl := (h (Classical.arbitrary γ)).length_eq
  exact List.forall₂_iff_zip.2 ⟨hl, fun hmem c => (List.forall₂_iff_zip.1 (h c)).2 hmem⟩

/-- Columns that are taken apart into rows, each of which makes a value, are lists of what the
rows hold of the values. -/
theorem exists_lists_of_transpose {β : Type} {R : ι → β → Nested Cell → Prop} {is : List ι}
    {field : String} {slices : List (Nested Cell)} {rows : List (List (Nested Cell))}
    {f : List (Nested Cell) → Except Error β} {bs : List β} (hl : is.length = slices.length)
    (ht : transpose field slices = .ok rows) (hm : rows.mapM f = .ok bs)
    (h : ∀ row b, row.length = is.length → f row = .ok b →
      List.Forall₂ (fun i a => R i b a) is row) :
    ∃ lists, slices = lists.map .list ∧
      List.Forall₂ (fun i column => List.Forall₂ (R i) bs column) is lists := by
  obtain ⟨n, lists, rfl, hn, rfl⟩ := transpose_eq_ok ht
  rw [List.length_map] at hl
  have hm := mapM_eq_ok_iff.1 hm
  obtain rfl : n = bs.length := by rw [← hm.length_eq, length_rowsOf]
  refine ⟨lists, rfl, forall₂_of_rowsOf hl hn ?_⟩
  -- every row has an item of each column
  have hrows : ∀ row ∈ rowsOf bs.length lists, row.length = is.length := by
    intro row hrow
    rw [length_of_mem_rowsOf hn hrow, hl]
  have hboth := (List.forall₂_and_left _ _).2 ⟨hrows, hm⟩
  exact (hboth.imp fun row b hrow => h row b hrow.1 hrow.2).flip

end Transposing

/-- Each column of a field holds what it sees of a member. -/
def Field.Holds (f : Field) (v : Value) (slices : List (Nested Cell)) : Prop :=
  ∀ c, List.Forall₂ (fun l n => f.project (some v) l.path c = .ok n) f.type.leaves slices

/-- Each column of a type holds what it sees of a value. -/
def DataType.Holds (type : DataType) (v : Value) (slices : List (Nested Cell)) : Prop :=
  ∀ c, List.Forall₂ (fun l n => type.project v l.path c = .ok n) type.leaves slices

/-- Whatever columns a field is merged from hold what they see of it. -/
def Field.Returns (f : Field) : Prop :=
  ∀ slices v, slices.length = f.leafCount → f.merge slices = .ok v → f.Holds v slices

/-- Whatever columns a value of a type is merged from hold what they see of it. -/
def DataType.Returns (type : DataType) : Prop :=
  ∀ name slices v, slices ≠ [] → slices.length = type.leafCount →
    type.merge name slices = .ok v →
      v.matchesType type = true ∧ v ≠ .null ∧ type.Holds v slices

theorem DataType.Returns.field {type : DataType} (h : type.Returns) (name : String)
    (optional : Bool) : (Field.mk name type optional).Returns := by
  intro slices v hl hm c
  rw [Field.leafCount] at hl
  have hleaves : type.leaves.length = slices.length := by rw [type.length_leaves, hl]
  cases slices with
  | nil =>
    have hnil : (Field.mk name type optional).type.leaves = [] :=
      List.eq_nil_of_length_eq_zero hleaves
    rw [hnil]
    exact .nil
  | cons first others =>
    rw [Field.merge] at hm
    split at hm
    · rename_i hfirst
      split at hm
      · -- all columns are null
        rename_i hothers
        obtain rfl := Except.ok.inj hm
        refine List.forall₂_iff_zip.2 ⟨hleaves, fun {l n} hmem => ?_⟩
        have hn : n.isNull = true := by
          rcases List.mem_cons.1 (List.of_mem_zip hmem).2 with rfl | hmem
          · exact hfirst
          · exact List.all_eq_true.1 hothers n hmem
        cases n with
        | null => rfl
        | _ => cases hn
      · cases hm
    · obtain ⟨hmatch, hv, hholds⟩ := h name _ v (List.cons_ne_nil _ _) hl hm
      refine (hholds c).imp fun l n hn => ?_
      rwa [Field.project_of_ne_null hv, if_pos hmatch]

/-- A leaf value has the stored form that it was read from. -/
theorem Primitive.toValue_eq_ok {leaf : Primitive} {field : String} {cell : Cell} {v : Value}
    (h : leaf.toValue field cell = .ok v) :
    v.matchesType (.primitive leaf) = true ∧ v ≠ .null ∧ v.toCell? = some cell := by
  cases leaf <;> cases cell <;> simp only [Primitive.toValue, Except.ok.injEq, reduceCtorEq] at h
  case string.byteArray bytes =>
    obtain ⟨s, hs, rfl⟩ := map_eq_ok_iff.1 h
    exact ⟨rfl, by simp, congrArg (some ∘ Cell.byteArray) (LeafType.textOf_eq_ok_iff.1 hs).symm⟩
  all_goals
    subst h
    exact ⟨rfl, by simp, rfl⟩

theorem DataType.returns_primitive (leaf : Primitive) : (primitive leaf).Returns := by
  intro name slices v _ hl hm
  obtain ⟨slice, rfl⟩ := List.length_eq_one_iff.1 hl
  cases slice with
  | scalar cell =>
    obtain ⟨hmatch, hv, hcell⟩ := Primitive.toValue_eq_ok hm
    refine ⟨hmatch, hv, fun c => .cons ?_ .nil⟩
    simp [DataType.project, hcell]
  | _ => cases hm

theorem Field.length_type_leaves (f : Field) : f.type.leaves.length = f.leafCount := by
  obtain ⟨name, type, optional⟩ := f
  rw [Field.leafCount, ← type.length_leaves]
  rfl

theorem Field.Returns.list {element : Field} (h : element.Returns) :
    (DataType.list element).Returns := by
  intro name slices v _ hl hm
  rw [DataType.leafCount, ← element.length_type_leaves] at hl
  rw [DataType.merge] at hm
  split at hm
  · cases hm
  · rename_i rows htranspose
    obtain ⟨items, hmerge, rfl⟩ := map_eq_ok_iff.1 hm
    refine ⟨rfl, by simp, fun c => ?_⟩
    obtain ⟨lists, rfl, hlists⟩ := exists_lists_of_transpose
      (R := fun (l : LeafColumn) item n => element.project (some item) l.path c = .ok n)
      hl.symm htranspose hmerge fun row item hrow hitem =>
        h row item (hrow.trans element.length_type_leaves) hitem c
    obtain ⟨frame, hleaves⟩ := element.leaves_eq
    rw [DataType.leaves, hleaves, List.forall₂_map_left_iff, List.forall₂_map_left_iff,
      List.forall₂_map_right_iff]
    exact hlists.imp fun l column hc => DataType.project_list.2 ⟨column, rfl, hc⟩

/-- The slices of an entry are those of its key, then those of its value. -/
theorem Field.holds_entry {key value : Field} {entry : Value × Value} {row : List (Nested Cell)}
    (hk : key.name = keyName) (hv : value.name ≠ keyName) {n : Nat}
    (hkey : key.Holds entry.1 (row.take n)) (hvalue : value.Holds entry.2 (row.drop n))
    (c : Path) :
    List.Forall₂ (fun (l : LeafColumn) n => Field.SeesEntry key value l.path c entry n)
      (key.leaves ++ value.leaves) row := by
  obtain ⟨kf, hkl⟩ := key.leaves_eq
  obtain ⟨vf, hvl⟩ := value.leaves_eq
  rw [← List.take_append_drop n row, hkl, hvl]
  refine List.rel_append (List.forall₂_map_left_iff.2 ?_) (List.forall₂_map_left_iff.2 ?_)
  · refine (hkey c).imp fun l m hm => ?_
    have hpath : (LeafColumn.under key.name kf l).path.head? = some keyName := congrArg some hk
    rwa [Field.SeesEntry, if_pos hpath]
  · refine (hvalue c).imp fun l m hm => ?_
    have hpath : (LeafColumn.under value.name vf l).path.head? ≠ some keyName :=
      fun h => hv (Option.some.inj h)
    rwa [Field.SeesEntry, if_neg hpath]

theorem Field.Returns.map {key value : Field} (hk : key.name = keyName)
    (hv : value.name ≠ keyName) (hkey : key.Returns) (hvalue : value.Returns) :
    (DataType.map key value).Returns := by
  intro name slices v _ hl hm
  have hcount : (key.leaves ++ value.leaves).length = key.leafCount + value.leafCount := by
    rw [List.length_append, key.length_leaves, value.length_leaves]
  rw [DataType.leafCount, ← hcount] at hl
  rw [DataType.merge] at hm
  split at hm
  · cases hm
  · rename_i rows htranspose
    obtain ⟨entries, hmerge, rfl⟩ := map_eq_ok_iff.1 hm
    refine ⟨rfl, by simp, fun c => ?_⟩
    obtain ⟨lists, rfl, hlists⟩ := exists_lists_of_transpose
      (R := fun (l : LeafColumn) => Field.SeesEntry key value l.path c)
      hl.symm htranspose hmerge fun row entry hrow hentry => by
        -- the columns of the key come first in a row, those of the value behind them
        obtain ⟨k, hk', hentry⟩ := bind_eq_ok_iff.1 hentry
        obtain ⟨v, hv', hentry⟩ := bind_eq_ok_iff.1 hentry
        obtain rfl := Except.ok.inj hentry
        rw [hcount] at hrow
        refine Field.holds_entry hk hv (hkey _ k ?_ hk') (hvalue _ v ?_ hv') c
        · rw [List.length_take]; omega
        · rw [List.length_drop]; omega
    rw [DataType.leaves, List.forall₂_map_left_iff, List.forall₂_map_right_iff]
    exact hlists.imp fun l column hc => DataType.project_entries.2 ⟨column, rfl, hc⟩

/-- A member is found by its name if no other has it. -/
theorem Value.find?_of_nodup {members : List (String × Value)}
    (h : (members.map Prod.fst).Nodup) {name : String} {v : Value} (hv : (name, v) ∈ members) :
    Value.find? members name = some v := by
  unfold Value.find?
  induction members with
  | nil => cases hv
  | cons member members ih =>
    rw [List.map_cons, List.nodup_cons] at h
    rw [List.find?_cons]
    rcases List.mem_cons.1 hv with rfl | hv
    · rw [beq_self_eq_true]
      rfl
    · have hne : (member.1 == name) = false := by
        rw [beq_eq_false_iff_ne]
        intro heq
        exact h.1 (heq ▸ List.mem_map_of_mem hv)
      rw [hne]
      exact ih h.2 hv

/-- The members that are merged have the names of the fields, and hold what is seen of them. -/
theorem Field.seen_of_mergeFields {fields : List Field} (h : ∀ f ∈ fields, f.Returns)
    {row : List (Nested Cell)} {members : List (String × Value)}
    (hl : row.length = Field.leafCounts fields) (hm : mergeFields fields row = .ok members) :
    members.map Prod.fst = fields.map Field.name ∧
      ∀ c, List.Forall₂ (fun l n => ∃ f ∈ fields, ∃ v rest, (f.name, v) ∈ members ∧
        l.path = f.name :: rest ∧ f.project (some v) rest c = .ok n)
          (Field.allLeaves fields) row := by
  induction fields generalizing row members with
  | nil =>
    obtain rfl := Except.ok.inj hm
    obtain rfl := List.eq_nil_of_length_eq_zero hl
    exact ⟨rfl, fun _ => .nil⟩
  | cons f fields ih =>
    rw [List.forall_mem_cons] at h
    rw [Field.leafCounts] at hl
    rw [mergeFields] at hm
    split at hm
    · cases hm
    · rename_i v hv
      obtain ⟨others, hothers, rfl⟩ := map_eq_ok_iff.1 hm
      obtain ⟨hnames, hrest⟩ := ih h.2 (by rw [List.length_drop]; omega) hothers
      have hown := h.1 _ v (by rw [List.length_take]; omega) hv
      refine ⟨congrArg (f.name :: ·) hnames, fun c => ?_⟩
      obtain ⟨frame, hleaves⟩ := f.leaves_eq
      rw [Field.allLeaves, hleaves, ← List.take_append_drop f.leafCount row]
      refine List.rel_append (List.forall₂_map_left_iff.2 ?_) ?_
      · refine (hown c).imp fun l n hn => ?_
        exact ⟨f, List.mem_cons_self, v, l.path, List.mem_cons_self, rfl, hn⟩
      · refine (hrest c).imp ?_
        rintro l n ⟨g, hg, v, rest, hv, hn⟩
        exact ⟨g, List.mem_cons_of_mem _ hg, v, rest, List.mem_cons_of_mem _ hv, hn⟩

/-- A struct that is merged is seen by the names of its members. -/
theorem Field.project_of_mergeFields {fields : List Field} (h : ∀ f ∈ fields, f.Returns)
    (hn : (fields.map Field.name).Nodup) {row : List (Nested Cell)}
    {members : List (String × Value)} (hl : row.length = Field.leafCounts fields)
    (hm : mergeFields fields row = .ok members) (c : Path) :
    List.Forall₂ (fun l n => ∃ name rest f, l.path = name :: rest ∧
      Field.find? fields name = some f ∧ f.project (Value.find? members name) rest c = .ok n)
        (Field.allLeaves fields) row := by
  obtain ⟨hnames, hseen⟩ := Field.seen_of_mergeFields h hl hm
  refine (hseen c).imp ?_
  rintro l n ⟨f, hf, v, rest, hv, hpath, hp⟩
  refine ⟨f.name, rest, f, hpath, Field.find?_of_nodup hn hf, ?_⟩
  rwa [Value.find?_of_nodup (hnames ▸ hn) hv]

theorem Field.returns_struct {fields : List Field} (h : ∀ f ∈ fields, f.Returns)
    (hn : (fields.map Field.name).Nodup) : (DataType.struct fields).Returns := by
  intro name slices v _ hl hm
  rw [DataType.leafCount] at hl
  obtain ⟨members, hmembers, rfl⟩ := map_eq_ok_iff.1 hm
  obtain ⟨columns, rfl, hfields⟩ := mergeMembers_eq_ok hl hmembers
  rw [List.length_map] at hl
  refine ⟨rfl, by simp, fun c => ?_⟩
  rw [DataType.leaves, List.forall₂_map_right_iff]
  refine (Field.project_of_mergeFields h hn hl hfields c).imp ?_
  rintro l n ⟨name, rest, f, hpath, hf, hp⟩
  exact DataType.project_struct.2 ⟨name, rest, f, n, hpath, hf, hp, rfl⟩

mutual

/-- **What a field is merged into has the slices that it was merged from.** -/
theorem Field.returns : (f : Field) → f.Obeys .named → f.Returns
  | .mk name type optional, hn => (type.returns hn).field name optional

theorem DataType.returns : (type : DataType) → type.Obeys .named → type.Returns
  | .primitive leaf, _ => DataType.returns_primitive leaf
  | .list element, hn => (element.returns hn).list
  | .map key value, ⟨⟨hk, hv⟩, hnk, hnv⟩ =>
    Field.Returns.map hk hv (key.returns hnk) (value.returns hnv)
  | .struct fields, ⟨hnodup, hn⟩ => Field.returns_struct (Field.returns_of_mem fields hn) hnodup

theorem Field.returns_of_mem :
    (fields : List Field) → Field.AllObey .named fields → ∀ f ∈ fields, f.Returns
  | [], _ => fun _ h => absurd h List.not_mem_nil
  | f :: fields, ⟨hf, hn⟩ => List.forall_mem_cons.2 ⟨f.returns hf, Field.returns_of_mem fields hn⟩

end

/-- **Merging neither invents nor hides anything.** If some row of all columns is merged into a
record, then each column sees of that record just what it holds in the row. In particular, two
columns hold the same down to the depth at which their paths part: they agree on every null, on
the length of every list, and on the form of every value there. -/
theorem projectRecord_of_merge {s : Schema} (hs : s.Named) {columns : List Column}
    (hc : s.columns = .ok columns) {row : List (Nested Cell)} (hl : row.length = columns.length)
    {record : Value} (h : mergeRecord s.fields row = .ok record) :
    List.Forall₂ (fun column n => projectRecord s.fields record column.path = .ok n) columns row ∧
      ∀ p ∈ columns.zip row, ∀ q ∈ columns.zip row, ∀ k,
        p.1.path.parts.take k = q.1.path.parts.take k → p.2.upTo k = q.2.upTo k := by
  obtain ⟨members, hm, rfl⟩ := map_eq_ok_iff.1 h
  have hleaves := Schema.columns_eq_ok_iff.1 hc
  have hcount : row.length = Field.leafCounts s.fields := by
    rw [hl, ← hleaves.length_eq, Field.length_allLeaves]
  have hrow : List.Forall₂
      (fun column n => projectRecord s.fields (.struct members) column.path = .ok n)
      columns row := by
    have hp := Field.project_of_mergeFields (Field.returns_of_mem s.fields hs.2) hs.1 hcount hm
    refine (forall₂_trans hleaves.flip (forall₂_forall hp)).imp ?_
    rintro column n ⟨l, hmake, hn⟩
    obtain ⟨name, rest, f, hpath, hf, hp⟩ := hn column.path
    refine projectRecord_struct.2 ⟨name, rest, f, ?_, hf, hp⟩
    rw [LeafColumn.path_of_column hmake, hpath]
  refine ⟨hrow, ?_⟩
  intro p hp q hq k hk
  obtain ⟨-, hzip⟩ := List.forall₂_iff_zip.1 hrow
  exact upTo_projectRecord (hzip hp) (hzip hq) hk

/-- Records with a list of structs. -/
def marks : Schema where
  name := "marks"
  fields := [.mk "marks" (.list (.mk elementName (.struct [.mk "id" (.primitive .int32) false,
    .mk "score" (.primitive .double) true]) false)) true]

example : mergeRecord marks.fields [.list [.struct (.scalar (.int32 1))], .list []] =
    .error (mergeFault "marks" .unevenLists) := rfl

/-- Two marks, one of them without a score. -/
def twoMarks : List (Nested Cell) :=
  [.list [.struct (.scalar (.int32 1)), .struct (.scalar (.int32 2))],
    .list [.struct (.scalar (.double ⟨0⟩)), .struct .null]]

/-- The record with these marks. -/
def twoMarked : Value :=
  .struct [("marks", .list [.struct [("id", .int32 1), ("score", .double ⟨0⟩)],
    .struct [("id", .int32 2), ("score", .null)]])]

theorem projectRecord_of_merge_marks :
    ∃ columns, marks.columns = .ok columns ∧ twoMarks.length = columns.length ∧
      mergeRecord marks.fields twoMarks = .ok twoMarked ∧
      List.Forall₂ (fun column n => projectRecord marks.fields twoMarked column.path = .ok n)
        columns twoMarks := by
  have hs : marks.Named := by
    simp [Schema.Named, marks, DataType.Obeys, Field.Obeys, Field.AllObey, GroupRule.named,
      Field.name]
  obtain ⟨columns, hc, hl⟩ : ∃ columns, marks.columns = .ok columns ∧
      twoMarks.length = columns.length := ⟨_, rfl, rfl⟩
  have hm : mergeRecord marks.fields twoMarks = .ok twoMarked := rfl
  exact ⟨columns, hc, hl, hm, (projectRecord_of_merge hs hc hl hm).1⟩

end Striping
