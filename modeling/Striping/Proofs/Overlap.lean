import Striping.Proofs.NormalForm

/-!
# What two columns have in common

The paths of two columns of a schema may begin with the same names. So far they are in the same
frames, and see the same of every record.

* `LeafColumn.Agrees`, `Schema.take_frames`: **the same names are the same frames**.
* `Nested.upTo`: a value down to a depth.
* `Field.seenAlike`, `upTo_projectRecord`: **columns see the same down to the depth at which
  their paths part**.
-/

namespace Striping

namespace LeafColumn

/-- As long as the paths of two leaves have the same names, the leaves are in the same frames. -/
def Agrees (l l' : LeafColumn) : Prop :=
  ∀ k, l.path.take k = l'.path.take k → l.frames.take k = l'.frames.take k

variable {l l' : LeafColumn} {ls ls' : List LeafColumn}

theorem Agrees.under (h : l.Agrees l') (name : String) (frame : Frame) :
    (l.under name frame).Agrees (l'.under name frame) := by
  intro k hk
  cases k with
  | zero => rfl
  | succ k => exact congrArg (frame :: ·) (h k (List.cons.inj hk).2)

theorem agrees_of_head_ne (h : l.path.head? ≠ l'.path.head?) : l.Agrees l' := by
  intro k hk
  cases k with
  | zero => rfl
  | succ k =>
    have hhead := congrArg List.head? hk
    rw [List.head?_take, List.head?_take] at hhead
    exact absurd hhead h

/-- Leaves below one frame agree if they do inside of it. -/
theorem agrees_map_under (h : ∀ l ∈ ls, ∀ l' ∈ ls, Agrees l l') (name : String) (frame : Frame) :
    ∀ l ∈ ls.map (under name frame), ∀ l' ∈ ls.map (under name frame), Agrees l l' := by
  intro _ hl _ hl'
  obtain ⟨l, hmem, rfl⟩ := List.mem_map.1 hl
  obtain ⟨l', hmem', rfl⟩ := List.mem_map.1 hl'
  exact (h l hmem l' hmem').under name frame

/-- Leaves below two groups agree if their paths begin with different names. -/
theorem agrees_append (h : ∀ l ∈ ls, ∀ l' ∈ ls, Agrees l l')
    (h' : ∀ l ∈ ls', ∀ l' ∈ ls', Agrees l l')
    (hne : ∀ l ∈ ls, ∀ l' ∈ ls', l.path.head? ≠ l'.path.head?) :
    ∀ l ∈ ls ++ ls', ∀ l' ∈ ls ++ ls', Agrees l l' := by
  intro l hl l' hl'
  rcases List.mem_append.1 hl with hl | hl <;> rcases List.mem_append.1 hl' with hl' | hl'
  · exact h l hl l' hl'
  · exact agrees_of_head_ne (hne l hl l' hl')
  · exact agrees_of_head_ne (hne l' hl' l hl).symm
  · exact h' l hl l' hl'

end LeafColumn

/-- The path of a leaf begins with the name of its field. -/
theorem Field.head_of_mem_leaves {f : Field} {l : LeafColumn} (h : l ∈ f.leaves) :
    l.path.head? = some f.name := by
  obtain ⟨frame, hf⟩ := f.leaves_eq
  rw [hf] at h
  obtain ⟨l, -, rfl⟩ := List.mem_map.1 h
  rfl

theorem Field.exists_of_mem_allLeaves {fields : List Field} {l : LeafColumn}
    (h : l ∈ Field.allLeaves fields) : ∃ f ∈ fields, l ∈ f.leaves := by
  induction fields with
  | nil => cases h
  | cons f fields ih =>
    rcases List.mem_append.1 h with h | h
    · exact ⟨f, List.mem_cons_self, h⟩
    · obtain ⟨g, hg, hl⟩ := ih h
      exact ⟨g, List.mem_cons_of_mem _ hg, hl⟩

mutual

theorem Field.agrees_leaves :
    (f : Field) → f.Obeys .named → ∀ l ∈ f.leaves, ∀ l' ∈ f.leaves, l.Agrees l'
  | .mk name type _, hn => LeafColumn.agrees_map_under (type.agrees_leaves hn) name _

/-- **The same names are the same frames.** -/
theorem DataType.agrees_leaves :
    (type : DataType) → type.Obeys .named → ∀ l ∈ type.leaves, ∀ l' ∈ type.leaves, l.Agrees l'
  | .primitive _, _ => by
    intro l hl l' hl'
    obtain rfl := List.mem_singleton.1 hl
    obtain rfl := List.mem_singleton.1 hl'
    exact fun _ _ => rfl
  | .list element, hn => LeafColumn.agrees_map_under (element.agrees_leaves hn) listGroupName _
  | .map key value, ⟨⟨hk, hv⟩, hnk, hnv⟩ => by
    refine LeafColumn.agrees_map_under ?_ mapGroupName _
    refine LeafColumn.agrees_append (key.agrees_leaves hnk) (value.agrees_leaves hnv) ?_
    intro l hl l' hl' heq
    rw [Field.head_of_mem_leaves hl, Field.head_of_mem_leaves hl', hk] at heq
    exact hv (Option.some.inj heq).symm
  | .struct fields, ⟨hnodup, hn⟩ => Field.agrees_allLeaves fields hn hnodup

theorem Field.agrees_allLeaves : (fields : List Field) → Field.AllObey .named fields →
    (fields.map Field.name).Nodup →
      ∀ l ∈ Field.allLeaves fields, ∀ l' ∈ Field.allLeaves fields, l.Agrees l'
  | [], _ => fun _ _ h => absurd h List.not_mem_nil
  | f :: fields, ⟨hf, hn⟩ => by
    intro hnodup
    rw [List.map_cons, List.nodup_cons] at hnodup
    refine LeafColumn.agrees_append (f.agrees_leaves hf)
      (Field.agrees_allLeaves fields hn hnodup.2) ?_
    -- no other field has the name of the first one
    intro l hl l' hl' heq
    obtain ⟨g, hg, hl'⟩ := Field.exists_of_mem_allLeaves hl'
    rw [Field.head_of_mem_leaves hl, Field.head_of_mem_leaves hl'] at heq
    exact hnodup.1 (Option.some.inj heq ▸ List.mem_map_of_mem hg)

end

/-- A column of a schema is in the frames of its leaf. -/
theorem LeafColumn.frames_of_column {l : LeafColumn} {column : Column}
    (h : l.column .root [] = .ok column) : column.frames = l.frames := by
  unfold LeafColumn.column Column.make at h
  split at h
  · obtain rfl := Except.ok.inj h
    rfl
  · cases h

/-- **Columns are in the same frames as long as their paths are the same.** -/
theorem Schema.take_frames {s : Schema} (hs : s.Named) {columns : List Column}
    (hc : s.columns = .ok columns) {c c' : Column} (h : c ∈ columns) (h' : c' ∈ columns) {k : Nat}
    (hk : c.path.parts.take k = c'.path.parts.take k) : c.frames.take k = c'.frames.take k := by
  obtain ⟨l, hl, hmake⟩ := exists_of_forall₂ (Schema.columns_eq_ok_iff.1 hc) h
  obtain ⟨l', hl', hmake'⟩ := exists_of_forall₂ (Schema.columns_eq_ok_iff.1 hc) h'
  rw [LeafColumn.path_of_column hmake, LeafColumn.path_of_column hmake'] at hk
  rw [LeafColumn.frames_of_column hmake, LeafColumn.frames_of_column hmake']
  exact DataType.agrees_leaves (.struct s.fields) hs l hl l' hl' k hk

namespace Nested

variable {α ι : Type}

/-- The value down to a depth, which is counted in frames of its column. Whatever lies deeper is
null, and leaf values are not told from each other. -/
def upTo : Nat → Nested α → Nested Unit
  | 0, _ => null
  | _ + 1, null => null
  | _ + 1, scalar _ => scalar ()
  | k + 1, struct member => struct (upTo k member)
  | 1, list _ => list []
  | k + 2, list items => list (items.map (upTo k))

/-- Slices of the same items agree if those of each item do. -/
theorem map_upTo_eq {R R' : ι → Nested α → Prop} {is : List ι} {column column' : List (Nested α)}
    {k : Nat} (h : List.Forall₂ R is column) (h' : List.Forall₂ R' is column')
    (heq : ∀ i n n', R i n → R' i n' → n.upTo k = n'.upTo k) :
    column.map (upTo k) = column'.map (upTo k) := by
  refine map_eq_map_of_forall₂ ((forall₂_trans h.flip h').imp ?_)
  rintro n n' ⟨i, hn, hn'⟩
  exact heq i n n' hn hn'

end Nested

section Projection

variable {v : Value} {rest rest' : List String} {c c' : Path} {n n' : Nested Cell} {k : Nat}

/-- Below the group of a list or map, the names of two paths are the same for two names less. -/
theorem take_drop_two (h : rest.take (k + 2) = rest'.take (k + 2)) :
    (rest.drop 2).take k = (rest'.drop 2).take k := by
  have h := congrArg (List.drop 2) h
  rwa [List.drop_take, List.drop_take, Nat.add_sub_cancel] at h

/-- Two names that are in front of a depth are the same. -/
theorem getElem?_one_eq (h : rest.take (k + 2) = rest'.take (k + 2)) : rest[1]? = rest'[1]? := by
  have h := congrArg (·[1]?) h
  rwa [List.getElem?_take_of_lt (by omega), List.getElem?_take_of_lt (by omega)] at h

/-- Any two columns see the same of a member, down to the depth at which their paths part. -/
def Field.SeenAlike (f : Field) : Prop :=
  ∀ m rest rest' c c' n n' k, f.project m rest c = .ok n → f.project m rest' c' = .ok n' →
    rest.take k = rest'.take k → n.upTo (k + 1) = n'.upTo (k + 1)

/-- Any two columns see the same of a value that is there and has the form of the type. -/
def DataType.SeenAlike (type : DataType) : Prop :=
  ∀ v, v.matchesType type = true → v ≠ .null → ∀ rest rest' c c' n n' k,
    type.project v rest c = .ok n → type.project v rest' c' = .ok n' →
      rest.take k = rest'.take k → n.upTo (k + 1) = n'.upTo (k + 1)

theorem DataType.SeenAlike.field {type : DataType} (h : type.SeenAlike) (name : String)
    (optional : Bool) : (Field.mk name type optional).SeenAlike := by
  intro m rest rest' c c' n n' k hn hn' hk
  -- the path plays no part where the member is missing or null
  rcases m with _ | v
  · rw [Field.project] at hn hn'
    rw [Except.ok.inj (hn.symm.trans hn')]
  · by_cases hv : v = .null
    · subst hv
      rw [Field.project] at hn hn'
      rw [Except.ok.inj (hn.symm.trans hn')]
    · rw [Field.project_of_ne_null hv] at hn hn'
      by_cases hm : v.matchesType type = true
      · rw [if_pos hm] at hn hn'
        exact h v hm hv rest rest' c c' n n' k hn hn' hk
      · rw [if_neg hm] at hn
        cases hn

theorem DataType.seenAlike_primitive (leaf : Primitive) : (primitive leaf).SeenAlike := by
  intro v _ _ rest rest' c c' n n' k hn hn' _
  cases hcell : v.toCell? with
  | none => simp [DataType.project, hcell] at hn
  | some cell =>
    obtain rfl : Nested.scalar cell = n := by simpa [DataType.project, hcell] using hn
    obtain rfl : Nested.scalar cell = n' := by simpa [DataType.project, hcell] using hn'
    rfl

theorem Field.SeenAlike.list {element : Field} (h : element.SeenAlike) :
    (DataType.list element).SeenAlike := by
  intro v hm hv rest rest' c c' n n' k hn hn' hk
  obtain ⟨items, rfl⟩ := Value.exists_items hm hv
  obtain ⟨column, rfl, hc⟩ := DataType.project_list.1 hn
  obtain ⟨column', rfl, hc'⟩ := DataType.project_list.1 hn'
  rcases k with _ | _ | k
  · rfl
  · exact congrArg Nested.list (Nested.map_upTo_eq hc hc' fun _ _ _ _ _ => rfl)
  · refine congrArg Nested.list (Nested.map_upTo_eq hc hc' fun item n n' hn hn' => ?_)
    exact h _ _ _ _ _ n n' k hn hn' (take_drop_two hk)

theorem Field.SeenAlike.map {key value : Field} (hkey : key.SeenAlike)
    (hvalue : value.SeenAlike) : (DataType.map key value).SeenAlike := by
  intro v hm hv rest rest' c c' n n' k hn hn' hk
  obtain ⟨entries, rfl⟩ := Value.exists_entries hm hv
  obtain ⟨column, rfl, hc⟩ := DataType.project_map.1 hn
  obtain ⟨column', rfl, hc'⟩ := DataType.project_map.1 hn'
  rcases k with _ | _ | k
  · rfl
  · -- here one path may go to the keys and the other one to the values
    exact congrArg Nested.list (Nested.map_upTo_eq hc hc' fun _ _ _ _ _ => rfl)
  · refine congrArg Nested.list (Nested.map_upTo_eq hc hc' fun entry n n' hn hn' => ?_)
    rw [← getElem?_one_eq hk] at hn'
    by_cases hpath : rest[1]? = some keyName
    · rw [if_pos hpath] at hn hn'
      exact hkey _ _ _ _ _ n n' k hn hn' (take_drop_two hk)
    · rw [if_neg hpath] at hn hn'
      exact hvalue _ _ _ _ _ n n' k hn hn' (take_drop_two hk)

theorem Field.seenAlike_struct {fields : List Field} (h : ∀ f ∈ fields, f.SeenAlike) :
    (DataType.struct fields).SeenAlike := by
  intro v hm hv rest rest' c c' n n' k hn hn' hk
  obtain ⟨members, rfl⟩ := Value.exists_members hm hv
  obtain ⟨name, below, f, m, rfl, hf, hp, rfl⟩ := DataType.project_struct.1 hn
  obtain ⟨name', below', f', m', rfl, hf', hp', rfl⟩ := DataType.project_struct.1 hn'
  cases k with
  | zero => rfl
  | succ k =>
    obtain ⟨rfl, hbelow⟩ := List.cons.inj hk
    obtain rfl := Option.some.inj (hf.symm.trans hf')
    exact congrArg Nested.struct
      (h f (List.mem_of_find?_eq_some hf) _ _ _ _ _ m m' k hp hp' hbelow)

mutual

/-- **Two columns see the same of a member** down to the depth at which their paths part. -/
theorem Field.seenAlike : (f : Field) → f.SeenAlike
  | .mk name type optional => type.seenAlike.field name optional

theorem DataType.seenAlike : (type : DataType) → type.SeenAlike
  | .primitive leaf => DataType.seenAlike_primitive leaf
  | .list element => element.seenAlike.list
  | .map key value => key.seenAlike.map value.seenAlike
  | .struct fields => Field.seenAlike_struct (Field.seenAlike_of_mem fields)

theorem Field.seenAlike_of_mem : (fields : List Field) → ∀ f ∈ fields, f.SeenAlike
  | [] => fun _ h => absurd h List.not_mem_nil
  | g :: fields => List.forall_mem_cons.2 ⟨g.seenAlike, Field.seenAlike_of_mem fields⟩

end

/-- **Two columns see the same of a record** down to the depth at which their paths part. -/
theorem upTo_projectRecord {fields : List Field} {record : Value}
    (h : projectRecord fields record c = .ok n) (h' : projectRecord fields record c' = .ok n')
    (hk : c.parts.take k = c'.parts.take k) : n.upTo k = n'.upTo k := by
  obtain ⟨members, rfl⟩ := exists_members_of_projectRecord h
  obtain ⟨name, rest, f, hpath, hf, hp⟩ := projectRecord_struct.1 h
  obtain ⟨name', rest', f', hpath', hf', hp'⟩ := projectRecord_struct.1 h'
  rw [hpath, hpath'] at hk
  cases k with
  | zero => rfl
  | succ k =>
    obtain ⟨rfl, hbelow⟩ := List.cons.inj hk
    obtain rfl := Option.some.inj (hf.symm.trans hf')
    exact f.seenAlike _ _ _ _ _ n n' k hp hp' hbelow

end Projection

end Striping
