import Mathlib.Data.List.Infix
import Striping.Proofs.Grammar
import Striping.Proofs.LevelSums
import Striping.Proofs.Routes

/-!
# The addresses of the leaves

A field of a schema is found by the indices of the fields on the way to it. The walk over the leaf
columns does not know of them, and merging counts leaves instead.

* `Field.At`: a field, its names and its frames, at an address. `Field.At.unique`: there is only
  one.
* `Schema.entries`: the leaves with their addresses. They are all that is there, in the order of
  their addresses (`Field.mem_allEntries_iff`, `Field.pairwise_allEntries`).
* `Field.At.block`: the leaves below a field are next to each other.
* `mergeFields_eq_share`: merging gives every field the columns that are its own.
* `Frame.Grammar.column`: only levels that overflow keep frames of the grammar from having a column
  with a shape.
* `Schema.leaves_listed`: **the walk meets every leaf once, in order, and merging counts them the
  same way**.
-/

namespace Striping

variable {fields : List Field} {f : Field} {is : List Nat}

namespace Field

/-- The names between a field and what is directly below it. -/
def groupNames (f : Field) : List String :=
  match f.type with
  | .primitive _ | .struct _ => [f.name]
  | .list _ => [f.name, listGroupName]
  | .map _ _ => [f.name, mapGroupName]

/-- The frames between a field and what is directly below it. -/
def groupFrames (f : Field) : List Frame :=
  match f.type with
  | .primitive _ | .struct _ => [f.frame]
  | .list _ | .map _ _ => [f.frame, Frame.repeatedGroup]

/-- The field at an address: the index of one of the fields, then of one of the fields directly
below that one, and so on. It goes with its names and its frames, outermost first. -/
inductive At : List Field → List Nat → Field → List String → List Frame → Prop where
  | here {fields : List Field} {i : Nat} {f : Field} (hi : fields[i]? = some f) :
      At fields [i] f [f.name] [f.frame]
  | inner {fields : List Field} {i : Nat} {g f : Field} {is : List Nat} {names : List String}
      {frames : List Frame} (hi : fields[i]? = some g) (h : At g.children is f names frames) :
      At fields (i :: is) f (g.groupNames ++ names) (g.groupFrames ++ frames)

end Field

/-- A leaf and its address. -/
structure LeafEntry where
  /-- The indices on the way to the leaf. -/
  address : List Nat
  /-- The leaf. -/
  leaf : LeafColumn

namespace LeafEntry

/-- The entry as it is seen from a group around the field of an index. -/
def inside (i : Nat) (x : LeafEntry) : LeafEntry := { x with address := i :: x.address }

/-- The entry as it is seen from one frame further up. -/
def under (name : String) (frame : Frame) (x : LeafEntry) : LeafEntry :=
  { x with leaf := x.leaf.under name frame }

/-- An entry below a field as it is seen from around the field. -/
def around (f : Field) (x : LeafEntry) : LeafEntry :=
  { x with leaf :=
      ⟨f.groupNames ++ x.leaf.path, f.groupFrames ++ x.leaf.frames, x.leaf.physicalType⟩ }

/-- What is seen from a group begins with the index of the field that it is inside of. -/
theorem head_of_mem_inside {i : Nat} {entries : List LeafEntry} {x : LeafEntry}
    (h : x ∈ entries.map (inside i)) : x.address.head? = some i := by
  obtain ⟨x, -, rfl⟩ := List.mem_map.1 h
  rfl

/-- An address that starts with another one starts with the same index. -/
theorem head_of_prefix {i : Nat} {x : LeafEntry} (h : i :: is <+: x.address) :
    x.address.head? = some i := by
  obtain ⟨rest, hrest⟩ := h
  rw [← hrest]
  rfl

end LeafEntry

mutual

/-- The leaves of a field with their addresses inside of it. -/
def Field.entries : Field → List LeafEntry
  | .mk name type optional =>
    type.entries.map (.under name ⟨if optional then .optional else .required, type.frameKind⟩)

/-- The leaves inside of a field with the given type, with their addresses. -/
def DataType.entries : DataType → List LeafEntry
  | .primitive leaf => [⟨[], ⟨[], [], leaf.physicalType⟩⟩]
  | .list element =>
    (element.entries.map (LeafEntry.inside 0)).map (.under listGroupName .repeatedGroup)
  | .map key value =>
    (key.entries.map (LeafEntry.inside 0) ++ value.entries.map (LeafEntry.inside 1)).map
      (.under mapGroupName .repeatedGroup)
  | .struct fields => Field.allEntries 0 fields

/-- The leaves of several fields with their addresses. The first field has the index `i`. -/
def Field.allEntries : Nat → List Field → List LeafEntry
  | _, [] => []
  | i, f :: rest => f.entries.map (LeafEntry.inside i) ++ Field.allEntries (i + 1) rest

end

/-- The leaves of a schema with their addresses. -/
def Schema.entries (s : Schema) : List LeafEntry := Field.allEntries 0 s.fields

mutual

theorem Field.map_leaf_entries : (f : Field) → f.entries.map LeafEntry.leaf = f.leaves
  | .mk name type optional => by
    rw [Field.entries, Field.leaves, ← type.map_leaf_entries, List.map_map, List.map_map]
    rfl

/-- The entries of a type are those of its leaves. -/
theorem DataType.map_leaf_entries :
    (type : DataType) → type.entries.map LeafEntry.leaf = type.leaves
  | .primitive leaf => rfl
  | .list element => by
    rw [DataType.entries, DataType.leaves, ← element.map_leaf_entries]
    simp only [List.map_map]
    rfl
  | .map key value => by
    rw [DataType.entries, DataType.leaves, ← key.map_leaf_entries, ← value.map_leaf_entries]
    simp only [List.map_append, List.map_map]
    rfl
  | .struct fields => Field.map_leaf_allEntries fields 0

theorem Field.map_leaf_allEntries : (fields : List Field) →
    ∀ i, (Field.allEntries i fields).map LeafEntry.leaf = Field.allLeaves fields
  | [] => fun _ => rfl
  | f :: rest => by
    intro i
    rw [Field.allEntries, Field.allLeaves, List.map_append, List.map_map,
      Field.map_leaf_allEntries rest, ← f.map_leaf_entries]
    rfl

end

namespace Field

theorem length_entries (f : Field) : f.entries.length = f.leafCount := by
  rw [← f.length_leaves, ← f.map_leaf_entries, List.length_map]

section Induction

variable {P : List Field → Prop}

mutual

/-- What holds of fields if it holds of those directly below each of them holds below a field. -/
theorem children_induction (below : ∀ fields, (∀ f ∈ fields, P f.children) → P fields) :
    (f : Field) → P f.children
  | .mk _ (.primitive _) _ => below [] fun _ hf => absurd hf List.not_mem_nil
  | .mk _ (.list element) _ => by
    refine below [element] fun f hf => ?_
    rw [List.mem_singleton] at hf
    rw [hf]
    exact children_induction below element
  | .mk _ (.map key value) _ => by
    refine below [key, value] fun f hf => ?_
    rw [List.mem_cons, List.mem_singleton] at hf
    rcases hf with hf | hf
    · rw [hf]
      exact children_induction below key
    · rw [hf]
      exact children_induction below value
  | .mk _ (.struct fields) _ => below fields (allChildren_induction below fields)

theorem allChildren_induction (below : ∀ fields, (∀ f ∈ fields, P f.children) → P fields) :
    (fields : List Field) → ∀ f ∈ fields, P f.children
  | [] => fun _ hf => absurd hf List.not_mem_nil
  | f :: rest => by
    intro g hg
    rcases List.mem_cons.1 hg with hg | hg
    · rw [hg]
      exact children_induction below f
    · exact allChildren_induction below rest g hg

end

/-- **Fields are finitely deep**: what holds of fields if it holds of those directly below each of
them holds of all fields. -/
theorem fields_induction (below : ∀ fields, (∀ f ∈ fields, P f.children) → P fields)
    (fields : List Field) : P fields :=
  below fields (allChildren_induction below fields)

end Induction

/-- A leaf field is its own leaf; the leaves of any other field are those directly below it. -/
theorem entries_cases (f : Field) :
    (∃ leaf, f.type = .primitive leaf ∧ f.children = [] ∧
        f.entries = [⟨[], ⟨[f.name], [f.frame], leaf.physicalType⟩⟩]) ∨
      (∀ leaf, f.type ≠ .primitive leaf) ∧
        f.entries = (allEntries 0 f.children).map (LeafEntry.around f) := by
  obtain ⟨name, type, optional⟩ := f
  cases type with
  | primitive leaf => exact .inl ⟨leaf, rfl, rfl, rfl⟩
  | list element =>
    refine .inr ⟨by simp [type], ?_⟩
    simp only [entries, DataType.entries, children, type, allEntries, List.append_nil,
      List.map_map]
    rfl
  | map key value =>
    refine .inr ⟨by simp [type], ?_⟩
    simp only [entries, DataType.entries, children, type, allEntries, List.append_nil,
      List.map_map]
    rfl
  | struct members =>
    refine .inr ⟨by simp [type], ?_⟩
    rw [entries, DataType.entries]
    rfl

section Reach

/-- The entries below fields are those of the field at some index. -/
theorem mem_allEntries {i : Nat} {x : LeafEntry} :
    x ∈ allEntries i fields ↔
      ∃ (j : Nat) (f : Field) (y : LeafEntry),
        fields[j]? = some f ∧ y ∈ f.entries ∧ x = y.inside (i + j) := by
  induction fields generalizing i with
  | nil => simp [allEntries]
  | cons g rest ih =>
    rw [allEntries, List.mem_append, List.mem_map, ih]
    constructor
    · rintro (⟨y, hy, rfl⟩ | ⟨j, f, y, hj, hy, rfl⟩)
      · exact ⟨0, g, y, rfl, hy, rfl⟩
      · exact ⟨j + 1, f, y, hj, hy, by rw [Nat.add_assoc, Nat.add_comm 1 j]⟩
    · rintro ⟨_ | j, f, y, hj, hy, rfl⟩
      · obtain rfl := Option.some.inj hj
        exact .inl ⟨y, hy, rfl⟩
      · exact .inr ⟨j, f, y, hj, hy, by rw [Nat.add_assoc, Nat.add_comm 1 j]⟩

/-- The entries below fields begin with the indices of these. -/
theorem head_of_mem_allEntries {i : Nat} {x : LeafEntry} (h : x ∈ allEntries i fields) :
    ∃ j, i ≤ j ∧ x.address.head? = some j := by
  obtain ⟨j, f, y, -, -, rfl⟩ := mem_allEntries.1 h
  exact ⟨i + j, Nat.le_add_right i j, rfl⟩

/-- The fields behind one are not that one. -/
theorem head_ne_of_mem_allEntries {i : Nat} {x : LeafEntry} (h : x ∈ allEntries (i + 1) fields) :
    x.address.head? ≠ some i := by
  obtain ⟨j, hij, hj⟩ := head_of_mem_allEntries h
  rw [hj]
  intro heq
  have hji := Option.some.inj heq
  omega

/-- There is only one field at an address. -/
theorem At.unique {g : Field} {names names' : List String} {frames frames' : List Frame}
    (h : At fields is f names frames) (h' : At fields is g names' frames') :
    f = g ∧ names = names' ∧ frames = frames' := by
  induction h generalizing names' frames' with
  | here hi =>
    cases h' with
    | here hi' =>
      obtain rfl := Option.some.inj (hi.symm.trans hi')
      exact ⟨rfl, rfl, rfl⟩
    | inner _ h' => cases h'
  | inner hi h ih =>
    cases h' with
    | here _ => cases h
    | inner hi' h' =>
      obtain rfl := Option.some.inj (hi.symm.trans hi')
      obtain ⟨rfl, rfl, rfl⟩ := ih h'
      exact ⟨rfl, rfl, rfl⟩

/-- There is nothing at an address below no fields. -/
theorem not_at_nil {names : List String} {frames : List Frame} : ¬At [] is f names frames := by
  intro h
  cases h with
  | here hi => cases hi
  | inner hi _ => cases hi

/-- **The entries are the leaf fields**, with their names and frames. -/
theorem mem_allEntries_iff (fields : List Field) : ∀ is l, ⟨is, l⟩ ∈ allEntries 0 fields ↔
    ∃ f leaf, At fields is f l.path l.frames ∧ f.type = .primitive leaf ∧
      l.physicalType = leaf.physicalType := by
  induction fields using fields_induction with
  | below fields ih =>
    intro is l
    rw [mem_allEntries]
    constructor
    · rintro ⟨j, g, y, hj, hy, hx⟩
      obtain ⟨rfl, rfl⟩ := LeafEntry.mk.inj hx
      rw [Nat.zero_add]
      rcases g.entries_cases with ⟨leaf, htype, -, hentries⟩ | ⟨-, hentries⟩
      · rw [hentries, List.mem_singleton] at hy
        subst hy
        exact ⟨g, leaf, .here hj, htype, rfl⟩
      · rw [hentries, List.mem_map] at hy
        obtain ⟨z, hz, rfl⟩ := hy
        obtain ⟨f, leaf, hat, htype, hphysical⟩ := (ih g (List.mem_of_getElem? hj) _ _).1 hz
        exact ⟨f, leaf, .inner hj hat, htype, hphysical⟩
    · obtain ⟨path, frames, physicalType⟩ := l
      rintro ⟨f, leaf, hat, htype, hphysical⟩
      obtain rfl : physicalType = leaf.physicalType := hphysical
      cases hat with
      | @here _ j _ hj =>
        refine ⟨j, f, ⟨[], ⟨[f.name], [f.frame], leaf.physicalType⟩⟩, hj, ?_, ?_⟩
        · rcases f.entries_cases with ⟨leaf', htype', -, hentries⟩ | ⟨hnot, -⟩
          · obtain rfl := DataType.primitive.inj (htype.symm.trans htype')
            rw [hentries, List.mem_singleton]
          · exact absurd htype (hnot leaf)
        · rw [Nat.zero_add]
          rfl
      | @inner _ j g _ is names frames hj hat =>
        refine ⟨j, g, LeafEntry.around g ⟨is, ⟨names, frames, leaf.physicalType⟩⟩, hj, ?_, ?_⟩
        · rcases g.entries_cases with ⟨-, -, hchildren, -⟩ | ⟨-, hentries⟩
          · rw [hchildren] at hat
            exact absurd hat not_at_nil
          · rw [hentries]
            refine List.mem_map_of_mem ?_
            exact (ih g (List.mem_of_getElem? hj) _ _).2 ⟨f, leaf, hat, htype, rfl⟩
        · rw [Nat.zero_add]
          rfl

end Reach

section Order

/-- Entries are in order below several fields if they are below each of them. -/
theorem pairwise_allEntries_of (h : ∀ f ∈ fields, f.entries.Pairwise (·.address < ·.address))
    (i : Nat) : (allEntries i fields).Pairwise (·.address < ·.address) := by
  induction fields generalizing i with
  | nil => exact List.Pairwise.nil
  | cons g rest ih =>
    rw [allEntries, List.pairwise_append]
    refine ⟨?_, ih (fun f hf => h f (List.mem_cons_of_mem _ hf)) (i + 1), ?_⟩
    · rw [List.pairwise_map]
      refine (h g List.mem_cons_self).imp fun hlt => ?_
      exact List.cons_lt_cons_iff.2 (.inr ⟨rfl, hlt⟩)
    · intro x hx y hy
      obtain ⟨x, -, rfl⟩ := List.mem_map.1 hx
      obtain ⟨j, f, y, -, -, rfl⟩ := mem_allEntries.1 hy
      exact List.cons_lt_cons_iff.2 (.inl (by omega))

/-- **The entries are in the order of their addresses.** -/
theorem pairwise_allEntries (fields : List Field) :
    (allEntries 0 fields).Pairwise (·.address < ·.address) := by
  induction fields using fields_induction with
  | below fields ih =>
    refine pairwise_allEntries_of (fun f hf => ?_) 0
    rcases f.entries_cases with ⟨_, -, -, hentries⟩ | ⟨-, hentries⟩
    · rw [hentries]
      exact List.pairwise_singleton _ _
    · rw [hentries, List.pairwise_map]
      exact ih f hf

end Order

section Blocks

/-- The entries of a field are between those of the fields before it and those of the fields after
it. -/
theorem allEntries_split {j : Nat} (hj : fields[j]? = some f) (i : Nat) :
    ∃ before after,
      allEntries i fields = before ++ f.entries.map (.inside (i + j)) ++ after ∧
        ∀ x ∈ before ++ after, x.address.head? ≠ some (i + j) := by
  induction fields generalizing i j with
  | nil => cases hj
  | cons g rest ih =>
    cases j with
    | zero =>
      obtain rfl := Option.some.inj hj
      exact ⟨[], allEntries (i + 1) rest, rfl, fun x hx => head_ne_of_mem_allEntries hx⟩
    | succ j =>
      obtain ⟨before, after, hsplit, hothers⟩ := ih hj (i + 1)
      have hindex : i + 1 + j = i + (j + 1) := by omega
      rw [hindex] at hsplit hothers
      refine ⟨g.entries.map (.inside i) ++ before, after, ?_, fun x hx => ?_⟩
      · rw [allEntries, hsplit, List.append_assoc, List.append_assoc, List.append_assoc]
      · rw [List.append_assoc] at hx
        rcases List.mem_append.1 hx with hx | hx
        · rw [LeafEntry.head_of_mem_inside hx]
          intro heq
          have hij := Option.some.inj heq
          omega
        · exact hothers x hx

/-- **The leaves below a field are next to each other**, as many as it counts. -/
theorem At.block {names : List String} {frames : List Frame} (h : At fields is f names frames) :
    ∃ before own after, allEntries 0 fields = before ++ own ++ after ∧
      own.length = f.leafCount ∧ (∀ x ∈ own, is <+: x.address) ∧
        ∀ x ∈ before ++ after, ¬is <+: x.address := by
  induction h with
  | @here fields j f hj =>
    obtain ⟨before, after, hsplit, hothers⟩ := allEntries_split hj 0
    rw [Nat.zero_add] at hsplit hothers
    refine ⟨before, _, after, hsplit, ?_, ?_, fun x hx hprefix => ?_⟩
    · rw [List.length_map, f.length_entries]
    · intro x hx
      obtain ⟨x, -, rfl⟩ := List.mem_map.1 hx
      exact List.cons_prefix_cons.2 ⟨rfl, List.nil_prefix⟩
    · exact hothers x hx (LeafEntry.head_of_prefix hprefix)
  | @inner fields j g f is names frames hj hat ih =>
    obtain ⟨before, after, hsplit, hothers⟩ := allEntries_split hj 0
    obtain ⟨before', own, after', hsplit', hlength, hown, hothers'⟩ := ih
    rw [Nat.zero_add] at hsplit hothers
    rcases g.entries_cases with ⟨-, -, hchildren, -⟩ | ⟨-, hentries⟩
    · rw [hchildren] at hat
      exact absurd hat not_at_nil
    · let outer (x : LeafEntry) := (x.around g).inside j
      refine ⟨before ++ before'.map outer, own.map outer, after'.map outer ++ after, ?_, ?_, ?_, ?_⟩
      · rw [hsplit, hentries, hsplit', List.map_map, List.map_append, List.map_append]
        simp only [List.append_assoc]
        rfl
      · rw [List.length_map, hlength]
      · intro x hx
        obtain ⟨x, hmem, rfl⟩ := List.mem_map.1 hx
        exact List.cons_prefix_cons.2 ⟨rfl, hown x hmem⟩
      · intro x hx hprefix
        have hsome : x ∈ before ++ after ∨ x ∈ (before' ++ after').map outer := by
          simp only [List.mem_append, List.map_append] at hx ⊢
          tauto
        rcases hsome with hx | hx
        · exact hothers x hx (LeafEntry.head_of_prefix hprefix)
        · obtain ⟨y, hy, rfl⟩ := List.mem_map.1 hx
          exact hothers' y hy (List.cons_prefix_cons.1 hprefix).2

end Blocks

end Field

namespace LeafEntry

variable {α : Type} {found rest : List LeafEntry} {row others : List α} {i : Nat}

/-- What a row of all columns has for the leaves below the field of an index. -/
def share (found : List LeafEntry) (row : List α) (i : Nat) : List α :=
  ((found.zip row).filter fun x => x.1.address.head? = some i).map Prod.snd

/-- A field that all leaves are below is given the whole row. -/
theorem share_all (h : ∀ x ∈ found, x.address.head? = some i) (hl : found.length = row.length) :
    share found row i = row := by
  unfold share
  rw [List.filter_eq_self.2 fun x hx => decide_eq_true (h x.1 (List.of_mem_zip hx).1),
    List.map_snd_zip hl.ge]

/-- A field that no leaves are below is given nothing. -/
theorem share_none (h : ∀ x ∈ found, x.address.head? ≠ some i) : share found row i = [] := by
  unfold share
  rw [List.filter_eq_nil_iff.2 fun x hx => by
    rw [decide_eq_true_eq]
    exact h x.1 (List.of_mem_zip hx).1]
  rfl

/-- A field is given what it is given of every part of the row. -/
theorem share_append (hl : found.length = row.length) :
    share (found ++ rest) (row ++ others) i = share found row i ++ share rest others i := by
  unfold share
  rw [List.zip_append hl, List.filter_append, List.map_append]

end LeafEntry

section Shares

variable {α : Type} {rest : List Field} {row : List α} {i : Nat}

namespace Field

/-- A row of all columns has as many for the first field as this counts, and the others behind. -/
theorem length_row (hl : (allEntries i (f :: rest)).length = row.length) :
    (f.entries.map (LeafEntry.inside i)).length = (row.take f.leafCount).length ∧
      (allEntries (i + 1) rest).length = (row.drop f.leafCount).length := by
  have hown : f.entries.length = f.leafCount := f.length_entries
  rw [allEntries, List.length_append, List.length_map] at hl
  rw [List.length_map, List.length_take, List.length_drop]
  omega

theorem share_cons (hl : (allEntries i (f :: rest)).length = row.length) (k : Nat) :
    LeafEntry.share (allEntries i (f :: rest)) row k =
      LeafEntry.share (f.entries.map (LeafEntry.inside i)) (row.take f.leafCount) k ++
        LeafEntry.share (allEntries (i + 1) rest) (row.drop f.leafCount) k := by
  rw [← LeafEntry.share_append (length_row hl).1, List.take_append_drop]
  rfl

/-- The first field is given as many columns as it counts. -/
theorem share_first (hl : (allEntries i (f :: rest)).length = row.length) :
    LeafEntry.share (allEntries i (f :: rest)) row i = row.take f.leafCount := by
  have hown := LeafEntry.share_all (fun _ => LeafEntry.head_of_mem_inside) (length_row hl).1
  have hothers : LeafEntry.share (allEntries (i + 1) rest) (row.drop f.leafCount) i = [] :=
    LeafEntry.share_none fun _ => head_ne_of_mem_allEntries
  rw [share_cons hl, hown, hothers, List.append_nil]

/-- A later field is given columns from behind these. -/
theorem share_later (hl : (allEntries i (f :: rest)).length = row.length) {k : Nat} (hk : i < k) :
    LeafEntry.share (allEntries i (f :: rest)) row k =
      LeafEntry.share (allEntries (i + 1) rest) (row.drop f.leafCount) k := by
  have hnone : LeafEntry.share (f.entries.map (LeafEntry.inside i)) (row.take f.leafCount) k =
      [] := by
    refine LeafEntry.share_none fun x hx => ?_
    rw [LeafEntry.head_of_mem_inside hx]
    intro heq
    have hik := Option.some.inj heq
    omega
  rw [share_cons hl, hnone, List.nil_append]

end Field

/-- **Merging gives every field its own columns**, those of the leaves below it. It only counts
them. -/
theorem mergeFields_eq_share (fields : List Field) (i : Nat) (row : List (Nested Cell))
    (hl : (Field.allEntries i fields).length = row.length) :
    mergeFields fields row = ((fields.zipIdx i).map fun x =>
      (x.1.merge (LeafEntry.share (Field.allEntries i fields) row x.2)).map (x.1.name, ·)).mapM
        id := by
  induction fields generalizing i row with
  | nil => rfl
  | cons f rest ih =>
    have hlater : ∀ x ∈ rest.zipIdx (i + 1),
        LeafEntry.share (Field.allEntries i (f :: rest)) row x.2 =
          LeafEntry.share (Field.allEntries (i + 1) rest) (row.drop f.leafCount) x.2 :=
      fun x hx => Field.share_later hl (List.le_snd_of_mem_zipIdx hx)
    rw [mergeFields, List.zipIdx_cons, List.map_cons, List.mapM_cons, Field.share_first hl,
      List.map_congr_left fun x hx => by rw [hlater x hx], ← ih _ _ (Field.length_row hl).2]
    cases f.merge (row.take f.leafCount) with
    | error e => rfl
    | ok v =>
      cases mergeFields rest (row.drop f.leafCount) with
      | error e => rfl
      | ok members => rfl

end Shares

/-- Frames that the grammar derives end in their only leaf. -/
theorem Frame.Grammar.eq_concat {frames : List Frame} (h : Frame.Grammar frames) :
    ∃ above leaf, frames = above ++ [leaf] ∧ leaf.kind = .primitive ∧
      ∀ f ∈ above, f.kind ≠ .primitive := by
  induction h with
  | @leaf f hkind _ => exact ⟨[], f, rfl, hkind, fun _ h => absurd h List.not_mem_nil⟩
  | @struct f below hkind _ _ ih =>
    obtain ⟨above, leaf, rfl, hleaf, habove⟩ := ih
    refine ⟨f :: above, leaf, rfl, hleaf, List.forall_mem_cons.2 ⟨?_, habove⟩⟩
    rw [hkind]
    decide
  | @list f below hkind _ _ ih =>
    obtain ⟨above, leaf, rfl, hleaf, habove⟩ := ih
    refine ⟨f :: ⟨.repeated, .group⟩ :: above, leaf, rfl, hleaf, List.forall_mem_cons.2 ⟨?_, ?_⟩⟩
    · rcases hkind with hkind | hkind
      · rw [hkind]
        decide
      · rw [hkind]
        decide
    · exact List.forall_mem_cons.2 ⟨by decide, habove⟩

/-- Frames with bounds are those of a column. -/
theorem Column.make_of_bounds (path : Path) {frames : List Frame} (physicalType : PhysicalType)
    {b : LevelBounds} (h : LevelBounds.ofFrames frames = .ok b) :
    make path frames physicalType = .ok ⟨path, frames, physicalType, b, h⟩ := by
  unfold make
  split
  · rename_i b' hb'
    obtain rfl := Except.ok.inj (h.symm.trans hb')
    rfl
  · rename_i fault hfault
    rw [h] at hfault
    cases hfault

/-- Frames that are refused are refused by the name of the column. -/
theorem Column.make_of_fault (path : Path) {frames : List Frame} (physicalType : PhysicalType)
    {fault : ShapeFault} (h : LevelBounds.ofFrames frames = .error fault) :
    make path frames physicalType = .error (.unsupportedShape path.render fault) := by
  unfold make
  split
  · rename_i b hb
    rw [h] at hb
    cases hb
  · rename_i fault' hfault
    obtain rfl := Except.error.inj (h.symm.trans hfault)
    rfl

/-- A column of such frames is one with a shape, unless its levels overflow. -/
theorem Frame.Grammar.column {frames : List Frame} (h : Frame.Grammar frames) (path : Path)
    (physicalType : PhysicalType) :
    (Frame.definitionCount frames ≤ 32767 → ∃ column shape,
        Column.make path frames physicalType = .ok column ∧ column.path = path ∧
          column.frames = frames ∧ column.physicalType = physicalType ∧
          ColumnShape.infer column = .ok shape) ∧
      (32767 < Frame.definitionCount frames → Column.make path frames physicalType =
        .error (.unsupportedShape path.render .levelOverflow)) := by
  obtain ⟨above, leaf, hframes, hleaf, habove⟩ := h.eq_concat
  obtain ⟨hok, hoverflow⟩ := LevelBounds.ofFrames_concat hleaf habove
  rw [← hframes] at hok hoverflow
  constructor
  · intro hle
    obtain ⟨b, hb⟩ := LevelBounds.exists_sum?_iff.2 hle
    let column : Column := ⟨path, frames, physicalType, b, hok b hb⟩
    have hmake : Column.make path frames physicalType = .ok column :=
      Column.make_of_bounds path physicalType (hok b hb)
    have hnests : Nests column.frames := Frame.grammar_iff_nests.1 h
    obtain ⟨shape, hshape⟩ := ColumnShape.infer_of_nests hnests
    exact ⟨column, shape, hmake, rfl, rfl, rfl, hshape⟩
  · intro hlt
    have hnone : LevelBounds.sum? frames = none := by
      cases hs : LevelBounds.sum? frames with
      | none => rfl
      | some b =>
        have hle := LevelBounds.exists_sum?_iff.1 ⟨b, hs⟩
        omega
    exact Column.make_of_fault path physicalType (hoverflow hnone)

/-- What it is for entries to be the leaves of a schema: those that the walk meets, and those that
merging counts. -/
structure Schema.Listed (s : Schema) (found : List LeafEntry) : Prop where
  /-- The walk ends, and meets no more after as many steps as it has weight. -/
  ends : ∀ n, s.walk.weight ≤ n → s.walk.after n = [] ∧ s.walk.run n = s.leaves
  /-- It meets one column for each entry. -/
  met : s.leaves = found.map fun x => Column.make ⟨x.leaf.path⟩ x.leaf.frames x.leaf.physicalType
  /-- There is an entry for each leaf field, with the names and the frames on the way to it. -/
  reached : ∀ is l, ⟨is, l⟩ ∈ found ↔ ∃ f leaf, Field.At s.fields is f l.path l.frames ∧
    f.type = .primitive leaf ∧ l.physicalType = leaf.physicalType
  /-- There is only one, and they are in the order in which the fields are declared. -/
  ordered : found.Pairwise (·.address < ·.address)
  /-- Those below a field are next to each other, and as many as are counted. -/
  consecutive : ∀ is f names frames, Field.At s.fields is f names frames →
    ∃ before own after, found = before ++ own ++ after ∧ own.length = f.leafCount ∧
      (∀ x ∈ own, is <+: x.address) ∧ ∀ x ∈ before ++ after, ¬is <+: x.address
  /-- Merging a row of all columns gives every field of a record those below it. -/
  merged : ∀ row : List (Nested Cell), found.length = row.length →
    mergeFields s.fields row = (s.fields.zipIdx.map fun x =>
      (x.1.merge (LeafEntry.share found row x.2)).map (x.1.name, ·)).mapM id
  /-- An entry whose levels can be counted has a column with a shape. -/
  shaped : ∀ x ∈ found, Frame.definitionCount x.leaf.frames ≤ 32767 → ∃ column shape,
    Column.make ⟨x.leaf.path⟩ x.leaf.frames x.leaf.physicalType = .ok column ∧
      column.path = ⟨x.leaf.path⟩ ∧ column.frames = x.leaf.frames ∧
      column.physicalType = x.leaf.physicalType ∧ ColumnShape.infer column = .ok shape
  /-- Every other entry has none, because its levels overflow. -/
  overflows : ∀ x ∈ found, 32767 < Frame.definitionCount x.leaf.frames →
    Column.make ⟨x.leaf.path⟩ x.leaf.frames x.leaf.physicalType =
      .error (.unsupportedShape (Path.mk x.leaf.path).render .levelOverflow)

/-- **The walk meets every leaf of a schema once, in the order of declaration, and merging counts
them the same way.** What it meets is a column with a shape, unless its levels overflow. -/
theorem Schema.leaves_listed (s : Schema) : s.Listed s.entries := by
  have hleaves : s.entries.map LeafEntry.leaf = Field.allLeaves s.fields :=
    Field.map_leaf_allEntries s.fields 0
  have hcolumn : ∀ x ∈ s.entries, ∀ path physicalType, _ := fun x hx =>
    (Frame.grammar_iff_nests.2 (Field.nests_of_mem_allLeaves s.fields x.leaf
      (hleaves ▸ List.mem_map_of_mem hx))).column
  refine
    { ends := fun n hn => ?_
      met := ?_
      reached := Field.mem_allEntries_iff s.fields
      ordered := Field.pairwise_allEntries s.fields
      consecutive := fun is f names frames hat => hat.block
      merged := mergeFields_eq_share s.fields 0
      shaped := fun x hx => (hcolumn x hx _ _).1
      overflows := fun x hx => (hcolumn x hx _ _).2 }
  · obtain ⟨hrun, hafter⟩ := LeafWalk.run_of_weight_le hn
    refine ⟨hafter, ?_⟩
    rw [hrun, s.columns_walk, s.leaves_eq]
  · rw [s.leaves_eq, ← hleaves, List.map_map]
    rfl

/-- A struct without members has no leaves; the field after it keeps its index. -/
example : (Schema.mk "shelf" [.mk "empty" (.struct []) true,
    .mk "books" (.map (.mk "key" (.primitive .string) false)
      (.mk "value" (.list (.mk "element" (.primitive .int32) true)) false)) false]).entries.map
        LeafEntry.address = [[1, 0], [1, 1, 0]] := rfl

end Striping
