import Striping.Proofs.LeafColumns

/-!
# The grammar of frames

Which columns have a shape is said by a grammar of their frames. Matching a shape goes through
shape and frames together, and finding the canonical shape goes through the frames alone, with
another look ahead; both come to the same.

* `Frame.Grammar`: a leaf; a struct around such frames; a list or a map, with its repeated group,
  around such frames.
* `Frame.grammar_iff_nests`: **the grammar derives the frames that shapes are matched with**.
  `Node.exists_build_iff`: with their canonical shape, and with no other.
* `ColumnShape.make_iff_grammar`: **a shape fits a column just if the grammar derives the frames
  and the shape is their canonical one**.
-/

namespace Striping

variable {frames : List Frame}

/-- The frames that values can nest along. -/
inductive Frame.Grammar : List Frame → Prop where
  /-- A leaf that is not repeated. -/
  | leaf {f : Frame} (hkind : f.kind = .primitive) (honce : f.repetition ≠ .repeated) :
      Grammar [f]
  /-- A plain group that is not repeated. -/
  | struct {f : Frame} {below : List Frame} (hkind : f.kind = .group)
      (honce : f.repetition ≠ .repeated) (hbelow : Grammar below) : Grammar (f :: below)
  /-- The outer group of a list or a map, which is not repeated, and a plain group that is. -/
  | list {f : Frame} {below : List Frame} (hkind : f.kind = .list ∨ f.kind = .map)
      (honce : f.repetition ≠ .repeated) (hbelow : Grammar below) :
      Grammar (f :: ⟨.repeated, .group⟩ :: below)

/-- A frame that is not repeated is required or optional. -/
theorem Frame.eq_of_once {f : Frame} (h : f.repetition ≠ .repeated) :
    ∃ optional : Bool, f = ⟨if optional then .optional else .required, f.kind⟩ := by
  obtain ⟨repetition, kind⟩ := f
  cases repetition with
  | required => exact ⟨false, rfl⟩
  | optional => exact ⟨true, rfl⟩
  | repeated => exact absurd rfl h

/-- Frames that a shape is matched with are derived by the grammar. -/
theorem Node.Follows.grammar {node : Node} {s : Shape} {d r : Level}
    (h : node.Follows s frames d r) : Frame.Grammar frames := by
  induction h with
  | requiredLeaf => exact .leaf rfl (by simp)
  | optionalLeaf => exact .leaf rfl (by simp)
  | requiredStruct _ ih => exact .struct rfl (by simp) ih
  | optionalStruct _ ih => exact .struct rfl (by simp) ih
  | requiredList hk _ ih => exact .list hk (by simp) ih
  | optionalList hk _ ih => exact .list hk (by simp) ih

/-- **The grammar derives the frames that shapes are matched with.** -/
theorem Frame.grammar_iff_nests : Frame.Grammar frames ↔ Nests frames := by
  constructor
  · intro h
    induction h with
    | @leaf f hkind honce =>
      obtain ⟨optional, hf⟩ := Frame.eq_of_once honce
      intro d r
      rw [hf, hkind]
      cases optional with
      | false => exact ⟨_, _, .requiredLeaf⟩
      | true => exact ⟨_, _, .optionalLeaf⟩
    | @struct f below hkind honce _ ih =>
      obtain ⟨optional, hf⟩ := Frame.eq_of_once honce
      rw [hf, hkind]
      exact ih.struct optional
    | @list f below hkind honce _ ih =>
      obtain ⟨optional, hf⟩ := Frame.eq_of_once honce
      rw [hf]
      exact ih.list optional hkind
  · intro h
    obtain ⟨node, shape, hfollows⟩ := h 0 0
    exact hfollows.grammar

/-- **A shape is matched with frames just if the grammar derives them and it is their canonical
one.** -/
theorem Node.exists_build_iff {total : Nat} {shape : Shape} :
    (∃ root, Node.build total shape frames 0 0 = .ok root) ↔
      Frame.Grammar frames ∧ shape = .infer frames := by
  constructor
  · rintro ⟨root, hroot⟩
    have hfollows := Node.follows_of_build hroot
    exact ⟨hfollows.grammar, hfollows.shape_eq⟩
  · rintro ⟨hgrammar, rfl⟩
    obtain ⟨node, shape, hfollows⟩ := Frame.grammar_iff_nests.1 hgrammar 0 0
    obtain rfl := hfollows.shape_eq
    exact ⟨node, hfollows.build⟩

/-- To know whether the grammar derives frames, match their canonical shape. -/
instance : DecidablePred Frame.Grammar := fun frames =>
  match h : Node.build frames.length (.infer frames) frames 0 0 with
  | .ok root => isTrue (Node.exists_build_iff.1 ⟨root, h⟩).1
  | .error _ => isFalse fun hgrammar => by
    obtain ⟨root, hroot⟩ := Node.exists_build_iff.2 ⟨hgrammar, rfl⟩
    rw [h] at hroot
    cases hroot

/-- A list has a group that is repeated between itself and its elements. -/
example : Frame.Grammar [⟨.optional, .list⟩, .repeatedGroup, ⟨.required, .primitive⟩] ∧
    ¬ Frame.Grammar [⟨.optional, .list⟩, ⟨.repeated, .primitive⟩] := by decide

namespace ColumnShape

variable {column : Column} {shape : Shape}

/-- A shape fits a column if it is matched with the frames; nothing else is asked. -/
theorem exists_make_iff : (∃ s, make column shape = .ok s) ↔
    ∃ root, Node.build column.frames.length shape column.frames 0 0 = .ok root := by
  constructor
  · rintro ⟨s, h⟩
    unfold make at h
    split at h
    · cases h
    · rename_i root hroot
      exact ⟨root, hroot⟩
  · rintro ⟨root, hroot⟩
    exact ⟨_, make_of_build hroot⟩

/-- What is made is the column with the shape. -/
theorem parts_of_make {s : ColumnShape} (h : make column shape = .ok s) :
    s.column = column ∧ s.shape = shape := by
  obtain ⟨root, hroot⟩ := exists_make_iff.1 ⟨s, h⟩
  obtain rfl := Except.ok.inj ((make_of_build hroot).symm.trans h)
  exact ⟨rfl, rfl⟩

/-- A shape that is not matched is refused by the name of the column. -/
theorem make_error {e : Error} (h : make column shape = .error e) :
    ∃ fault, e = .unsupportedShape column.name fault := by
  unfold make at h
  split at h
  · exact ⟨_, (Except.error.inj h).symm⟩
  · split at h
    · cases h
    · exact ⟨_, (Except.error.inj h).symm⟩

/-- The shape that fits is the canonical one, if there is any. -/
theorem exists_make_iff_grammar : (∃ s, make column shape = .ok s) ↔
    Frame.Grammar column.frames ∧ shape = .infer column.frames :=
  exists_make_iff.trans Node.exists_build_iff

/-- **A shape fits a column just if the grammar derives the frames and the shape is their canonical
one.** Every other shape is refused as one that the column does not support. So no two shapes fit a
column, the canonical shape fits if any does, and the level at which matching reaches the leaf is
always the greatest one of the column, so that the last check never refuses a shape. -/
theorem make_iff_grammar (column : Column) (shape : Shape) :
    ((∃ s, make column shape = .ok s ∧ s.column = column ∧ s.shape = shape) ↔
        Frame.Grammar column.frames ∧ shape = .infer column.frames) ∧
      (¬(Frame.Grammar column.frames ∧ shape = .infer column.frames) →
        ∃ fault, make column shape = .error (.unsupportedShape column.name fault)) ∧
      (∀ other s s', make column shape = .ok s → make column other = .ok s' → other = shape) ∧
      (∀ s, make column shape = .ok s → infer column = .ok s) ∧
      ∀ root, Node.build column.frames.length shape column.frames 0 0 = .ok root →
        root.valueLevel = column.bounds.definition := by
  have hcanonical : ∀ {other s}, make column other = .ok s → other = .infer column.frames :=
    fun h => (exists_make_iff_grammar.1 ⟨_, h⟩).2
  refine ⟨?_, ?_, ?_, ?_, fun root hroot => valueLevel_of_build hroot⟩
  · rw [← exists_make_iff_grammar]
    constructor
    · rintro ⟨s, hs, -⟩
      exact ⟨s, hs⟩
    · rintro ⟨s, hs⟩
      exact ⟨s, hs, parts_of_make hs⟩
  · intro hnot
    rw [← exists_make_iff_grammar] at hnot
    cases hmake : make column shape with
    | ok s => exact absurd ⟨s, hmake⟩ hnot
    | error e =>
      obtain ⟨fault, rfl⟩ := make_error hmake
      exact ⟨fault, rfl⟩
  · intro other s s' hs hs'
    rw [hcanonical hs, hcanonical hs']
  · intro s hs
    unfold infer
    rw [← hcanonical hs]
    exact hs

end ColumnShape

end Striping
