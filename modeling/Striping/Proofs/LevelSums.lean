import Striping.Proofs.Places

/-!
# Level sums

Levels are words that may wrap around. Of all the sums that are taken of them only one is checked,
that for the definition level of a column; the others are taken on trust.

* `LevelBounds.below?_eq_some`, `LevelBounds.below?_eq_none`: levels count frames for as long as
  they fit.
* `LevelBounds.sumBy`, `Node.buildBy`: adding up the levels of a column, and matching a shape, with
  another sum in the place of the unchecked ones. If this is the sum of words, they come to what is
  really done (`LevelBounds.sumBy_add`, `Node.buildBy_add`).
* `LevelBounds.sums_exact`: **no sum wraps around**, whether the levels of a column fit or not, and
  whether a shape follows its frames or not.
-/

namespace Striping

variable {b : LevelBounds} {frames : List Frame} {d r : Level}

/-- How many of the frames are repeated. -/
def Frame.repetitionCount (frames : List Frame) : Nat :=
  frames.countP (·.repetition == .repeated)

theorem Frame.repetitionCount_cons (f : Frame) (frames : List Frame) :
    (Frame.repetitionCount (f :: frames) : Int) =
      f.repetitionStep.toInt + Frame.repetitionCount frames := by
  refine Frame.countP_cons ?_ frames
  rw [f.repetitionStep_toInt]
  cases f.repetition <;> rfl

theorem Frame.definitionStep_bounds (f : Frame) :
    0 ≤ f.definitionStep.toInt ∧ f.definitionStep.toInt ≤ 1 := by
  rw [f.definitionStep_toInt]
  split <;> omega

theorem Frame.repetitionStep_bounds (f : Frame) :
    0 ≤ f.repetitionStep.toInt ∧ f.repetitionStep.toInt ≤ f.definitionStep.toInt := by
  rw [f.definitionStep_toInt, f.repetitionStep_toInt]
  cases f.repetition <;> decide

/-- Only the groups inside lists and maps add to the repetition level. -/
theorem Frame.repetitionStep_of_ne {f : Frame} (h : f.repetition ≠ .repeated) :
    f.repetitionStep = 0 := by
  obtain ⟨repetition, kind⟩ := f
  cases repetition with
  | required => rfl
  | optional => rfl
  | repeated => exact absurd rfl h

/-- A sum that did not wrap around is one that fits. -/
theorem Level.add?_of_exact {m n : Level} (h : (m + n).toInt = m.toInt + n.toInt) :
    Level.add? m n = some (m + n) := by
  have hlow := Int16.le_toInt (m + n)
  have hhigh := Level.toInt_lt (m + n)
  unfold Level.add?
  exact if_pos (by omega)

theorem Level.add?_of_le {m n : Level} (hm : 0 ≤ m.toInt) (hn : 0 ≤ n.toInt)
    (h : m.toInt + n.toInt ≤ 32767) : Level.add? m n = some (m + n) := by
  unfold Level.add?
  exact if_pos (by omega)

namespace LevelBounds

section Counting

/-- What is reached below some frames counts them. -/
theorem below?_eq_some (h : below? ⟨d, r⟩ frames = some b)
    (hr : 0 ≤ r.toInt ∧ r.toInt ≤ d.toInt) :
    b.definition.toInt = d.toInt + Frame.definitionCount frames ∧
      b.repetition.toInt = r.toInt + Frame.repetitionCount frames := by
  induction frames generalizing d r with
  | nil =>
    obtain rfl := Option.some.inj h
    exact ⟨(Int.add_zero _).symm, (Int.add_zero _).symm⟩
  | cons f frames ih =>
    have hstep := f.repetitionStep_bounds
    obtain ⟨hrest, hd, hrep⟩ := below?_cons h hr
    obtain ⟨hdef, hrepetition⟩ := ih hrest (by omega)
    have hdcount := Frame.definitionCount_cons f frames
    have hrcount := Frame.repetitionCount_cons f frames
    omega

/-- Frames that nothing is reached below are more than levels can count. -/
theorem below?_eq_none (h : below? ⟨d, r⟩ frames = none) (hd : 0 ≤ d.toInt) :
    32767 < d.toInt + Frame.definitionCount frames := by
  induction frames generalizing d r with
  | nil => cases h
  | cons f frames ih =>
    have hstep := f.definitionStep_bounds
    have hcount := Frame.definitionCount_cons f frames
    by_cases hfits : d.toInt + f.definitionStep.toInt ≤ 32767
    · have hadd := Level.add?_of_le hd hstep.1 hfits
      obtain ⟨-, hsum⟩ := Level.add?_eq_some hadd
      unfold below? at h
      rw [List.foldlM_cons, enter?, hadd] at h
      have hrest := ih h (by omega)
      omega
    · omega

/-- **The levels of a column fit if there are not too many frames to count.** -/
theorem exists_sum?_iff :
    (∃ b, sum? frames = some b) ↔ Frame.definitionCount frames ≤ 32767 := by
  constructor
  · rintro ⟨b, hb⟩
    obtain ⟨hd, -⟩ := below?_eq_some hb (by decide)
    have hlt := Level.toInt_lt b.definition
    rw [Int16.toInt_zero] at hd
    omega
  · intro hle
    cases hs : sum? frames with
    | some b => exact ⟨b, rfl⟩
    | none =>
      have hlt := below?_eq_none hs (by decide)
      rw [Int16.toInt_zero] at hlt
      omega

/-- Frames that end in their only leaf are counted. -/
theorem ofFrames_concat {above : List Frame} {leaf : Frame} (hleaf : leaf.kind = .primitive)
    (habove : ∀ f ∈ above, f.kind ≠ .primitive) :
    (∀ b, sum? (above ++ [leaf]) = some b → ofFrames (above ++ [leaf]) = .ok b) ∧
      (sum? (above ++ [leaf]) = none → ofFrames (above ++ [leaf]) = .error .levelOverflow) := by
  have hearly : above.findIdx? (·.kind = .primitive) = none := by
    rw [List.findIdx?_eq_none_iff]
    intro f hf
    exact decide_eq_false (habove f hf)
  unfold ofFrames
  rw [List.getLast?_concat, List.dropLast_concat]
  simp only [hleaf, hearly, if_true]
  constructor
  · intro b hb
    rw [hb]
  · intro hnone
    rw [hnone]

end Counting

section Unchecked

/-- The bounds below all the frames, with `add` for the sums that are not checked. Nothing comes of
a sum that is nothing; a definition level that does not fit is the `none` inside. -/
def sumBy (add : Level → Level → Option Level) :
    LevelBounds → List Frame → Option (Option LevelBounds)
  | b, [] => some (some b)
  | b, f :: frames =>
    match Level.add? b.definition f.definitionStep with
    | none => some none
    | some definition =>
      (add b.repetition f.repetitionStep).bind fun repetition =>
        sumBy add ⟨definition, repetition⟩ frames

/-- The levels of a column are added up with sums of words. -/
theorem sumBy_add : sumBy (fun m n => some (m + n)) b frames = some (below? b frames) := by
  induction frames generalizing b with
  | nil => rfl
  | cons f frames ih =>
    unfold sumBy below?
    rw [List.foldlM_cons, enter?]
    cases Level.add? b.definition f.definitionStep with
    | none => rfl
    | some definition => exact ih

/-- **None of them wraps around**: the repetition level is never the greater one. -/
theorem sumBy_add? (hr : 0 ≤ r.toInt ∧ r.toInt ≤ d.toInt) :
    sumBy Level.add? ⟨d, r⟩ frames = some (below? ⟨d, r⟩ frames) := by
  rw [← sumBy_add]
  induction frames generalizing d r with
  | nil => rfl
  | cons f frames ih =>
    have hstep := f.repetitionStep_bounds
    unfold sumBy
    cases hd : Level.add? d f.definitionStep with
    | none => rfl
    | some definition =>
      obtain ⟨-, hsum⟩ := Level.add?_eq_some hd
      have hlt := Level.toInt_lt definition
      have hrep := Level.add?_of_le (m := r) (n := f.repetitionStep) (by omega) hstep.1 (by omega)
      obtain ⟨-, hrsum⟩ := Level.add?_eq_some hrep
      simp only [hrep, Option.bind_some]
      exact ih (by omega)

end Unchecked

end LevelBounds

namespace Node

/-- Matches a shape against frames, with `add` for the sums of levels. Nothing comes of a sum that
is nothing. -/
def buildBy (add : Level → Level → Option Level) (total : Nat) :
    Shape → List Frame → Level → Level → Option (Except ShapeFault Node)
  | shape, [], _, _ => some (.error (.tooDeep shape total))
  | .scalar, frame :: below, definition, _ =>
    if frame.kind = .primitive ∧ below = [] then
      match frame.repetition with
      | .required => some (.ok (leaf none definition))
      | .optional =>
        (add definition frame.definitionStep).map fun level => .ok (leaf (some definition) level)
      | .repeated => some (.error .repeatedLeaf)
    else some (.error (.scalarAt frame (below.length + 1)))
  | .struct member, frame :: below, definition, repetition =>
    if frame.isStruct then
      (add definition frame.definitionStep).bind fun inner =>
        (buildBy add total member below inner repetition).map fun built =>
          match built with
          | .error fault => .error fault
          | .ok node =>
            match frame.repetition with
            | .optional => .ok (optionalStruct definition node)
            | .required | .repeated => .ok (requiredStruct node)
    else some (.error (.structAt frame))
  | .list element, frame :: below, definition, repetition =>
    match below with
    | inner :: next :: rest =>
      if frame.isListLike ∧ frame.repetition ≠ .repeated then
        if inner = Frame.repeatedGroup then
          (add definition frame.definitionStep).bind fun emptyLevel =>
          (add emptyLevel inner.definitionStep).bind fun elementLevel =>
          (add repetition inner.repetitionStep).bind fun repetitionLevel =>
            (buildBy add total element (next :: rest) elementLevel repetitionLevel).map fun built =>
              match built with
              | .error fault => .error fault
              | .ok node =>
                let nullLevel := if frame.repetition = .optional then some definition else none
                .ok (list nullLevel emptyLevel repetitionLevel node)
        else some (.error (.notRepeated frame inner))
      else some (.error (.listAt frame))
    | _ => some (.error (.shortList (below.length + 1)))

/-- A shape is matched with sums of words. -/
theorem buildBy_add (total : Nat) (shape : Shape) (frames : List Frame) (d r : Level) :
    buildBy (fun m n => some (m + n)) total shape frames d r =
      some (build total shape frames d r) := by
  induction shape generalizing frames d r with
  | scalar =>
    cases frames with
    | nil => rfl
    | cons frame below =>
      unfold buildBy build
      by_cases hk : frame.kind = .primitive ∧ below = []
      · rw [if_pos hk, if_pos hk]
        cases frame.repetition <;> rfl
      · rw [if_neg hk, if_neg hk]
  | struct member ih =>
    cases frames with
    | nil => rfl
    | cons frame below =>
      unfold buildBy build
      by_cases hs : frame.isStruct = true
      · rw [if_pos hs, if_pos hs, Option.bind_some, ih]
        rfl
      · rw [if_neg hs, if_neg hs]
  | list element ih =>
    obtain _ | ⟨frame, _ | ⟨inner, _ | ⟨next, rest⟩⟩⟩ := frames
    · rfl
    · rfl
    · rfl
    · unfold buildBy build
      simp only [Option.bind_some, ih]
      by_cases hl : frame.isListLike = true ∧ frame.repetition ≠ .repeated
      · rw [if_pos hl, if_pos hl]
        by_cases hi : inner = Frame.repeatedGroup
        · rw [if_pos hi, if_pos hi]
          rfl
        · rw [if_neg hi, if_neg hi]
      · rw [if_neg hl, if_neg hl]

/-- **None of these sums wraps around** in a column that has bounds, however far the shape is
matched. -/
theorem buildBy_add? (total : Nat) (shape : Shape)
    (h : LevelBounds.below? ⟨d, r⟩ frames = some b) (hr : 0 ≤ r.toInt ∧ r.toInt ≤ d.toInt) :
    buildBy Level.add? total shape frames d r = some (build total shape frames d r) := by
  -- the levels that are reached are the bounds of the frames above, which all fit
  induction shape generalizing frames d r with
  | scalar =>
    cases frames with
    | nil => rfl
    | cons frame below =>
      obtain ⟨-, hd, -⟩ := LevelBounds.below?_cons h hr
      have hadd := Level.add?_of_exact hd
      rw [← buildBy_add]
      unfold buildBy
      rw [hadd]
  | struct member ih =>
    cases frames with
    | nil => rfl
    | cons frame below =>
      have hstep := frame.repetitionStep_bounds
      obtain ⟨hbelow, hd, -⟩ := LevelBounds.below?_cons h hr
      have hadd := Level.add?_of_exact hd
      unfold buildBy build
      by_cases hs : frame.isStruct = true
      · have hrep : frame.repetition ≠ .repeated := by
          unfold Frame.isStruct at hs
          simp only [Bool.and_eq_true, bne_iff_ne] at hs
          exact hs.2
        rw [Frame.repetitionStep_of_ne hrep, Int16.add_zero] at hbelow
        have hmember := ih hbelow (by omega)
        rw [if_pos hs, if_pos hs, hadd, Option.bind_some, hmember]
        rfl
      · rw [if_neg hs, if_neg hs]
  | list element ih =>
    obtain _ | ⟨frame, _ | ⟨inner, _ | ⟨next, rest⟩⟩⟩ := frames
    · rfl
    · rfl
    · rfl
    · have hstep := frame.repetitionStep_bounds
      obtain ⟨hbelow, hd, -⟩ := LevelBounds.below?_cons h hr
      have hadd := Level.add?_of_exact hd
      unfold buildBy build
      by_cases hl : frame.isListLike = true ∧ frame.repetition ≠ .repeated
      · rw [Frame.repetitionStep_of_ne hl.2, Int16.add_zero] at hbelow
        obtain ⟨hrest, hinner, hlist⟩ := LevelBounds.below?_cons hbelow (by omega)
        have haddInner := Level.add?_of_exact hinner
        have haddList := Level.add?_of_exact hlist
        have hstepInner := inner.repetitionStep_bounds
        have helement := ih hrest (by omega)
        simp only [if_pos hl]
        by_cases hi : inner = Frame.repeatedGroup
        · rw [if_pos hi, if_pos hi, hadd, Option.bind_some, haddInner, Option.bind_some, haddList,
            Option.bind_some, helement]
          rfl
        · rw [if_neg hi, if_neg hi]
      · simp only [if_neg hl]

end Node

/-- **No sum of levels wraps around.** Let frames end in their only leaf. A column with these frames
has bounds just if no more than 32767 of them are optional or repeated, and then these are the exact
numbers of optional or repeated and of repeated frames. Whether it has bounds or not, no unchecked
sum that is taken on the way is one that does not fit; and if it has, then no sum that is taken to
match a shape is, whether the shape follows the frames or not. -/
theorem LevelBounds.sums_exact {above : List Frame} {leaf : Frame} (hleaf : leaf.kind = .primitive)
    (habove : ∀ f ∈ above, f.kind ≠ .primitive) :
    ((∃ b, ofFrames (above ++ [leaf]) = .ok b) ↔
        Frame.definitionCount (above ++ [leaf]) ≤ 32767) ∧
      (∀ b, ofFrames (above ++ [leaf]) = .ok b →
        b.definition.toInt = Frame.definitionCount (above ++ [leaf]) ∧
          b.repetition.toInt = Frame.repetitionCount (above ++ [leaf])) ∧
      sumBy Level.add? ⟨0, 0⟩ (above ++ [leaf]) = some (sum? (above ++ [leaf])) ∧
      ∀ column : Column, column.frames = above ++ [leaf] → ∀ shape : Shape,
        Node.buildBy Level.add? column.frames.length shape column.frames 0 0 =
          some (Node.build column.frames.length shape column.frames 0 0) := by
  obtain ⟨hok, hoverflow⟩ := ofFrames_concat hleaf habove
  refine ⟨?_, ?_, sumBy_add? (by decide), ?_⟩
  · rw [← exists_sum?_iff]
    constructor
    · rintro ⟨b, hb⟩
      exact ⟨b, below?_of_ofFrames hb⟩
    · rintro ⟨b, hb⟩
      exact ⟨b, hok b hb⟩
  · intro b hb
    have hcount := below?_eq_some (below?_of_ofFrames hb) (by decide)
    rw [Int16.toInt_zero, Int.zero_add, Int.zero_add] at hcount
    exact hcount
  · intro column _ shape
    exact Node.buildBy_add? _ shape (below?_of_ofFrames column.bounds_eq) (by decide)

/-- One level is left above an optional leaf below 32766 optional groups, and none below 32767. -/
theorem LevelBounds.sums_exact_deep :
    (∃ b, ofFrames (List.replicate 32766 ⟨.optional, .group⟩ ++ [⟨.optional, .primitive⟩]) = .ok b ∧
        b.definition.toInt = 32767 ∧ b.repetition.toInt = 0) ∧
      ¬ ∃ b, ofFrames (List.replicate 32767 ⟨.optional, .group⟩ ++ [⟨.optional, .primitive⟩]) =
        .ok b := by
  have hgroups : ∀ n, ∀ f ∈ List.replicate n (⟨.optional, .group⟩ : Frame),
      f.kind ≠ .primitive := by
    intro n f hf
    rw [List.eq_of_mem_replicate hf]
    decide
  have hdefinitions : ∀ n, Frame.definitionCount
      (List.replicate n ⟨.optional, .group⟩ ++ [⟨.optional, .primitive⟩]) = n + 1 := by
    intro n
    unfold Frame.definitionCount
    rw [List.countP_append, List.countP_replicate]
    rfl
  have hrepetitions : ∀ n, Frame.repetitionCount
      (List.replicate n ⟨.optional, .group⟩ ++ [⟨.optional, .primitive⟩]) = 0 := by
    intro n
    unfold Frame.repetitionCount
    rw [List.countP_append, List.countP_replicate]
    rfl
  have hleaf : (⟨.optional, .primitive⟩ : Frame).kind = .primitive := rfl
  constructor
  · obtain ⟨hiff, hexact, -⟩ := sums_exact hleaf (hgroups 32766)
    obtain ⟨b, hb⟩ := hiff.2 (Nat.le_of_eq (hdefinitions 32766))
    obtain ⟨hd, hr⟩ := hexact b hb
    rw [hdefinitions] at hd
    rw [hrepetitions] at hr
    exact ⟨b, hb, hd, hr⟩
  · obtain ⟨hiff, -⟩ := sums_exact hleaf (hgroups 32767)
    rw [hiff, hdefinitions]
    decide

end Striping
