import Striping.Proofs.Accesses
import Striping.Proofs.Places

/-!
# Steps that are safe with every reader

**Scope.** One cursor or assembler over any `ColumnReader`, which may answer what it likes but runs
dry at some time.

* `Cursor.Safe`: a step that only moves the cursor, gives what it took, and fails in no other ways
  than `Error.OfReading`. `Cursor.Safe.andThen`: **a safe step after a safe step is safe**.
* `Node.assemble_safe`: **assembly is safe at every node**.
* `Assembler.readRow_safe`, `Assembler.readBatch_safe`: so is reading, row by row or in bulk.
-/

namespace Striping

variable {ρ P α β : Type}

/-- The ways in which reading may fail when it leaves the reader as `r`: what it delivers is not
the stripe of any rows, or a stored value has no counterpart, or the reader itself has failed. -/
inductive Error.OfReading [ColumnReader ρ P] (r : ρ) : Error → Prop where
  | corrupt (column : String) (levels : Levels) (fault : StreamFault) :
      OfReading r (.corruptStream column levels fault)
  | conversion (target : String) (fault : ConversionFault) :
      OfReading r (.conversion target fault)
  | reader {before : ρ} {q : Request} {e : Error}
      (h : ColumnReader.readBatch before q = (.error e, r)) : OfReading r e

theorem LeafType.textOf_error {bytes : ByteArray} {e : Error}
    (h : LeafType.textOf bytes = .error e) : ∃ fault, e = .conversion "String" fault := by
  unfold textOf at h
  split at h
  · cases h
  · exact ⟨_, (Except.error.inj h).symm⟩

theorem LeafType.narrow_error {t : LeafType} {low high : Int} {n : Int32} {ofInt : Int → α}
    {e : Error} (h : (narrow t low high n).map ofInt = .error e) :
    ∃ fault, e = .conversion t.title fault := by
  unfold narrow at h
  split at h
  · exact ⟨_, (Except.error.inj h).symm⟩
  · split at h
    · exact ⟨_, (Except.error.inj h).symm⟩
    · cases h

/-- A stored value that cannot be read is refused as such. -/
theorem LeafType.ofPhysical_error {t : LeafType} {p : t.Physical} {e : Error}
    (h : t.ofPhysical p = .error e) : ∃ target fault, e = .conversion target fault := by
  cases t with
  | int8 => exact ⟨_, narrow_error h⟩
  | int16 => exact ⟨_, narrow_error h⟩
  | uint8 => exact ⟨_, narrow_error h⟩
  | uint16 => exact ⟨_, narrow_error h⟩
  | text => exact ⟨_, textOf_error h⟩
  | _ => cases h

theorem Nested.allScalars_append (us vs : List (Nested α)) :
    allScalars (us ++ vs) = allScalars us ++ allScalars vs := by
  induction us with
  | nil => rfl
  | cons u us ih => rw [List.cons_append, allScalars, ih, allScalars, List.append_assoc]

theorem Nested.allScalars_scalars (xs : List α) : allScalars (xs.map scalar) = xs := by
  induction xs with
  | nil => rfl
  | cons x xs ih => rw [List.map_cons, allScalars, ih]; rfl

/-- A step for each element fails at one of them. -/
theorem mapM_error {f : α → Except Error β} {as : List α} {e : Error}
    (h : as.mapM f = .error e) : ∃ a ∈ as, f a = .error e := by
  induction as with
  | nil => cases h
  | cons a as ih =>
    rw [List.mapM_cons] at h
    cases ha : f a with
    | error e' =>
      rw [ha] at h
      obtain rfl := Except.error.inj h
      exact ⟨a, List.mem_cons_self, ha⟩
    | ok b =>
      rw [ha] at h
      cases has : as.mapM f with
      | error e' =>
        rw [has] at h
        obtain rfl := Except.error.inj h
        obtain ⟨a', hmem, ha'⟩ := ih has
        exact ⟨a', List.mem_cons_of_mem a hmem, ha'⟩
      | ok bs =>
        rw [has] at h
        cases h

namespace Cursor

variable [ColumnReader ρ P] [Inhabited P] {c c' : Cursor ρ P}

/-- A step that only moves the cursor. If it succeeds with `a`, the values it took are related to
`a` by `R`. -/
inductive Safe (c : Cursor ρ P) (R : α → List P → Prop) : Outcome (Cursor ρ P) α → Prop where
  | ok {as : List (Access P)} {a : α} {c' : Cursor ρ P} (h : c.Moves as c')
      (hr : R a (as.filterMap Access.value?)) : Safe c R (.ok a, c')
  | error {as : List (Access P)} {e : Error} {c' : Cursor ρ P} (h : c.Moves as c')
      (he : Error.OfReading c'.reader e) : Safe c R (.error e, c')

variable {R : α → List P → Prop} {S : β → List P → Prop} {o : Outcome (Cursor ρ P) α}

/-- It leaves a sound cursor behind. -/
theorem Safe.sound (h : c.Safe R o) (hc : c.Sound) : o.2.Sound := by
  cases h with
  | ok h _ => exact (h.sound hc).1
  | error h _ => exact (h.sound hc).1

/-- The values of a step are told in another way. -/
theorem Safe.map {f : α → β} (h : c.Safe R o) (hf : ∀ a xs, R a xs → S (f a) xs) :
    c.Safe S (Outcome.map f o) := by
  cases h with
  | ok h hr => exact .ok h (hf _ _ hr)
  | error h he => exact .error h he

/-- A step may be made from further on. -/
theorem Safe.of_moves {as : List (Access P)} (h : c.Moves as c')
    (hs : c'.Safe (fun a xs => R a (as.filterMap Access.value? ++ xs)) o) : c.Safe R o := by
  cases hs with
  | ok h' hr =>
    refine .ok (h.trans h') ?_
    rw [List.filterMap_append]
    exact hr
  | error h' he => exact .error (h.trans h') he

/-- **A safe step after a safe step is safe.** -/
theorem Safe.andThen {f : α → Cursor ρ P → Outcome (Cursor ρ P) β} (hc : c.Sound) :
    c.Safe R o →
    (∀ a c' xs, o = (.ok a, c') → c'.Sound → R a xs →
      c'.Safe (fun b ys => S b (xs ++ ys)) (f a c')) →
    c.Safe S (match o with
      | (.error e, c) => (.error e, c)
      | (.ok a, c) => f a c) := by
  intro h hf
  cases h with
  | error h he => exact .error h he
  | ok h hr => exact .of_moves h (hf _ _ _ rfl (h.sound hc).1 hr)

theorem safe_ready (c : Cursor ρ P) : c.Safe (fun _ xs => xs = []) c.ready := by
  have hm : c.Moves [] c.ready.2 := .ready (.refl _)
  rcases c.ready_cases with ⟨x, h, hx⟩ | ⟨-, -, ⟨e, reader, ha, h⟩ | ⟨a, reader, -,
    ⟨-, fault, h⟩ | ⟨-, h⟩⟩⟩
  · rw [h] at hm ⊢
    cases x with
    | ok more => exact .ok hm rfl
    | error e =>
      obtain ⟨fault, rfl⟩ := hx e rfl
      exact .error hm (.corrupt _ _ _)
  · rw [h] at hm ⊢
    exact .error hm (.reader ha)
  · rw [h] at hm ⊢
    exact .error hm (.corrupt _ _ _)
  · rw [h] at hm ⊢
    exact .ok hm rfl

/-- Looking takes nothing. -/
theorem Sound.peek_safe (hc : c.Sound) : c.Safe (fun _ xs => xs = []) c.peek := by
  have hs := c.safe_ready
  unfold peek
  rcases hr : c.ready with ⟨e | _ | _, c'⟩
  · rw [hr] at hs
    cases hs with
    | error h he => exact .error h he
  · rw [hr] at hs
    cases hs with
    | ok h hx => exact .ok h hx
  · rw [hr] at hs
    cases hs with
    | ok h hx =>
      have hi := (hc.toTidy.ready hr).2.2 rfl
      have hlook : c'.Moves [.look c'.levelIndex] c' := .look hi (.refl c')
      refine .of_moves h ?_
      rw [hx]
      by_cases hb : c'.bounds.contains c'.levels = true
      · simp only [hb, if_true]
        exact .ok hlook rfl
      · simp only [hb]
        exact .error hlook (.corrupt _ _ _)

/-- What follows a look is safe if it is in both cases. -/
theorem Sound.peek_then {f : Cursor ρ P → Outcome (Cursor ρ P) β}
    {g : Levels → Cursor ρ P → Outcome (Cursor ρ P) β} (hc : c.Sound) :
    (∀ c' : Cursor ρ P, c'.Sound → c'.Safe S (f c')) →
    (∀ l c', c.peek = (.ok (some l), c') → c'.Sound → c'.levelIndex < c'.levelsRead →
      c'.Safe S (g l c')) →
    c.Safe S (match c.peek with
      | (.error e, c) => (.error e, c)
      | (.ok none, c) => f c
      | (.ok (some l), c) => g l c) := by
  intro hf hg
  have hs := hc.peek_safe
  rcases hp : c.peek with ⟨e | _ | l, c'⟩
  · rw [hp] at hs
    cases hs with
    | error h he => exact .error h he
  · rw [hp] at hs
    cases hs with
    | ok h hx =>
      refine .of_moves h ?_
      rw [hx]
      exact hf c' (h.sound hc).1
  · rw [hp] at hs
    cases hs with
    | ok h hx =>
      refine .of_moves h ?_
      rw [hx]
      exact hg l c' hp (h.sound hc).1 ((hc.toTidy.peek hp).2.2 rfl)

/-- A position is passed. -/
theorem safe_advance {a : α} (hi : c.levelIndex < c.levelsRead) (hr : R a []) :
    c.Safe R (.ok a, c.advance) :=
  .ok (.pass hi (.refl _)) hr

theorem safe_takeValue (c : Cursor ρ P) (l : Levels) :
    c.Safe (fun x xs => xs = [x]) (c.takeValue l) := by
  unfold takeValue
  by_cases hv : c.valueIndex < c.valuesRead
  · rw [if_pos hv]
    exact .ok (.take hv (.refl _)) rfl
  · rw [if_neg hv]
    exact .error (.refl c) (.corrupt _ _ _)

/-- A run of values is what was taken. -/
theorem Sound.takeRun_safe (hc : c.Sound) (most : Nat) :
    c.Safe (fun values xs => xs = values) (c.takeRun most) := by
  have hs := c.safe_ready
  unfold takeRun
  rcases hr : c.ready with ⟨e | _ | _, c'⟩
  · rw [hr] at hs
    cases hs with
    | error h he => exact .error h he
  · rw [hr] at hs
    cases hs with
    | ok h hx => exact .ok h hx
  · rw [hr] at hs
    cases hs with
    | ok h hx =>
      refine .of_moves h ?_
      rw [hx]
      have hle := (h.sound hc).1.levels_le
      by_cases hv : c'.valuesRead < c'.valueIndex + min most (c'.levelsRead - c'.levelIndex)
      · simp only [if_pos hv]
        exact .error (.refl c') (.corrupt _ _ _)
      · simp only [if_neg hv]
        obtain ⟨as, hmoves, has⟩ := moves_skip
          (show c'.levelIndex + min most (c'.levelsRead - c'.levelIndex) ≤ c'.levelsRead by omega)
          (Nat.not_lt.1 hv)
        exact .ok hmoves has

section Lists

variable {t : LeafType} [ColumnReader ρ t.Physical] {c c' : Cursor ρ t.Physical}

/-- The values of a row are what was taken for it. -/
def Took (v : Nested t.Value) (xs : List t.Physical) : Prop := xs = v.scalars.map t.toPhysical

/-- The values of rows are what was taken for them. -/
def TookAll (vs : List (Nested t.Value)) (xs : List t.Physical) : Prop :=
  xs = (Nested.allScalars vs).map t.toPhysical

omit [ColumnReader ρ t.Physical] in
theorem TookAll.cons {v : Nested t.Value} {vs : List (Nested t.Value)} {xs ys : List t.Physical}
    (h : Took v xs) (hs : TookAll vs ys) : TookAll (v :: vs) (xs ++ ys) := by
  unfold Took TookAll at *
  rw [h, hs, Nested.allScalars, List.map_append]

omit [ColumnReader ρ t.Physical] in
theorem Took.single {v : Nested t.Value} {xs : List t.Physical} (h : Took v xs) :
    TookAll [v] xs := by
  have hs : TookAll [v] (xs ++ []) := .cons h rfl
  rwa [List.append_nil] at hs

omit [ColumnReader ρ t.Physical] in
theorem TookAll.append {us vs : List (Nested t.Value)} {xs ys : List t.Physical}
    (h : TookAll us xs) (hs : TookAll vs ys) : TookAll (us ++ vs) (xs ++ ys) := by
  unfold TookAll at *
  rw [h, hs, Nested.allScalars_append, List.map_append]

variable {read : Cursor ρ t.Physical → Outcome (Cursor ρ t.Physical) (Nested t.Value)}
  (hread : ∀ c : Cursor ρ t.Physical, c.Sound → c.Safe Took (read c))

include hread

/-- The further items of a list are read safely, if each item is. -/
theorem Sound.readItems_safe (hc : c.Sound) (level : Level) (count : Nat) :
    c.Safe TookAll (readItems read level count c) := by
  induction count generalizing c with
  | zero => exact .ok (.refl c) rfl
  | succ count ih =>
    rw [readItems]
    refine hc.peek_then ?_ ?_
    · intro c' _
      exact .ok (.refl c') rfl
    · intro next c' _ hc' _
      by_cases hlt : next.repetition < level
      · rw [if_pos hlt]
        exact .ok (.refl c') rfl
      · rw [if_neg hlt]
        by_cases hgt : level < next.repetition
        · rw [if_pos hgt]
          exact .error (.refl c') (.corrupt _ _ _)
        · rw [if_neg hgt]
          refine Safe.andThen hc' (hread c' hc') ?_
          intro item c'' xs _ hc'' hxs
          exact (ih hc'').map fun rest ys hys => .cons hxs hys

/-- So are all items of a list that is not empty. -/
theorem Sound.readList_safe (hc : c.Sound) (level : Level) :
    c.Safe TookAll (c.readList read level) := by
  unfold readList
  refine Safe.andThen hc (hread c hc) ?_
  intro item c' xs _ hc' hxs
  exact (hc'.readItems_safe hread level _).map fun rest ys hys => .cons hxs hys

end Lists

end Cursor

namespace Node

open Cursor

variable {t : LeafType} [ColumnReader ρ t.Physical] {c : Cursor ρ t.Physical}

/-- What follows the entrance to a node is safe if it is at the position that was looked at. -/
theorem safe_of_enter {β : Type} {S : β → List t.Physical → Prop}
    {f : Levels → Cursor ρ t.Physical → Outcome (Cursor ρ t.Physical) β} {node : Node}
    (hc : c.Sound) :
    (∀ l, ∀ c' : Cursor ρ t.Physical, c'.Sound → c'.levelIndex < c'.levelsRead →
      c'.Safe S (f l c')) →
    c.Safe S (match c.enter node with
      | (.error e, c) => (.error e, c)
      | (.ok l, c) => f l c) := by
  intro hf
  unfold Cursor.enter expectLevels
  have hs := hc.peek_safe
  rcases hp : c.peek with ⟨e | _ | l, c'⟩
  · rw [hp] at hs
    cases hs with
    | error h he => exact .error h he
  · rw [hp] at hs
    cases hs with
    | ok h hx => exact .error h (.corrupt _ _ _)
  · rw [hp] at hs
    cases hs with
    | ok h hx =>
      by_cases hm : l.definition < node.minimum
      · simp only [hm, if_true]
        exact .error h (.corrupt _ _ _)
      · simp only [hm, if_false]
        refine .of_moves h ?_
        rw [hx]
        exact hf l c' (h.sound hc).1 ((hc.toTidy.peek hp).2.2 rfl)

/-- The value of a leaf is converted from the one that was taken for it. -/
theorem readLeaf_safe (hi : c.levelIndex < c.levelsRead) (l : Levels) :
    c.Safe Took (readLeaf t c l) := by
  have hs := c.safe_takeValue l
  unfold readLeaf
  rcases ht : c.takeValue l with ⟨e | p, c'⟩
  · rw [ht] at hs
    cases hs with
    | error h he => exact .error h he
  · rw [ht] at hs
    obtain ⟨-, -, rfl⟩ := takeValue_ok ht
    cases hs with
    | ok h hx =>
      cases hp : t.ofPhysical p with
      | error e =>
        obtain ⟨target, fault, rfl⟩ := LeafType.ofPhysical_error hp
        simp only [hp]
        exact .error h (.conversion _ _)
      | ok x =>
        simp only [hp]
        refine .of_moves h (safe_advance hi ?_)
        rw [hx, LeafType.ofPhysical_eq_ok_iff.1 hp]
        rfl

/-- **Assembly is safe at every node.** -/
theorem assemble_safe (node : Node) (hc : c.Sound) : c.Safe Took (node.assemble t c) := by
  induction node generalizing c with
  | leaf null level =>
    rw [assemble]
    refine safe_of_enter hc ?_
    intro l c' _ hi
    split
    · exact readLeaf_safe hi l
    · exact safe_advance hi rfl
  | requiredStruct member ih =>
    rw [assemble]
    refine safe_of_enter hc ?_
    intro l c' hc' _
    exact (ih hc').map fun v xs hx => hx
  | optionalStruct null member ih =>
    rw [assemble]
    refine safe_of_enter hc ?_
    intro l c' hc' hi
    split
    · exact safe_advance hi rfl
    · exact (ih hc').map fun v xs hx => hx
  | list null empty level element ih =>
    rw [assemble]
    refine safe_of_enter hc ?_
    intro l c' hc' hi
    split
    · exact safe_advance hi rfl
    · split
      · exact safe_advance hi rfl
      · exact (hc'.readList_safe (fun c hc => ih hc) level).map fun vs xs hx => hx

end Node

namespace Assembler

open Cursor

variable {t : LeafType}

variable [ColumnReader ρ t.Physical] {a : Assembler t ρ}

/-- A row is read safely. -/
theorem readRow_safe (hc : a.cursor.Sound) :
    a.cursor.Safe (fun row xs => TookAll row.toList xs) (a.readRow.within cursor) := by
  have hs := hc.peek_safe
  unfold readRow
  rcases hp : a.cursor.peek with ⟨e | _ | l, c⟩
  · rw [hp] at hs
    cases hs with
    | error h he => exact .error h he
  · rw [hp] at hs
    cases hs with
    | ok h hx => exact .ok h hx
  · rw [hp] at hs
    cases hs with
    | ok h hx =>
      by_cases h0 : l.repetition ≠ 0
      · simp only [if_pos h0]
        exact .error h (.corrupt _ _ _)
      · simp only [if_neg h0]
        have hrow := a.shape.root.assemble_safe (h.sound hc).1
        rcases ha : a.shape.root.assemble t c with ⟨e | v, c'⟩
        · rw [ha] at hrow
          cases hrow with
          | error h' he => exact .error (h.trans h') he
        · rw [ha] at hrow
          cases hrow with
          | ok h' hv =>
            refine .of_moves h (.ok h' ?_)
            rw [hx]
            exact Took.single hv

theorem readRows_safe (hc : a.cursor.Sound) (n : Nat) :
    a.cursor.Safe TookAll ((a.readRows n).within cursor) := by
  induction n generalizing a with
  | zero => exact .ok (.refl _) rfl
  | succ n ih =>
    have hs := readRow_safe hc
    rw [readRows]
    rcases hr : a.readRow with ⟨e | _ | row, a'⟩
    · rw [hr] at hs
      obtain _ | ⟨h, he⟩ := hs
      exact .error h he
    · rw [hr] at hs
      obtain ⟨h, hx⟩ | _ := hs
      exact .ok h hx
    · rw [hr] at hs
      obtain ⟨h, hx⟩ | _ := hs
      refine .of_moves h ((ih (h.sound hc).1).map ?_)
      intro rest ys hys
      exact hx.append hys

theorem readRun_safe {c : Cursor ρ t.Physical} (hc : c.Sound) (runs most : Nat) :
    c.Safe (fun values xs => xs = values) (readRun runs most c) := by
  induction runs generalizing c most with
  | zero => exact .ok (.refl c) rfl
  | succ runs ih =>
    rw [readRun]
    split
    · exact .ok (.refl c) rfl
    · have hs := hc.takeRun_safe most
      rcases htake : c.takeRun most with ⟨e | _ | ⟨x, values⟩, c'⟩
      · rw [htake] at hs
        cases hs with
        | error h he => exact .error h he
      · rw [htake] at hs
        cases hs with
        | ok h hx => exact .ok h hx
      · rw [htake] at hs
        cases hs with
        | ok h hx =>
          refine .of_moves h ((ih (h.sound hc).1 _).map ?_)
          rintro rest ys rfl
          rw [hx]

theorem readDirect_safe (hc : a.cursor.Sound) (most : Nat) :
    a.cursor.Safe TookAll ((a.readDirect most).within cursor) := by
  have hs := readRun_safe hc most most
  unfold readDirect
  rcases hrun : readRun most most a.cursor with ⟨e | physical, c⟩
  · rw [hrun] at hs
    cases hs with
    | error h he => exact .error h he
  · rw [hrun] at hs
    cases hs with
    | ok h hx =>
      cases hm : physical.mapM t.ofPhysical with
      | error e =>
        obtain ⟨p, -, hp⟩ := mapM_error hm
        obtain ⟨target, fault, rfl⟩ := LeafType.ofPhysical_error hp
        simp only [hm]
        exact .error h (.conversion _ _)
      | ok values =>
        simp only [hm]
        refine .ok h ?_
        unfold TookAll
        rw [hx, Nested.allScalars_scalars]
        have hvalues := (mapM_eq_ok_iff.1 hm).imp fun _ _ => LeafType.ofPhysical_eq_ok_iff.1
        rw [← List.forall₂_eq_eq_eq, List.forall₂_map_right_iff]
        exact hvalues

/-- So is a batch, however it is read. -/
theorem readBatch_safe (hc : a.cursor.Sound) (most : Nat) :
    a.cursor.Safe TookAll ((a.readBatch most).within cursor) := by
  unfold readBatch
  split
  · exact readDirect_safe hc most
  · exact readRows_safe hc most

end Assembler

end Striping
