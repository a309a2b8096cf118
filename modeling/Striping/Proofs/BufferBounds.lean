import Striping.Physical.Script
import Striping.Proofs.Safety

/-!
# Accesses to the buffers

**Scope.** One cursor or assembler over any `ColumnReader`, which may answer what it likes but runs
dry at some time.

The buffers of a cursor have as many slots as positions are asked for at a time. Of these only
those are held that were ever touched, so that reading the others gives a blank. Whether an access
lies in its buffer does not show there. A reader is handed the buffers as they are, and what it has
to write beyond their end is cut off (`Cursor.overlay`); the accesses below are those of the cursor.

* `Cursor.slot?`, `Cursor.takeSlot?`, `Cursor.takeSlots?`: accesses to a buffer of a given size. An
  access outside of the buffer comes to nothing at all.
* `Cursor.peek?` to `Assembler.collect?`: reading with such accesses in the place of the others. One
  access outside of a buffer, and all of it comes to nothing.
* `Cursor.Sound.peek?_eq`, `Cursor.Sound.takeValue?_eq`, `Cursor.Sound.takeRun?_eq`: **every access
  of a sound cursor lies within its buffer**, so that what is read is the same.
* `Node.assemble?_eq`, `Assembler.readBatch?_eq`: so does every access of assembly, and of reading
  row by row and in bulk.
-/

namespace Striping

namespace Cursor

variable {ρ P α : Type}

section Checked

/-- What is in a slot of a buffer. -/
def slot? (size : Nat) (buffer : Array α) (blank : α) (i : Nat) : Option α :=
  if i < size then some (buffer.getD i blank) else none

/-- Takes the value out of a slot of a buffer. -/
def takeSlot? [Inhabited P] (size : Nat) (buffer : Array P) (i : Nat) : Option (P × Array P) :=
  if i < size then some (buffer.getD i default, buffer.setIfInBounds i default) else none

/-- Takes the values out of a run of slots of a buffer. -/
def takeSlots? [Inhabited P] (size : Nat) (buffer : Array P) (first count : Nat) :
    Option (List P × Array P) :=
  let places := List.range' first count
  if first + count ≤ size then
    some (places.map fun i => buffer.getD i default,
      places.foldl (fun values i => values.setIfInBounds i default) buffer)
  else none

/-- The levels in the buffers at the current position. -/
def levels? (c : Cursor ρ P) : Option Levels := do
  let definition ←
    if c.bounds.storesDefinitions then slot? c.batchSize c.definitions 0 c.levelIndex
    else some c.bounds.definition
  let repetition ←
    if c.bounds.storesRepetitions then slot? c.batchSize c.repetitions 0 c.levelIndex else some 0
  return ⟨definition, repetition⟩

/-- Takes the next value of the current batch. -/
def takeValue? [Inhabited P] (c : Cursor ρ P) (levels : Levels) :
    Option (Outcome (Cursor ρ P) P) := do
  if c.valueIndex < c.valuesRead then
    let (value, values) ← takeSlot? c.batchSize c.values c.valueIndex
    return (.ok value, { c with values, valueIndex := c.valueIndex + 1 })
  else return (.error (c.corrupt levels .missingValue), c)

variable [ColumnReader ρ P]

/-- The levels at the current position, or nothing at the end of the column. -/
def peek? (c : Cursor ρ P) : Option (Outcome (Cursor ρ P) (Option Levels)) := do
  match c.ready with
  | (.error e, c) => return (.error e, c)
  | (.ok false, c) => return (.ok none, c)
  | (.ok true, c) =>
    let levels ← c.levels?
    if c.bounds.contains levels then return (.ok (some levels), c)
    else
      return (.error (c.corrupt levels (.outOfBounds c.bounds.definition c.bounds.repetition)), c)

/-- Takes up to `most` positions of a column that stores no levels. -/
def takeRun? [Inhabited P] (c : Cursor ρ P) (most : Nat) :
    Option (Outcome (Cursor ρ P) (List P)) := do
  match c.ready with
  | (.error e, c) => return (.error e, c)
  | (.ok false, c) => return (.ok [], c)
  | (.ok true, c) =>
    let n := min most (c.levelsRead - c.levelIndex)
    if c.valuesRead < c.valueIndex + n then return (.error (c.corruptBatch .missingValue), c)
    else
      let (taken, values) ← takeSlots? c.batchSize c.values c.valueIndex n
      return (.ok taken, { c with
        values
        levelIndex := c.levelIndex + n
        valueIndex := c.valueIndex + n })

/-- The levels at the current position, which has to be there. -/
def expectLevels? (c : Cursor ρ P) : Option (Outcome (Cursor ρ P) Levels) := do
  match ← c.peek? with
  | (.error e, c) => return (.error e, c)
  | (.ok none, c) => return (.error (c.corruptBatch .cutShort), c)
  | (.ok (some levels), c) => return (.ok levels, c)

/-- The levels at the current position, which has to reach down to the node. -/
def enter? (c : Cursor ρ P) (node : Node) : Option (Outcome (Cursor ρ P) Levels) := do
  match ← c.expectLevels? with
  | (.error e, c) => return (.error e, c)
  | (.ok levels, c) =>
    if levels.definition < node.minimum then
      return (.error (c.corrupt levels (.belowMinimum node.minimum node.title)), c)
    else return (.ok levels, c)

/-- Reads the further items of a list. -/
def readItems? (read? : Cursor ρ P → Option (Outcome (Cursor ρ P) α)) (level : Level) :
    Nat → Cursor ρ P → Option (Outcome (Cursor ρ P) (List α))
  | 0, c => some (.ok [], c)
  | count + 1, c => do
    match ← c.peek? with
    | (.error e, c) => return (.error e, c)
    | (.ok none, c) => return (.ok [], c)
    | (.ok (some next), c) =>
      if next.repetition < level then return (.ok [], c)
      else if level < next.repetition then return (.error (c.corrupt next (.tooDeep level)), c)
      else
        match ← read? c with
        | (.error e, c) => return (.error e, c)
        | (.ok item, c) => return Outcome.map (item :: ·) (← readItems? read? level count c)

/-- Reads all items of a list that is not empty. -/
def readList? (read? : Cursor ρ P → Option (Outcome (Cursor ρ P) α)) (level : Level)
    (c : Cursor ρ P) : Option (Outcome (Cursor ρ P) (List α)) := do
  match ← read? c with
  | (.error e, c) => return (.error e, c)
  | (.ok item, c) => return Outcome.map (item :: ·) (← readItems? read? level (c.left + 1) c)

end Checked

section Bounds

variable {c : Cursor ρ P}

/-- Levels at a position of the current batch are in the buffers. -/
theorem Sound.levels?_eq (hc : c.Sound) (hi : c.levelIndex < c.levelsRead) :
    c.levels? = some c.levels := by
  have hin : c.levelIndex < c.batchSize := Nat.lt_of_lt_of_le hi hc.levels_le_batch
  have hslot : ∀ buffer : Array Level,
      slot? c.batchSize buffer 0 c.levelIndex = some (buffer.getD c.levelIndex 0) :=
    fun buffer => if_pos hin
  unfold levels? levels
  rw [hslot, hslot]
  -- levels that are not stored are not looked up
  cases c.bounds.storesDefinitions <;> cases c.bounds.storesRepetitions <;> rfl

/-- Values of the current batch are in the buffer. -/
theorem Sound.takeValue?_eq [Inhabited P] (hc : c.Sound) (l : Levels) :
    c.takeValue? l = some (c.takeValue l) := by
  unfold takeValue? takeValue
  by_cases hi : c.valueIndex < c.valuesRead
  · have hle := hc.values_le_levels
    have hle' := hc.levels_le_batch
    have hin : c.valueIndex < c.batchSize := by omega
    have hslot : takeSlot? c.batchSize c.values c.valueIndex =
        some (c.values.getD c.valueIndex default, c.values.setIfInBounds c.valueIndex default) :=
      if_pos hin
    rw [if_pos hi, if_pos hi, hslot]
    rfl
  · rw [if_neg hi, if_neg hi]
    rfl

variable [ColumnReader ρ P]

/-- **Looking at levels stays within the buffers.** -/
theorem Sound.peek?_eq (hc : c.Sound) : c.peek? = some c.peek := by
  have hsound := hc.ready.1
  unfold peek? peek
  rcases hr : c.ready with ⟨e | _ | _, c'⟩
  · rfl
  · rfl
  · rw [hr] at hsound
    have hi := (hc.toTidy.ready hr).2.2 rfl
    simp only [hsound.levels?_eq hi, Option.bind_eq_bind, Option.bind_some]
    by_cases hb : c'.bounds.contains c'.levels = true
    · rw [if_pos hb, if_pos hb]
      rfl
    · rw [if_neg hb, if_neg hb]
      rfl

/-- Where its counts are out of step with its buffers, a cursor looks past their end. -/
example :
    peek? { reader := (⟨[]⟩ : Script Int32), column := "numbers", bounds := ⟨1, 1⟩, batchSize := 2,
            levelsRead := 3, levelIndex := 2 } = none := rfl

/-- **So does taking a run of values.** -/
theorem Sound.takeRun?_eq [Inhabited P] (hc : c.Sound) (most : Nat) :
    c.takeRun? most = some (c.takeRun most) := by
  have hsound := hc.ready.1
  unfold takeRun? takeRun
  rcases hr : c.ready with ⟨e | _ | _, c'⟩
  · rfl
  · rfl
  · have hc' : c'.Sound := by
      rw [hr] at hsound
      exact hsound
    have hle := hc'.values_le_levels
    have hle' := hc'.levels_le_batch
    dsimp only
    by_cases hv : c'.valuesRead < c'.valueIndex + min most (c'.levelsRead - c'.levelIndex)
    · rw [if_pos hv, if_pos hv]
      rfl
    · rw [if_neg hv, if_neg hv]
      have hin : c'.valueIndex + min most (c'.levelsRead - c'.levelIndex) ≤ c'.batchSize := by
        omega
      unfold takeSlots?
      rw [if_pos hin]
      rfl

theorem Sound.expectLevels?_eq (hc : c.Sound) : c.expectLevels? = some c.expectLevels := by
  unfold expectLevels? expectLevels
  rw [hc.peek?_eq]
  rcases c.peek with ⟨e | _ | l, c'⟩ <;> rfl

theorem Sound.enter?_eq (hc : c.Sound) (node : Node) : c.enter? node = some (c.enter node) := by
  unfold enter? enter
  rw [hc.expectLevels?_eq]
  rcases c.expectLevels with ⟨e | l, c'⟩
  · rfl
  · show (if _ then some _ else some _) = some (if _ then _ else _)
    split <;> rfl

/-- Entering a node is no more than looking. -/
theorem enter_snd (c : Cursor ρ P) (node : Node) : (c.enter node).2 = c.peek.2 := by
  unfold enter expectLevels
  rcases c.peek with ⟨e | _ | l, c'⟩
  · rfl
  · rfl
  · simp only
    split <;> rfl

end Bounds

section Lists

variable {t : LeafType} [ColumnReader ρ t.Physical] {c : Cursor ρ t.Physical}
  {read : Cursor ρ t.Physical → Outcome (Cursor ρ t.Physical) (Nested t.Value)}
  {read? : Cursor ρ t.Physical → Option (Outcome (Cursor ρ t.Physical) (Nested t.Value))}
  (hread : ∀ c : Cursor ρ t.Physical, c.Sound → c.Safe Took (read c))
  (heq : ∀ c : Cursor ρ t.Physical, c.Sound → read? c = some (read c))

include hread heq

/-- Reading the further items of a list stays within the buffers, if reading each item does. -/
theorem Sound.readItems?_eq (hc : c.Sound) (level : Level) (count : Nat) :
    readItems? read? level count c = some (readItems read level count c) := by
  induction count generalizing c with
  | zero => rfl
  | succ count ih =>
    have hsound := hc.peek_safe.sound hc
    rw [readItems?, readItems, hc.peek?_eq]
    rcases hp : c.peek with ⟨e | _ | next, c'⟩
    · rfl
    · rfl
    · rw [hp] at hsound
      simp only [Option.bind_eq_bind, Option.bind_some]
      split
      · rfl
      · split
        · rfl
        · -- the item leaves a sound cursor behind, from which the others are read
          have hitem := (hread c' hsound).sound hsound
          rw [heq c' hsound]
          rcases hi : read c' with ⟨e | item, c''⟩
          · rfl
          · rw [hi] at hitem
            simp only [Option.bind_some, ih hitem]
            rfl

/-- So does reading all items of a list that is not empty. -/
theorem Sound.readList?_eq (hc : c.Sound) (level : Level) :
    c.readList? read? level = some (c.readList read level) := by
  have hsound := (hread c hc).sound hc
  unfold readList? readList
  rw [heq c hc]
  rcases hi : read c with ⟨e | item, c'⟩
  · rfl
  · rw [hi] at hsound
    simp only [Option.bind_eq_bind, Option.bind_some,
      hsound.readItems?_eq hread heq level (c'.left + 1)]
    rfl

end Lists

end Cursor

namespace Node

open Cursor

variable {ρ : Type} {t : LeafType}

/-- The value of a present leaf. -/
def readLeaf? (t : LeafType) (c : Cursor ρ t.Physical) (levels : Levels) :
    Option (Outcome (Cursor ρ t.Physical) (Nested t.Value)) := do
  match ← c.takeValue? levels with
  | (.error e, c) => return (.error e, c)
  | (.ok physical, c) =>
    match t.ofPhysical physical with
    | .error e => return (.error e, c)
    | .ok value => return (.ok (.scalar value), c.advance)

/-- The value of a node that starts at the current position. -/
def assemble? (t : LeafType) [ColumnReader ρ t.Physical] :
    Node → Cursor ρ t.Physical → Option (Outcome (Cursor ρ t.Physical) (Nested t.Value))
  | leaf nullLevel valueLevel, c => do
    match ← c.enter? (leaf nullLevel valueLevel) with
    | (.error e, c) => return (.error e, c)
    | (.ok levels, c) =>
      if valueLevel ≤ levels.definition then readLeaf? t c levels else return (.ok .null, c.advance)
  | requiredStruct member, c => do
    match ← c.enter? (requiredStruct member) with
    | (.error e, c) => return (.error e, c)
    | (.ok _, c) => return Outcome.map .struct (← member.assemble? t c)
  | optionalStruct nullLevel member, c => do
    match ← c.enter? (optionalStruct nullLevel member) with
    | (.error e, c) => return (.error e, c)
    | (.ok levels, c) =>
      if levels.definition = nullLevel then return (.ok .null, c.advance)
      else return Outcome.map .struct (← member.assemble? t c)
  | list nullLevel emptyLevel repetitionLevel element, c => do
    match ← c.enter? (list nullLevel emptyLevel repetitionLevel element) with
    | (.error e, c) => return (.error e, c)
    | (.ok levels, c) =>
      if some levels.definition = nullLevel then return (.ok .null, c.advance)
      else if levels.definition = emptyLevel then return (.ok (.list []), c.advance)
      else return Outcome.map .list (← c.readList? (element.assemble? t) repetitionLevel)

theorem readLeaf?_eq {c : Cursor ρ t.Physical} (hc : c.Sound) (l : Levels) :
    readLeaf? t c l = some (readLeaf t c l) := by
  unfold readLeaf? readLeaf
  rw [hc.takeValue?_eq l]
  rcases c.takeValue l with ⟨e | p, c'⟩
  · rfl
  · simp only [Option.bind_eq_bind, Option.bind_some]
    cases t.ofPhysical p <;> rfl

variable [ColumnReader ρ t.Physical] {c : Cursor ρ t.Physical}

/-- What follows the entrance to a node stays within the buffers if it does for sound cursors. -/
theorem enter?_then {β : Type}
    {f : Levels → Cursor ρ t.Physical → Outcome (Cursor ρ t.Physical) β}
    {f? : Levels → Cursor ρ t.Physical → Option (Outcome (Cursor ρ t.Physical) β)} {node : Node}
    (hc : c.Sound) :
    (∀ l, ∀ c' : Cursor ρ t.Physical, c'.Sound → f? l c' = some (f l c')) →
    (c.enter? node >>= fun o => match o with
      | (.error e, c) => some (.error e, c)
      | (.ok l, c) => f? l c) =
    some (match c.enter node with
      | (.error e, c) => (.error e, c)
      | (.ok l, c) => f l c) := by
  intro hf
  have hsound : (c.enter node).2.Sound := by
    rw [enter_snd]
    exact hc.peek_safe.sound hc
  rw [hc.enter?_eq node]
  rcases he : c.enter node with ⟨e | l, c'⟩
  · rfl
  · rw [he] at hsound
    exact hf l c' hsound

/-- **Assembly stays within the buffers at every node.** -/
theorem assemble?_eq (node : Node) (hc : c.Sound) :
    node.assemble? t c = some (node.assemble t c) := by
  induction node generalizing c with
  | leaf null level =>
    rw [assemble?, assemble]
    refine enter?_then hc ?_
    intro l c' hc'
    split
    · exact readLeaf?_eq hc' l
    · rfl
  | requiredStruct member ih =>
    rw [assemble?, assemble]
    refine enter?_then hc ?_
    intro _ c' hc'
    rw [ih hc']
    rfl
  | optionalStruct null member ih =>
    rw [assemble?, assemble]
    refine enter?_then hc ?_
    intro l c' hc'
    split
    · rfl
    · rw [ih hc']
      rfl
  | list null empty level element ih =>
    rw [assemble?, assemble]
    refine enter?_then hc ?_
    intro l c' hc'
    split
    · rfl
    · split
      · rfl
      · rw [hc'.readList?_eq (fun c hc => assemble_safe element hc) (fun c hc => ih hc) level]
        rfl

end Node

namespace Assembler

open Cursor

variable {t : LeafType} {ρ : Type} [ColumnReader ρ t.Physical]

section Checked

/-- Whether there is another row. -/
def hasNext? (a : Assembler t ρ) : Option (Outcome (Assembler t ρ) Bool) := do
  return (Outcome.map Option.isSome (← a.cursor.peek?)).within a.withCursor

/-- The next row, or nothing at the end of the column. -/
def readRow? (a : Assembler t ρ) :
    Option (Outcome (Assembler t ρ) (Option (Nested t.Value))) := do
  match ← a.cursor.peek? with
  | (.error e, c) => return (.error e, a.withCursor c)
  | (.ok none, c) => return (.ok none, a.withCursor c)
  | (.ok (some levels), c) =>
    if levels.repetition ≠ 0 then return (.error (c.corrupt levels .rowStart), a.withCursor c)
    else
      match ← a.shape.root.assemble? t c with
      | (.error e, c) => return (.error e, a.withCursor c)
      | (.ok row, c) => return (.ok (some row), { a with cursor := c, rowsRead := a.rowsRead + 1 })

/-- Up to so many rows, one by one. -/
def readRows? :
    Nat → Assembler t ρ → Option (Outcome (Assembler t ρ) (List (Nested t.Value)))
  | 0, a => some (.ok [], a)
  | most + 1, a => do
    match ← a.readRow? with
    | (.error e, a) => return (.error e, a)
    | (.ok none, a) => return (.ok [], a)
    | (.ok (some row), a) => return Outcome.map (row :: ·) (← readRows? most a)

/-- Up to `most` stored values of a column without levels, in at most `runs` runs. -/
def readRun? : Nat → Nat → Cursor ρ t.Physical →
    Option (Outcome (Cursor ρ t.Physical) (List t.Physical))
  | 0, _, c => some (.ok [], c)
  | runs + 1, most, c => do
    if most = 0 then return (.ok [], c)
    else
      match ← c.takeRun? most with
      | (.error e, c) => return (.error e, c)
      | (.ok [], c) => return (.ok [], c)
      | (.ok (value :: values), c) =>
        return Outcome.map ((value :: values) ++ ·)
          (← readRun? runs (most - (values.length + 1)) c)

/-- Up to so many rows in bulk. -/
def readDirect? (a : Assembler t ρ) (most : Nat) :
    Option (Outcome (Assembler t ρ) (List (Nested t.Value))) := do
  match ← readRun? most most a.cursor with
  | (.error e, c) => return (.error e, a.withCursor c)
  | (.ok physical, c) =>
    match physical.mapM t.ofPhysical with
    | .error e => return (.error e, a.withCursor c)
    | .ok values =>
      return (.ok (values.map .scalar),
        { a with cursor := c, rowsRead := a.rowsRead + values.length })

/-- Up to so many rows. -/
def readBatch? (a : Assembler t ρ) (most : Nat) :
    Option (Outcome (Assembler t ρ) (List (Nested t.Value))) :=
  if a.isDirect then a.readDirect? most else a.readRows? most

/-- Exactly so many rows. -/
def readAll? (a : Assembler t ρ) (count : Nat) :
    Option (Outcome (Assembler t ρ) (List (Nested t.Value))) := do
  match ← a.readBatch? count with
  | (.error e, a) => return (.error e, a)
  | (.ok rows, a) =>
    if rows.length < count then
      return (.error (.invalidArgument (.rows a.shape.column.name rows.length count)), a)
    else return (.ok rows, a)

/-- All rows that are left, one by one. -/
def collect? (a : Assembler t ρ) : Option (Outcome (Assembler t ρ) (List (Nested t.Value))) :=
  a.readRows? (a.cursor.left + 1)

end Checked

section Bounds

variable {a : Assembler t ρ}

theorem hasNext?_eq (hc : a.cursor.Sound) : a.hasNext? = some a.hasNext := by
  unfold hasNext? hasNext
  rw [hc.peek?_eq]
  rfl

theorem readRow?_eq (hc : a.cursor.Sound) : a.readRow? = some a.readRow := by
  have hsound := hc.peek_safe.sound hc
  unfold readRow? readRow
  rw [hc.peek?_eq]
  rcases hp : a.cursor.peek with ⟨e | _ | l, c⟩
  · rfl
  · rfl
  · rw [hp] at hsound
    simp only [Option.bind_eq_bind, Option.bind_some]
    split
    · rfl
    · rw [a.shape.root.assemble?_eq hsound]
      rcases a.shape.root.assemble t c with ⟨e | row, c'⟩ <;> rfl

theorem readRows?_eq (hc : a.cursor.Sound) (n : Nat) : a.readRows? n = some (a.readRows n) := by
  induction n generalizing a with
  | zero => rfl
  | succ n ih =>
    have hsound := (readRow_safe hc).sound hc
    rw [readRows?, readRows, readRow?_eq hc]
    rcases hr : a.readRow with ⟨e | _ | row, a'⟩
    · rfl
    · rfl
    · rw [hr] at hsound
      simp only [Option.bind_eq_bind, Option.bind_some, ih hsound]
      rfl

theorem readRun?_eq {c : Cursor ρ t.Physical} (hc : c.Sound) (runs most : Nat) :
    readRun? runs most c = some (readRun runs most c) := by
  induction runs generalizing c most with
  | zero => rfl
  | succ runs ih =>
    rw [readRun?, readRun]
    split
    · rfl
    · have hsound := (hc.takeRun_safe most).sound hc
      rw [hc.takeRun?_eq most]
      rcases htake : c.takeRun most with ⟨e | _ | ⟨x, values⟩, c'⟩
      · rfl
      · rfl
      · rw [htake] at hsound
        simp only [Option.bind_eq_bind, Option.bind_some, ih hsound]
        rfl

theorem readDirect?_eq (hc : a.cursor.Sound) (most : Nat) :
    a.readDirect? most = some (a.readDirect most) := by
  unfold readDirect? readDirect
  rw [readRun?_eq hc]
  rcases readRun most most a.cursor with ⟨e | physical, c⟩
  · rfl
  · simp only [Option.bind_eq_bind, Option.bind_some]
    cases physical.mapM t.ofPhysical <;> rfl

/-- **Reading stays within the buffers**, row by row and in bulk. -/
theorem readBatch?_eq (hc : a.cursor.Sound) (most : Nat) :
    a.readBatch? most = some (a.readBatch most) := by
  unfold readBatch? readBatch
  split
  · exact readDirect?_eq hc most
  · exact readRows?_eq hc most

theorem readAll?_eq (hc : a.cursor.Sound) (count : Nat) :
    a.readAll? count = some (a.readAll count) := by
  unfold readAll? readAll
  rw [readBatch?_eq hc]
  rcases a.readBatch count with ⟨e | rows, a'⟩
  · rfl
  · simp only [Option.bind_eq_bind, Option.bind_some]
    split <;> rfl

end Bounds

end Assembler

end Striping
