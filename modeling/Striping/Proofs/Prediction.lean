import Striping.Physical.Faulty
import Striping.Proofs.Emission

/-!
# What the check foretells

**Scope.** Every node, value and buffer, in front of a physical writer of any kind. Rows are checked
before any of them is written. The check and the writing look at nodes and values each on its own,
and the writing buffers positions while it still looks.

* `Node.shredInto`: writing a value, position by position as they are found.
* `Node.foretells`: **writing a value buffers some positions and then answers as the check does**,
  and so does finding them first. So both are the same for rows that pass the check
  (`Shredder.writeRow_eq_shredInto`).
* `WriteBuffer.Hands`: a step that answers as its writer does to the batches it is handed.
  `Shredder.hands_emit`: writing rows that pass the check is such a step.
* `Shredder.validate_predicts`: **the check says how writing will end**, but for the writer.
-/

namespace Striping

variable {σ ω P α β : Type}

namespace Outcome

/-- A step, and another one if it succeeds. -/
def andThen (o : Outcome σ Unit) (next : σ → Outcome σ α) : Outcome σ α :=
  match o with
  | (.ok (), s) => next s
  | (.error e, s) => (.error e, s)

/-- To do nothing afterwards is to do nothing more. -/
theorem andThen_ok (o : Outcome σ Unit) : (o.andThen fun s => (.ok (), s)) = o := by
  rcases o with ⟨e | ⟨⟩, s⟩
  · rfl
  · rfl

theorem andThen_assoc (o : Outcome σ Unit) (next : σ → Outcome σ Unit) (last : σ → Outcome σ β) :
    (o.andThen next).andThen last = o.andThen fun s => (next s).andThen last := by
  rcases o with ⟨e | ⟨⟩, s⟩
  · rfl
  · rfl

theorem forEach_cons (step : σ → α → Outcome σ Unit) (s : σ) (a : α) (as : List α) :
    forEach step s (a :: as) = (step s a).andThen fun s => forEach step s as := rfl

theorem forEach_singleton (step : σ → α → Outcome σ Unit) (s : σ) (a : α) :
    forEach step s [a] = step s a := by
  rw [forEach_cons]
  exact andThen_ok _

end Outcome

namespace Node

section Definitions

/-- Writes the items of a list, the first of which is reached at one repetition level and all
others at another one. -/
def shredItemsInto (step : Nested α → Level → σ → Outcome σ Unit) (first later : Level) :
    List (Nested α) → σ → Outcome σ Unit
  | [], s => (.ok (), s)
  | item :: rest, s => (step item first s).andThen (shredItemsInto step later later rest)

variable (t : LeafType) (column : String) [ColumnWriter ω t.Physical]

/-- Writes a value that is reached at a repetition level. The positions that were found before a
failure stay buffered. -/
def shredInto : Node → Nested t.Value → Level → WriteBuffer ω t.Physical →
    Outcome (WriteBuffer ω t.Physical) Unit
  | leaf _ valueLevel, .scalar value, repetition, b =>
    b.push ⟨⟨valueLevel, repetition⟩, some (t.toPhysical value)⟩
  | leaf (some nullLevel) _, .null, repetition, b => b.push ⟨⟨nullLevel, repetition⟩, none⟩
  | leaf none _, .null, _, b => (.error (.nullWrite column "scalar"), b)
  | requiredStruct member, .struct value, repetition, b => member.shredInto value repetition b
  | requiredStruct _, .null, _, b => (.error (.nullWrite column "struct"), b)
  | optionalStruct _ member, .struct value, repetition, b => member.shredInto value repetition b
  | optionalStruct nullLevel _, .null, repetition, b => b.push ⟨⟨nullLevel, repetition⟩, none⟩
  | list (some nullLevel) _ _ _, .null, repetition, b => b.push ⟨⟨nullLevel, repetition⟩, none⟩
  | list none _ _ _, .null, _, b => (.error (.nullWrite column "array"), b)
  | list _ emptyLevel _ _, .list [], repetition, b => b.push ⟨⟨emptyLevel, repetition⟩, none⟩
  | list _ _ repetitionLevel element, .list (item :: rest), repetition, b =>
    shredItemsInto element.shredInto repetition repetitionLevel (item :: rest) b
  | node, value, _, b => (.error (mismatch column node value), b)

end Definitions

section Agreement

variable [Inhabited P] [ColumnWriter ω P]

/-- An answer that is foretold both to finding positions and to writing them: there are the
positions, if it is no failure, and those found before are buffered in any case. -/
def Foretells (answer : Except Error Unit) (found : Except Error (List (Position P)))
    (step : WriteBuffer ω P → Outcome (WriteBuffer ω P) Unit) : Prop :=
  ∃ ps, found = answer.map (fun _ => ps) ∧
    ∀ b, step b = (Outcome.forEach WriteBuffer.push b ps).andThen fun b => (answer, b)

/-- One position is found, and buffered. -/
theorem Foretells.push (p : Position P) :
    Foretells (.ok ()) (.ok [p]) fun b : WriteBuffer ω P => b.push p := by
  refine ⟨[p], rfl, fun b => ?_⟩
  rw [Outcome.andThen_ok, Outcome.forEach_singleton]

/-- A failure is foretold where nothing is buffered. -/
theorem Foretells.fail (e : Error) :
    Foretells (.error e) (.error e) fun b : WriteBuffer ω P => (.error e, b) :=
  ⟨[], rfl, fun _ => rfl⟩

/-- What is foretold to each item is foretold to all of them, up to the first failure. -/
theorem Foretells.items {check : Nested α → Except Error Unit}
    {shred : Nested α → Level → Except Error (List (Position P))}
    {step : Nested α → Level → WriteBuffer ω P → Outcome (WriteBuffer ω P) Unit}
    (h : ∀ item k, Foretells (check item) (shred item k) (step item k))
    (items : List (Nested α)) (first later : Level) :
    Foretells (items.forM check) (shredItems shred first later items)
      (shredItemsInto step first later items) := by
  induction items generalizing first with
  | nil => exact ⟨[], rfl, fun _ => rfl⟩
  | cons item rest ih =>
    obtain ⟨ps, hshred, hstep⟩ := h item first
    obtain ⟨qs, hothers, hrest⟩ := ih later
    cases hcheck : check item with
    | error e =>
      rw [hcheck] at hshred hstep
      have hall : (item :: rest).forM check = .error e := by
        show (check item >>= fun _ => rest.forM check) = _
        rw [hcheck]
        rfl
      rw [hall]
      refine ⟨ps, ?_, fun b => ?_⟩
      · rw [shredItems, hshred]
        rfl
      · rw [shredItemsInto, hstep, Outcome.andThen_assoc]
        rfl
    | ok =>
      rw [hcheck] at hshred hstep
      have hall : (item :: rest).forM check = rest.forM check := by
        show (check item >>= fun _ => rest.forM check) = _
        rw [hcheck]
        rfl
      rw [hall]
      refine ⟨ps ++ qs, ?_, fun b => ?_⟩
      · rw [shredItems, hshred, hothers]
        cases rest.forM check with
        | error e => rfl
        | ok => rfl
      · have happend : Outcome.forEach WriteBuffer.push b (ps ++ qs) =
            (Outcome.forEach WriteBuffer.push b ps).andThen fun b =>
              Outcome.forEach WriteBuffer.push b qs := Outcome.forEach_append _ _ _ _
        rw [shredItemsInto, hstep, Outcome.andThen_ok, happend, Outcome.andThen_assoc]
        exact congrArg _ (funext hrest)

end Agreement

variable {t : LeafType} [ColumnWriter ω t.Physical]

/-- **The check foretells what writing a value comes to**, at every node. -/
theorem foretells (column : String) (node : Node) (v : Nested t.Value) (k : Level) :
    Foretells (ω := ω) (node.validate column v) (node.shred t column v k)
      (node.shredInto t column v k) := by
  induction node generalizing v k with
  | leaf null level =>
    cases v with
    | scalar x => cases null <;> exact .push _
    | null =>
      cases null with
      | none => exact .fail _
      | some n => exact .push _
    | list items => cases null <;> exact .fail _
    | struct u => cases null <;> exact .fail _
  | requiredStruct member ih =>
    cases v with
    | struct u => exact ih u k
    | _ => exact .fail _
  | optionalStruct n member ih =>
    cases v with
    | struct u => exact ih u k
    | null => exact .push _
    | _ => exact .fail _
  | list null empty level element ih =>
    rcases v with _ | _ | ⟨_ | ⟨item, rest⟩⟩ | _
    · cases null with
      | none => exact .fail _
      | some n => exact .push _
    · cases null <;> exact .fail _
    · cases null <;> exact .push _
    · have hitems := Foretells.items (fun item k => ih item k) (item :: rest) k level
      cases null <;> exact hitems
    · cases null <;> exact .fail _

end Node

/-- A writer that never fails, whatever batches it is handed. They need not fit any column. -/
def ColumnWriter.Reliable [ColumnWriter ω P] (w : ω) : Prop :=
  ∀ batches : List (Batch P), (Outcome.forEach ColumnWriter.writeBatch w batches).1 = .ok ()

namespace WriteBuffer

variable [ColumnWriter ω P] {b : WriteBuffer ω P} {o : Outcome (WriteBuffer ω P) Unit}

/-- A step that fails only if the writer does: it answers as the writer does to the batches that it
is handed. -/
structure Hands (b : WriteBuffer ω P) (o : Outcome (WriteBuffer ω P) Unit) : Prop where
  answer : ∃ batches, Outcome.forEach ColumnWriter.writeBatch b.writer batches = (o.1, o.2.writer)
  capacity : o.2.capacity = b.capacity

theorem Hands.done {b' : WriteBuffer ω P} (hw : b'.writer = b.writer)
    (hcap : b'.capacity = b.capacity) : b.Hands (.ok (), b') := by
  refine ⟨⟨[], ?_⟩, hcap⟩
  rw [Outcome.forEach, ← hw]

/-- A step after another one hands on the batches of both. -/
theorem Hands.andThen {next : WriteBuffer ω P → Outcome (WriteBuffer ω P) Unit} (h : b.Hands o)
    (hnext : ∀ b' : WriteBuffer ω P, b'.capacity = b.capacity → b'.Hands (next b')) :
    b.Hands (o.andThen next) := by
  obtain ⟨⟨batches, hbatches⟩, hcap⟩ := h
  rcases o with ⟨e | ⟨⟩, b'⟩
  · exact ⟨⟨batches, hbatches⟩, hcap⟩
  · obtain ⟨⟨more, hmore⟩, hcap'⟩ := hnext b' hcap
    refine ⟨⟨batches ++ more, ?_⟩, hcap'.trans hcap⟩
    rw [Outcome.forEach_append, hbatches]
    exact hmore

/-- Steps for several elements fail only if the writer does, if each of them does. -/
theorem hands_forEach {step : WriteBuffer ω P → α → Outcome (WriteBuffer ω P) Unit} {as : List α}
    (h : ∀ a ∈ as, ∀ b' : WriteBuffer ω P, b'.capacity = b.capacity → b'.Hands (step b' a)) :
    b.Hands (Outcome.forEach step b as) := by
  induction as generalizing b with
  | nil => exact .done rfl rfl
  | cons a as ih =>
    rw [List.forall_mem_cons] at h
    rw [Outcome.forEach_cons]
    refine (h.1 b rfl).andThen fun b' hcap => ih fun a' ha' b'' hcap' => ?_
    exact h.2 a' ha' b'' (hcap'.trans hcap)

variable [Inhabited P]

theorem hands_flush (b : WriteBuffer ω P) : b.Hands b.flush := by
  unfold flush
  split
  · exact .done rfl rfl
  · have hsingle := Outcome.forEach_singleton ColumnWriter.writeBatch b.writer b.batch
    rcases hw : ColumnWriter.writeBatch b.writer b.batch with ⟨e | ⟨⟩, w⟩
    · exact ⟨⟨[b.batch], hsingle.trans hw⟩, rfl⟩
    · exact ⟨⟨[b.batch], hsingle.trans hw⟩, rfl⟩

/-- What is written through after a step is a step after it. -/
theorem thenFlush_eq_andThen (o : Outcome (WriteBuffer ω P) Unit) :
    thenFlush o = o.andThen flush := by
  rcases o with ⟨e | ⟨⟩, b⟩
  · rfl
  · rfl

/-- Positions that fit the buffer are never refused by it. -/
theorem hands_append {ps : List (Position P)} (hle : ps.length ≤ b.capacity) :
    b.Hands (b.append ps) := by
  have hthen : b.append ps = (b.reserve ps.length).andThen fun b => (.ok (), b.put ps) := by
    unfold append
    rcases b.reserve ps.length with ⟨e | ⟨⟩, b'⟩
    · rfl
    · rfl
  have hreserve : b.Hands (b.reserve ps.length) := by
    unfold reserve
    rw [if_neg (Nat.not_lt.2 hle)]
    split
    · exact b.hands_flush
    · exact .done rfl rfl
  rw [hthen]
  exact hreserve.andThen fun b' _ => .done rfl rfl

/-- Positions that are buffered one by one are never refused by the buffer. -/
theorem hands_forEach_push (b : WriteBuffer ω P) (ps : List (Position P)) :
    b.Hands (Outcome.forEach push b ps) :=
  hands_forEach fun _ _ b' _ => hands_append b'.capacity_pos

end WriteBuffer

namespace Shredder

variable {t : LeafType} {column : String} {node : Node} {rows : List (Nested t.Value)}
  [ColumnWriter ω t.Physical] {b : WriteBuffer ω t.Physical} {s : Shredder t ω}

/-- Rows that pass the check are written as they are walked. -/
theorem writeRow_eq_shredInto {row : Nested t.Value} (h : node.validate column row = .ok ()) :
    writeRow column node b row = node.shredInto t column row 0 b := by
  obtain ⟨ps, hshred, hstep⟩ := node.foretells (ω := ω) column row 0
  rw [h] at hshred hstep
  unfold writeRow
  rw [hshred, hstep, Outcome.andThen_ok]
  rfl

/-- Rows that pass the check are refused by nothing but the writer. -/
theorem hands_writeRows (h : ∀ row ∈ rows, node.validate column row = .ok ()) :
    b.Hands (writeRows column node b rows) := by
  have hrows : b.Hands (Outcome.forEach (writeRow column node) b rows) := by
    refine WriteBuffer.hands_forEach fun row hrow b' _ => ?_
    obtain ⟨ps, hps⟩ := Node.validate_eq_ok_iff (k := 0).1 (h row hrow)
    unfold writeRow
    rw [hps]
    exact b'.hands_forEach_push ps
  cases node with
  | leaf null level =>
    refine WriteBuffer.hands_forEach fun run hrun b' hcap => WriteBuffer.hands_append ?_
    rw [List.length_map, hcap]
    exact length_le_of_mem_chunks b.capacity_pos hrun
  | _ => exact hrows

/-- **After the check only the writer can fail.** -/
theorem hands_emit (h : s.validate rows = .ok ()) : s.buffer.Hands (s.emit rows) := by
  have hwrite := hands_writeRows (b := s.buffer) (forM_eq_ok_iff.1 h)
  rw [emit_eq_thenFlush, WriteBuffer.thenFlush_eq_andThen]
  exact hwrite.andThen fun b' _ => b'.hands_flush

/-- **The check says how writing will end**, but for the writer. At every node every value that is
written to a writer that never fails is answered as the check answers: it is written just if the
check accepts it, and else refused with the same error. Rows that a shredder has checked are written
as they are walked, and writing them fails only with what the writer answers to the batches that it
is handed. -/
theorem validate_predicts :
    (∀ (column : String) (node : Node) (v : Nested t.Value) (k : Level)
        (b : WriteBuffer ω t.Physical), ColumnWriter.Reliable b.writer →
      (node.shredInto t column v k b).1 = node.validate column v ∧
        (writeRow column node b v).1 = node.validate column v) ∧
      ∀ (s : Shredder t ω) (rows : List (Nested t.Value)), s.validate rows = .ok () →
        (∀ b : WriteBuffer ω t.Physical, ∀ row ∈ rows, writeRow s.column s.shape.root b row =
          s.shape.root.shredInto t s.column row 0 b) ∧
        ∀ e b, s.emit rows = (.error e, b) → ∃ batches,
          Outcome.forEach ColumnWriter.writeBatch s.writer batches = (.error e, b.writer) := by
  constructor
  · intro column node v k b hreliable
    have hanswer : ∀ ps, (Outcome.forEach WriteBuffer.push b ps).1 = .ok () := by
      intro ps
      obtain ⟨batches, hbatches⟩ := (b.hands_forEach_push ps).answer
      have hok := hreliable batches
      rw [hbatches] at hok
      exact hok
    constructor
    · obtain ⟨ps, -, hstep⟩ := node.foretells (ω := ω) column v k
      have hps := hanswer ps
      rw [hstep b]
      revert hps
      rcases Outcome.forEach WriteBuffer.push b ps with ⟨e | ⟨⟩, b'⟩
      · intro h
        cases h
      · exact fun _ => rfl
    · obtain ⟨ps, hshred, -⟩ := node.foretells (ω := ω) column v 0
      unfold writeRow
      rw [hshred]
      cases node.validate column v with
      | error e => rfl
      | ok => exact hanswer ps
  · intro s rows hrows
    refine ⟨fun b row hrow => writeRow_eq_shredInto (forM_eq_ok_iff.1 hrows row hrow), ?_⟩
    intro e b hemit
    obtain ⟨batches, hbatches⟩ := (hands_emit hrows).answer
    rw [hemit] at hbatches
    exact ⟨batches, hbatches⟩

end Shredder

/-- A writer that takes every batch and keeps none. -/
structure Sink (P : Type) where

instance : ColumnWriter (Sink P) P where
  writeBatch sink _ := (.ok (), sink)

theorem Sink.reliable (sink : Sink P) : ColumnWriter.Reliable sink := by
  intro batches
  induction batches with
  | nil => rfl
  | cons b batches ih => exact ih

/-- A row that needs two batches of two positions. -/
def Shredder.threeNumbers : List (Nested Int32) := [.list [.scalar 7, .scalar 8, .scalar 9]]

/-- A null and a struct where numbers are required are refused for the null, behind the number that
was buffered before. A row that passes the check fails with what its writer fails with. -/
theorem Shredder.validate_predicts_numbers :
    (∃ b : WriteBuffer (Sink Int32) Int32,
      WriteBuffer.make ⟨⟩ ColumnShape.numbers.column.bounds 1 = .ok b ∧
      ColumnWriter.Reliable b.writer ∧
      (ColumnShape.numbers.root.shredInto .int32 "numbers"
        (.list [.scalar (7 : Int32), .null, .struct .null]) 0 b).1 =
          .error (.nullWrite "numbers" "scalar") ∧
      (ColumnShape.numbers.root.shredInto .int32 "numbers"
        (.list [.scalar (7 : Int32), .null, .struct .null]) 0 b).2.buffered = 1) ∧
    ∃ s : Shredder .int32 (Faulty (Sink Int32)),
      ofShape .numbers ⟨⟨⟩, [2], .physical "numbers" "disk", 0⟩ ⟨2⟩ = .ok s ∧
      s.validate threeNumbers = .ok () ∧
      ∃ batches, Outcome.forEach ColumnWriter.writeBatch s.writer batches =
        (.error (.physical "numbers" "disk"), (s.emit threeNumbers).2.writer) := by
  constructor
  · refine ⟨_, rfl, Sink.reliable _, ?_, rfl⟩
    exact (validate_predicts.1 "numbers" ColumnShape.numbers.root _ 0 _ (Sink.reliable _)).1
  · obtain ⟨s, hs, hrows, hemit⟩ : ∃ s : Shredder .int32 (Faulty (Sink Int32)),
        ofShape .numbers ⟨⟨⟩, [2], .physical "numbers" "disk", 0⟩ ⟨2⟩ = .ok s ∧
        s.validate threeNumbers = .ok () ∧
        (s.emit threeNumbers).1 = .error (.physical "numbers" "disk") := ⟨_, rfl, rfl, rfl⟩
    exact ⟨s, hs, hrows, (validate_predicts.2 s _ hrows).2 _ _ (Prod.ext hemit rfl)⟩

end Striping
