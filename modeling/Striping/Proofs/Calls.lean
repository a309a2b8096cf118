import Mathlib
import Striping.Physical.Script
import Striping.Proofs.BufferBounds

/-!
# No reader can break reading

**Scope.** One assembler over any `ColumnReader`, and any calls to it, also after failed ones. The
reader may report any counts, levels and values and may fail and go on, but runs dry at some time.

* `Assembler.Call`, `Assembler.run`: any calls in a row, and their answers. `Assembler.run?`: the
  same with every access to a buffer checked.
* `Assembler.run?_eq`: **no access of any call lies outside of the buffers**.
* `Assembler.call_kept`: **what every call keeps to**. `Assembler.run_kept`: so does every run.
* `Assembler.run_safe`: **no reader can break reading**: accesses stay within the buffers, the
  counts stay within each other, failures are of the expected kinds, and what is returned was left
  to be taken by the reader, once and in order.
-/

namespace Striping.Assembler

open Cursor

variable {ρ : Type} {t : LeafType} [ColumnReader ρ t.Physical]

/-- A call to an assembler. -/
inductive Call where
  /-- Is there another row? -/
  | hasNext
  /-- The next row. -/
  | readRow
  /-- Up to so many rows. -/
  | readBatch (most : Nat)
  /-- Exactly so many rows. -/
  | readAll (count : Nat)
  /-- All rows that are left. -/
  | collect

/-- Makes a call, with the rows that it returns. -/
def call (a : Assembler t ρ) : Call → Outcome (Assembler t ρ) (List (Nested t.Value))
  | .hasNext => Outcome.map (fun _ => []) a.hasNext
  | .readRow => Outcome.map Option.toList a.readRow
  | .readBatch most => a.readBatch most
  | .readAll count => a.readAll count
  | .collect => a.collect

/-- Makes some calls one after the other, whether or not the ones before have failed. -/
def run : Assembler t ρ → List Call →
    List (Except Error (List (Nested t.Value))) × Assembler t ρ
  | a, [] => ([], a)
  | a, call :: calls =>
    ((a.call call).1 :: ((a.call call).2.run calls).1, ((a.call call).2.run calls).2)

/-- Makes a call in which every access to a buffer is checked. -/
def call? (a : Assembler t ρ) : Call → Option (Outcome (Assembler t ρ) (List (Nested t.Value)))
  | .hasNext => do return Outcome.map (fun _ => []) (← a.hasNext?)
  | .readRow => do return Outcome.map Option.toList (← a.readRow?)
  | .readBatch most => a.readBatch? most
  | .readAll count => a.readAll? count
  | .collect => a.collect?

/-- Makes some calls one after the other, in all of which every access to a buffer is checked. -/
def run? : Assembler t ρ → List Call →
    Option (List (Except Error (List (Nested t.Value))) × Assembler t ρ)
  | a, [] => some ([], a)
  | a, call :: calls => do
    let (answer, a) ← a.call? call
    let (answers, a) ← a.run? calls
    return (answer :: answers, a)

/-- The rows that some calls have returned. -/
def returned (answers : List (Except Error (List (Nested t.Value)))) : List (Nested t.Value) :=
  answers.flatMap fun answer => answer.toOption.getD []

section Keeping

variable {a : Assembler t ρ}

/-- A call that came to `answer` and left the cursor as `c'`: it has only moved the cursor, took the
values that it returns, and did not fail in an unexpected way. -/
def Call.Kept (call : Call) (c c' : Cursor ρ t.Physical)
    (answer : Except Error (List (Nested t.Value))) : Prop :=
  ∃ as, c.Moves as c' ∧
    (∀ rows, answer = .ok rows → TookAll rows (as.filterMap Access.value?)) ∧
    ∀ e, answer = .error e → Error.OfReading c'.reader e ∨
      ∃ column held count, call = .readAll count ∧ e = .invalidArgument (.rows column held count)

/-- Safe steps keep to what is expected of a call. -/
theorem Call.kept_of_safe {c : Cursor ρ t.Physical}
    {o : Outcome (Cursor ρ t.Physical) (List (Nested t.Value))} (h : c.Safe TookAll o)
    (call : Call) : call.Kept c o.2 o.1 := by
  cases h with
  | @ok as rows c' h hr =>
    refine ⟨as, h, ?_, fun e he => by cases he⟩
    intro rows' hrows
    obtain rfl := Except.ok.inj hrows
    exact hr
  | @error as e c' h he =>
    refine ⟨as, h, fun rows hrows => (by cases hrows), ?_⟩
    intro e' he'
    obtain rfl := Except.error.inj he'
    exact .inl he

/-- **What every call keeps to.** -/
theorem call_kept (hc : a.cursor.Sound) (call : Call) :
    call.Kept a.cursor (a.call call).2.cursor (a.call call).1 := by
  cases call with
  | hasNext =>
    have hs : a.cursor.Safe TookAll ((a.call .hasNext).within cursor) := by
      show a.cursor.Safe TookAll
        (Outcome.map (fun _ => []) (Outcome.map Option.isSome a.cursor.peek))
      exact (hc.peek_safe.map fun _ _ hx => hx).map fun _ _ hx => hx
    exact Call.kept_of_safe hs _
  | readRow =>
    have hs : a.cursor.Safe TookAll ((a.call .readRow).within cursor) := by
      show a.cursor.Safe TookAll (Outcome.map Option.toList (a.readRow.within cursor))
      exact (readRow_safe hc).map fun _ _ hx => hx
    exact Call.kept_of_safe hs _
  | readBatch most => exact Call.kept_of_safe (readBatch_safe hc most) _
  | collect => exact Call.kept_of_safe (readRows_safe hc _) _
  | readAll count =>
    have hkept := Call.kept_of_safe (readBatch_safe hc count) (.readAll count)
    show Call.Kept (.readAll count) a.cursor (a.readAll count).2.cursor (a.readAll count).1
    unfold readAll
    rcases hb : a.readBatch count with ⟨e | rows, a'⟩
    · rw [hb] at hkept
      exact hkept
    · rw [hb] at hkept
      obtain ⟨as, hm, hrows, -⟩ := hkept
      by_cases hlen : rows.length < count
      · simp only [if_pos hlen]
        refine ⟨as, hm, fun rows h => (by cases h), ?_⟩
        intro e he
        obtain rfl := Except.error.inj he
        exact .inr ⟨_, _, _, rfl, rfl⟩
      · simp only [if_neg hlen]
        exact ⟨as, hm, hrows, fun e he => by cases he⟩

theorem call?_eq (hc : a.cursor.Sound) (call : Call) : a.call? call = some (a.call call) := by
  cases call with
  | hasNext =>
    show (a.hasNext? >>= fun o => some (Outcome.map (fun _ => []) o)) = _
    rw [hasNext?_eq hc]
    rfl
  | readRow =>
    show (a.readRow? >>= fun o => some (Outcome.map Option.toList o)) = _
    rw [readRow?_eq hc]
    rfl
  | readBatch most => exact readBatch?_eq hc most
  | readAll count => exact readAll?_eq hc count
  | collect => exact readRows?_eq hc _

/-- **No access of any call lies outside of the buffers.** -/
theorem run?_eq (hc : a.cursor.Sound) (calls : List Call) :
    a.run? calls = some (a.run calls) := by
  induction calls generalizing a with
  | nil => rfl
  | cons call calls ih =>
    obtain ⟨as, hm, -⟩ := call_kept hc call
    rw [run?, call?_eq hc call]
    simp only [Option.bind_eq_bind, Option.bind_some, ih (hm.sound hc).1]
    rfl

/-- So no run of calls leads anywhere else than moves do. -/
theorem run_moves (hc : a.cursor.Sound) (calls : List Call) :
    ∃ as, a.cursor.Moves as (a.run calls).2.cursor := by
  induction calls generalizing a with
  | nil => exact ⟨[], .refl _⟩
  | cons call calls ih =>
    obtain ⟨as, hm, -⟩ := call_kept hc call
    obtain ⟨bs, hms⟩ := ih (hm.sound hc).1
    exact ⟨as ++ bs, hm.trans hms⟩

end Keeping

section Watching

variable {a : Assembler t (Watched ρ t.Physical)}

/-- The ways in which a call may fail when the reader has given these answers. -/
inductive Call.MayFail {P : Type} (answers : List (Except Error (Answer P))) :
    Call → Error → Prop where
  /-- What the reader delivers is not the stripe of any rows. -/
  | corrupt (call : Call) (column : String) (levels : Levels) (fault : StreamFault) :
      MayFail answers call (.corruptStream column levels fault)
  /-- A stored value has no counterpart. -/
  | conversion (call : Call) (target : String) (fault : ConversionFault) :
      MayFail answers call (.conversion target fault)
  /-- The reader has failed. -/
  | reader (call : Call) {e : Error} (h : .error e ∈ answers) : MayFail answers call e
  /-- There are fewer rows than were asked for. -/
  | rows (column : String) (held count : Nat) :
      MayFail answers (.readAll count) (.invalidArgument (.rows column held count))

/-- A failure of the reader is among its answers. -/
theorem Call.Kept.mayFail {call : Call} {c c' : Cursor (Watched ρ t.Physical) t.Physical}
    {e : Error} (h : call.Kept c c' (.error e)) : call.MayFail c'.reader.answers e := by
  obtain ⟨as, -, -, herror⟩ := h
  rcases herror e rfl with he | ⟨column, held, count, rfl, rfl⟩
  · cases he with
    | corrupt column levels fault => exact .corrupt call column levels fault
    | conversion target fault => exact .conversion call target fault
    | reader hread =>
      refine .reader call ?_
      rw [Watched.answers_of_readBatch hread]
      exact List.mem_append_right _ List.mem_cons_self
  · exact .rows column held count

/-- Answers are written down behind those that were given before. -/
theorem answers_of_moves {c c' : Cursor (Watched ρ t.Physical) t.Physical}
    {as : List (Access t.Physical)} (h : c.Moves as c') :
    c.reader.answers <+: c'.reader.answers := by
  induction h with
  | refl c => exact List.prefix_refl _
  | ready _ ih => exact (Cursor.answers_ready _).trans ih
  | look _ _ ih => exact ih
  | take _ _ ih => exact ih
  | pass _ _ ih => exact ih

theorem Call.MayFail.mono {P : Type} {answers answers' : List (Except Error (Answer P))}
    {call : Call} {e : Error} (h : call.MayFail answers e) (hs : answers <+: answers') :
    call.MayFail answers' e := by
  cases h with
  | corrupt _ column levels fault => exact .corrupt call column levels fault
  | conversion _ target fault => exact .conversion call target fault
  | reader _ h => exact .reader call (hs.subset h)
  | rows column held count => exact .rows column held count

/-- **What every run of calls keeps to.** -/
theorem run_kept (hc : a.cursor.Sound) (calls : List Call) :
    ∃ as, a.cursor.Moves as (a.run calls).2.cursor ∧
      List.Forall₂ (fun call answer => ∀ e, answer = .error e →
        call.MayFail (a.run calls).2.cursor.reader.answers e) calls (a.run calls).1 ∧
      List.Sublist ((Nested.allScalars (returned (a.run calls).1)).map t.toPhysical)
        (as.filterMap Access.value?) := by
  induction calls generalizing a with
  | nil => exact ⟨[], .refl _, .nil, .slnil⟩
  | cons call calls ih =>
    have hkept := call_kept hc call
    obtain ⟨as, hm, hok, -⟩ := call_kept hc call
    obtain ⟨bs, hms, hanswers, hsub⟩ := ih (hm.sound hc).1
    have hfail : ∀ e, (a.call call).1 = .error e →
        call.MayFail ((a.call call).2.run calls).2.cursor.reader.answers e := by
      intro e he
      rw [he] at hkept
      exact hkept.mayFail.mono (answers_of_moves hms)
    refine ⟨as ++ bs, hm.trans hms, .cons hfail hanswers, ?_⟩
    rw [List.filterMap_append]
    -- a call that has failed returns none of the values that it took
    have hfirst : List.Sublist
        ((Nested.allScalars ((a.call call).1.toOption.getD [])).map t.toPhysical)
        (as.filterMap Access.value?) := by
      cases hx : (a.call call).1 with
      | error e => exact List.nil_sublist _
      | ok rows =>
        rw [hok rows hx]
        exact List.Sublist.refl _
    show List.Sublist ((Nested.allScalars ((a.call call).1.toOption.getD [] ++
      returned ((a.call call).2.run calls).1)).map t.toPhysical) _
    rw [Nested.allScalars_append, List.map_append]
    exact hfirst.append hsub

/-- **No reader can break reading.** Whatever a reader that runs dry answers to an assembler, and
whatever is called, also after failures: with every access to a buffer checked against the length
of the buffers, the calls come to the same answers and leave the same assembler, so that no access
lies outside; the counts of the cursor contradict neither each other nor the length of the buffers;
a call that fails does so in one of the expected ways; the values that are taken are those of the
first slots that the reader's answers have left to be taken, and the leaf values that are returned
are converted from them, each from one and in order. -/
theorem run_safe {shape : ColumnShape} {reader : ρ} {options : Options}
    (h : ofShape shape ⟨reader, []⟩ options = .ok a) (calls : List Call) :
    a.run? calls = some (a.run calls) ∧
    (a.run calls).2.cursor.Sound ∧ (a.run calls).2.cursor.batchSize = options.bufferLength ∧
    List.Forall₂ (fun call answer => ∀ e, answer = .error e →
      call.MayFail (a.run calls).2.cursor.reader.answers e) calls (a.run calls).1 ∧
    ∃ as ps, a.cursor.Moves as (a.run calls).2.cursor ∧
      as.filterMap Access.value? <+:
        Answer.slots options.bufferLength #[] (a.run calls).2.cursor.reader.answers ∧
      List.Sublist ps (as.filterMap Access.value?) ∧
      List.Forall₂ (fun p x => t.ofPhysical p = .ok x) ps
        (Nested.allScalars (returned (a.run calls).1)) := by
  obtain ⟨-, hmake⟩ := cursor_of_ofShape h
  obtain ⟨hc, -, hsize, -⟩ := sound_of_make hmake
  obtain ⟨as, hm, hanswers, hsub⟩ := run_kept hc calls
  obtain ⟨hsound, hlength⟩ := hm.sound hc
  rw [hsize] at hlength
  refine ⟨run?_eq hc calls, hsound, hlength, hanswers, as, _, hm, ?_, hsub, ?_⟩
  · -- what was taken is all that was left to be taken but the rest of the last batch
    have haccounts := (hm.accounts hc (accounts_of_make hmake)).slots
    rw [List.nil_append, hlength] at haccounts
    rw [← haccounts]
    exact List.prefix_append _ _
  · rw [List.forall₂_map_left_iff, List.forall₂_same]
    exact fun x _ => t.ofPhysical_toPhysical x

end Watching

/-- A reader of numbers that lies. Its first answer has more values than positions, its second call
fails, and its third answer has one value less than it says. -/
def lyingNumbers : Script Int32 where
  answers := [
    .ok { definitions := #[1, 1], repetitions := #[0, 0], values := #[7, 8], valuesRead := 3,
          levelsRead := 2 },
    .error (.physical "numbers" "disk"),
    .ok { definitions := #[1, 1], repetitions := #[0, 1], values := #[9], valuesRead := 2,
          levelsRead := 2 },
    .ok { definitions := #[0], repetitions := #[0], valuesRead := 0, levelsRead := 1 }]

/-- The value that is missing is the one that the refused answer has left in its slot. -/
theorem run_safe_numbers :
    ∃ (a : Assembler .int32 (Watched (Script Int32) Int32)) (as : List (Access Int32))
      (ps : List Int32),
      ofShape .numbers ⟨lyingNumbers, []⟩ ⟨2⟩ = .ok a ∧
      (a.run [.readRow, .hasNext, .readRow, .readAll 3]).1 =
        [.error (.corruptStream "numbers" ⟨1, 0⟩ (.badCounts 3 2 2)),
          .error (.physical "numbers" "disk"),
          .ok [.list [.scalar (9 : Int32), .scalar (8 : Int32)]],
          .error (.invalidArgument (.rows "numbers" 1 3))] ∧
      a.run? [.readRow, .hasNext, .readRow, .readAll 3] =
        some (a.run [.readRow, .hasNext, .readRow, .readAll 3]) ∧
      (a.run [.readRow, .hasNext, .readRow, .readAll 3]).2.cursor.Sound ∧
      as.filterMap Access.value? <+: [9, 8] ∧ List.Sublist ps (as.filterMap Access.value?) ∧
      List.Forall₂ (fun p x => LeafType.int32.ofPhysical p = .ok x) ps
        [(9 : Int32), (8 : Int32)] := by
  obtain ⟨a, h, hanswers, hslots⟩ :
      ∃ a : Assembler .int32 (Watched (Script Int32) Int32),
      ofShape .numbers ⟨lyingNumbers, []⟩ ⟨2⟩ = .ok a ∧
      (a.run [.readRow, .hasNext, .readRow, .readAll 3]).1 =
        [.error (.corruptStream "numbers" ⟨1, 0⟩ (.badCounts 3 2 2)),
          .error (.physical "numbers" "disk"),
          .ok [.list [.scalar (9 : Int32), .scalar (8 : Int32)]],
          .error (.invalidArgument (.rows "numbers" 1 3))] ∧
      Answer.slots 2 #[]
          (a.run [.readRow, .hasNext, .readRow, .readAll 3]).2.cursor.reader.answers =
        [(9 : Int32), (8 : Int32)] := ⟨_, rfl, by cbv, by cbv⟩
  obtain ⟨hchecked, hsound, -, -, as, ps, hm, hprefix, hsub, hps⟩ :=
    run_safe h [.readRow, .hasNext, .readRow, .readAll 3]
  have hreturned := congrArg (fun answers => Nested.allScalars (returned answers)) hanswers
  exact ⟨a, as, ps, h, hanswers, hchecked, hsound,
    (congrArg (as.filterMap Access.value? <+: ·) hslots).mp hprefix, hsub,
    (congrArg (List.Forall₂ (fun p x => LeafType.int32.ofPhysical p = .ok x) ps) hreturned).mp
      hps⟩

end Striping.Assembler
