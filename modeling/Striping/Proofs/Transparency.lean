import Mathlib
import Striping.Physical.Script
import Striping.Proofs.Bulk
import Striping.Proofs.Calls
import Striping.Proofs.Spelling

/-!
# Batches cannot be seen

**Scope.** Two assemblers of one column shape over any two `ColumnReader`s that deliver the same
positions, finitely many, each of them in batches of its own lengths and up to a failure of its own,
and any calls to each of the two.

* `Assembler.Faces`: an assembler in front of certain positions. `Assembler.Faces.call`: **what a
  call returns is what the positions spell**.
* `Assembler.rowsBefore`: the rows that some calls have returned before one of them failed.
  `Assembler.Faces.run`: they are spelled one behind the other.
* `Assembler.run_transparent`: **batches cannot be seen**: neither those of the reader nor those
  that rows are asked for in.
-/

namespace Striping.Assembler

variable {ρ : Type} {t : LeafType} [ColumnReader ρ t.Physical] {a a' : Assembler t ρ}
  {s : ColumnShape} {ps : List (Position t.Physical)} {rows : List (Nested t.Value)}

/-- An assembler of a column shape in front of certain positions. -/
structure Faces (a : Assembler t ρ) (s : ColumnShape) (ps : List (Position t.Physical)) :
    Prop where
  shape : a.shape = s
  bounds : a.cursor.bounds = s.column.bounds
  cursor : a.cursor.Faces ps

/-- A new assembler is in front of what its reader delivers. -/
theorem faces_of_ofShape {reader : ρ} {options : Options}
    (h : ofShape s reader options = .ok a)
    (hd : ColumnReader.Delivers s.column.bounds a.cursor.request reader ps)
    (hp : ∀ p ∈ ps, p.Paired s.column.bounds) : a.Faces s ps := by
  obtain ⟨hs, hmake⟩ := cursor_of_ofShape h
  exact ⟨hs, (Cursor.fresh_of_make hmake).2.1, Cursor.faces_of_make hmake hd hp⟩

section Calls

theorem Faces.peek {x : Option Levels} {c : Cursor ρ t.Physical} (ha : a.Faces s ps)
    (h : a.cursor.peek = (.ok x, c)) : (a.withCursor c).Faces s ps :=
  ⟨ha.shape, (Cursor.bounds_peek h).trans ha.bounds, ha.cursor.peek h⟩

/-- There is no row only where there are no positions. -/
theorem Faces.readRow_none (ha : a.Faces s ps) (h : a.readRow = (.ok none, a')) :
    ps = [] ∧ a'.Faces s ps := by
  obtain ⟨hp, heq⟩ := Assembler.readRow_none h
  rw [heq]
  exact ⟨(ha.cursor.peek_none hp).1, ha.peek hp⟩

/-- A row is what the positions spell. -/
theorem Faces.readRow_some {row : Nested t.Value} (ha : a.Faces s ps)
    (h : a.readRow = (.ok (some row), a')) :
    ∃ p qs rest, ps = p :: qs ∧ p.levels.repetition = 0 ∧
      s.root.Spells t (p :: qs) row rest ∧ a'.Faces s rest := by
  obtain ⟨rfl, hb, hc⟩ := ha
  unfold readRow at h
  split at h
  · cases h
  · cases h
  · rename_i l c hp
    split at h
    · cases h
    · rename_i h0
      split at h
      · cases h
      · rename_i v c' hv
        obtain ⟨hrow, rfl⟩ := Outcome.ok_inj h
        obtain rfl := Option.some.inj hrow
        obtain ⟨p, qs, rfl, rfl, hc⟩ := hc.peek_some hp
        have hb := (Cursor.bounds_peek hp).trans hb
        obtain ⟨rest, hspells, hc'⟩ := a.shape.leveled.spells_of_assemble hb hc hv
        have hb' := (a.shape.leveled.left_of_assemble hb hc.tidy hv).1
        exact ⟨p, qs, rest, rfl, Decidable.not_not.1 h0, hspells, rfl, hb', hc'⟩

/-- So are several rows. -/
theorem Faces.readRows {n : Nat} (ha : a.Faces s ps) (h : a.readRows n = (.ok rows, a')) :
    ∃ rest, Position.SpellItems (s.root.Spells t) 0 ps rows rest ∧ a'.Faces s rest := by
  induction n generalizing a ps rows with
  | zero =>
    obtain ⟨rfl, rfl⟩ := Outcome.ok_inj h
    exact ⟨ps, .nil ps, ha⟩
  | succ n ih =>
    rw [Assembler.readRows] at h
    split at h
    · cases h
    · rename_i a₁ hr
      obtain ⟨rfl, rfl⟩ := Outcome.ok_inj h
      exact ⟨ps, .nil ps, (ha.readRow_none hr).2⟩
    · rename_i row a₁ hr
      obtain ⟨others, hothers, rfl⟩ := Outcome.map_eq_ok_iff.1 h
      obtain ⟨p, qs, behind, rfl, h0, hrow, ha₁⟩ := ha.readRow_some hr
      obtain ⟨rest, hrows, ha'⟩ := ih ha₁ hothers
      exact ⟨rest, .cons h0 hrow hrows, ha'⟩

/-- So is a batch, also when it is read in bulk. -/
theorem Faces.readBatch {n : Nat} (ha : a.Faces s ps) (h : a.readBatch n = (.ok rows, a')) :
    ∃ rest, Position.SpellItems (s.root.Spells t) 0 ps rows rest ∧ a'.Faces s rest := by
  have hb : a.cursor.bounds = a.shape.column.bounds := by rw [ha.shape, ha.bounds]
  exact ha.readRows (readRows_of_readBatch hb ha.cursor.tidy h)

/-- **What a call returns is what the positions spell**, and the next call goes on behind them. -/
theorem Faces.call {call : Call} (ha : a.Faces s ps) (h : a.call call = (.ok rows, a')) :
    ∃ rest, Position.SpellItems (s.root.Spells t) 0 ps rows rest ∧ a'.Faces s rest := by
  cases call with
  | hasNext =>
    obtain ⟨more, hnext, rfl⟩ := Outcome.map_eq_ok_iff.1 h
    unfold hasNext at hnext
    rcases hp : a.cursor.peek with ⟨e | x, c⟩
    · rw [hp] at hnext
      cases (Prod.mk.inj hnext).1
    · rw [hp] at hnext
      obtain ⟨-, rfl⟩ := Prod.mk.inj hnext
      exact ⟨ps, .nil ps, ha.peek hp⟩
  | readRow =>
    obtain ⟨row, hread, rfl⟩ := Outcome.map_eq_ok_iff.1 h
    cases row with
    | none => exact ⟨ps, .nil ps, (ha.readRow_none hread).2⟩
    | some row =>
      obtain ⟨p, qs, rest, rfl, h0, hrow, ha'⟩ := ha.readRow_some hread
      exact ⟨rest, .cons h0 hrow (.nil rest), ha'⟩
  | readBatch most => exact ha.readBatch h
  | readAll count =>
    replace h : a.readAll count = (.ok rows, a') := h
    unfold readAll at h
    split at h
    · cases h
    · rename_i held a₁ hb
      split at h
      · cases h
      · obtain ⟨rfl, rfl⟩ := Outcome.ok_inj h
        exact ha.readBatch hb
  | collect => exact ha.readRows h

end Calls

/-- The rows that some calls have returned before the first of them that failed. -/
def rowsBefore : List (Except Error (List (Nested t.Value))) → List (Nested t.Value)
  | [] => []
  | .error _ :: _ => []
  | .ok rows :: answers => rows ++ rowsBefore answers

/-- **What calls return before one fails is spelled by the positions**, row behind row. -/
theorem Faces.run (ha : a.Faces s ps) (calls : List Call) :
    ∃ rest, Position.SpellItems (s.root.Spells t) 0 ps (rowsBefore (a.run calls).1) rest ∧
      ((∀ e, .error e ∉ (a.run calls).1) → (a.run calls).2.Faces s rest) := by
  induction calls generalizing a ps with
  | nil => exact ⟨ps, .nil ps, fun _ => ha⟩
  | cons call calls ih =>
    rcases h : a.call call with ⟨e | rows, a₁⟩
    · refine ⟨ps, ?_, fun hno => ?_⟩
      · rw [Assembler.run, h]
        exact .nil ps
      · refine absurd ?_ (hno e)
        rw [Assembler.run, h]
        exact List.mem_cons_self
    · obtain ⟨behind, hrows, ha₁⟩ := ha.call h
      obtain ⟨rest, hothers, hend⟩ := ih ha₁
      rw [Assembler.run, h]
      exact ⟨rest, hrows.append hothers,
        fun hno => hend fun e he => hno e (List.mem_cons_of_mem _ he)⟩

section Ends

/-- No call changes the shape. -/
theorem call_shape (a : Assembler t ρ) (call : Call) : (a.call call).2.shape = a.shape := by
  cases call with
  | hasNext => rfl
  | readRow => exact a.readRow_shape
  | readBatch most => exact a.readBatch_shape most
  | readAll count =>
    have hshape := a.readBatch_shape count
    show (a.readAll count).2.shape = a.shape
    unfold readAll
    rcases hb : a.readBatch count with ⟨e | rows, a'⟩
    · rw [hb] at hshape
      exact hshape
    · rw [hb] at hshape
      simp only
      split
      · exact hshape
      · exact hshape
  | collect => exact a.readRows_shape _

theorem run_shape (a : Assembler t ρ) (calls : List Call) : (a.run calls).2.shape = a.shape := by
  induction calls generalizing a with
  | nil => rfl
  | cons call calls ih => exact (ih _).trans (a.call_shape call)

/-- A batch is cut short only at the end of the column. -/
theorem readBatch_end {n : Nat} (hb : a.cursor.bounds = a.shape.column.bounds)
    (hc : a.cursor.Tidy) (h : a.readBatch n = (.ok rows, a')) (hn : rows.length < n) :
    a'.cursor.peek = (.ok none, a'.cursor) :=
  readRows_end (readRows_of_readBatch hb hc h) hn

end Ends

/-- **Batches cannot be seen.** Let two readers deliver the same positions to assemblers of one
shape, each in batches as it likes and up to a failure of its own, and let rows be asked for in any
ways. Of the rows that either assembler returns before it first fails, those of the one are the
first of those of the other; they are the rows of the first of the positions, none left out and none
twice; and fewer rows than were asked for come in a batch only at the end of the column. -/
theorem run_transparent {σ : Type} [ColumnReader σ t.Physical] {b : Assembler t σ} {r : ρ} {r' : σ}
    {o o' : Options} (ha : ofShape s r o = .ok a) (hb : ofShape s r' o' = .ok b)
    (hp : ∀ p ∈ ps, p.Paired s.column.bounds)
    (hr : ColumnReader.Delivers s.column.bounds a.cursor.request r ps)
    (hr' : ColumnReader.Delivers s.column.bounds b.cursor.request r' ps)
    (calls calls' : List Call) :
    (rowsBefore (a.run calls).1 <+: rowsBefore (b.run calls').1 ∨
      rowsBefore (b.run calls').1 <+: rowsBefore (a.run calls).1) ∧
    (∃ qs, Node.shredRows t s.column.name s.root (rowsBefore (a.run calls).1) = .ok qs ∧
      qs <+: ps) ∧
    ∀ most rows a', (a.run calls).2.readBatch most = (.ok rows, a') → rows.length < most →
      a'.hasNext.1 = .ok false ∧ ((∀ e, .error e ∉ (a.run calls).1) →
        Node.shredRows t s.column.name s.root (rowsBefore (a.run calls).1 ++ rows) = .ok ps) := by
  have hfaces := faces_of_ofShape ha hr hp
  obtain ⟨rest, hrows, hend⟩ := hfaces.run calls
  obtain ⟨rest', hrows', -⟩ := (faces_of_ofShape hb hr' hp).run calls'
  have hshred : ∀ p ps v rest, s.root.Spells t (p :: ps) v rest →
      ∃ qs, s.root.shred t s.column.name v p.levels.repetition = .ok qs ∧ p :: ps = qs ++ rest :=
    fun _ _ _ _ => Node.shred_of_spells
  refine ⟨?_, ?_, ?_⟩
  · obtain ⟨more, ⟨h, -⟩ | ⟨h, -⟩⟩ := hrows.comparable hrows' fun _ _ _ _ _ => Node.spells_unique
    · exact .inl ⟨more, h.symm⟩
    · exact .inr ⟨more, h.symm⟩
  · obtain ⟨qs, hqs, rfl⟩ := hrows.shredItems hshred
    exact ⟨qs, hqs, List.prefix_append _ _⟩
  · intro most rows a' hbatch hlen
    -- also after failures, the cursor is only where moves can bring it
    obtain ⟨-, hmake⟩ := cursor_of_ofShape ha
    have hsound := (Cursor.sound_of_make hmake).1
    obtain ⟨as, hm⟩ := run_moves hsound calls
    have hbounds : (a.run calls).2.cursor.bounds = (a.run calls).2.shape.column.bounds := by
      rw [hm.bounds, run_shape, hfaces.bounds, hfaces.shape]
    have hpeek := readBatch_end hbounds (hm.sound hsound).1.toTidy hbatch hlen
    refine ⟨?_, fun hno => ?_⟩
    · unfold hasNext
      rw [hpeek]
      rfl
    · obtain ⟨left, hmore, ha'⟩ := (hend hno).readBatch hbatch
      obtain rfl := (ha'.cursor.peek_none hpeek).1
      obtain ⟨qs, hqs, rfl⟩ := (hrows.append hmore).shredItems hshred
      rw [List.append_nil]
      exact hqs

/-- The positions of a list of two numbers and an empty list. -/
def listedNumbers : List (Position Int32) :=
  [⟨⟨1, 0⟩, some 7⟩, ⟨⟨1, 1⟩, some 8⟩, ⟨⟨0, 0⟩, none⟩]

theorem paired_listedNumbers : ∀ p ∈ listedNumbers, p.Paired ColumnShape.numbers.column.bounds := by
  have hpresent : ∀ k (x : Int32), Position.Paired ColumnShape.numbers.column.bounds
      ⟨⟨1, k⟩, some x⟩ := fun k x =>
    ⟨⟨fun _ => rfl, fun _ => rfl⟩, fun h => (nomatch h), fun h => (nomatch h)⟩
  have habsent : Position.Paired ColumnShape.numbers.column.bounds
      (⟨⟨0, 0⟩, none⟩ : Position Int32) :=
    ⟨⟨fun h => (nomatch h), fun h => by cases h⟩, fun h => (nomatch h), fun h => (nomatch h)⟩
  exact List.forall_mem_cons.2 ⟨hpresent 0 7, List.forall_mem_cons.2 ⟨hpresent 1 8,
    List.forall_mem_singleton.2 habsent⟩⟩

theorem delivers_cutNumbers {q : Request} (hq : 0 < q.positions) :
    ColumnReader.Delivers ColumnShape.numbers.column.bounds q cutNumbers listedNumbers := by
  show ColumnReader.Delivers _ q cutNumbers
    ([⟨⟨1, 0⟩, some (7 : Int32)⟩] ++ ([⟨⟨1, 1⟩, some 8⟩] ++ ([⟨⟨0, 0⟩, none⟩] ++ [])))
  have hlevels : ∀ ls : List Level, ls <+: ls := List.prefix_refl
  refine .more rfl ⟨fun _ => hlevels _, fun _ => hlevels _, List.prefix_refl _, rfl, rfl⟩
    (List.cons_ne_nil _ _) hq ?_
  refine .more rfl ⟨fun _ => hlevels _, fun _ => hlevels _, List.prefix_refl _, rfl, rfl⟩
    (List.cons_ne_nil _ _) hq ?_
  refine .more rfl ⟨fun _ => hlevels _, fun _ => hlevels _, List.prefix_refl _, rfl, rfl⟩
    (List.cons_ne_nil _ _) hq ?_
  exact .done rfl ⟨fun _ => hlevels _, fun _ => hlevels _, List.prefix_refl _, rfl, rfl⟩

/-- A reader that delivers these positions in one batch, with more in the buffers than it says, and
then fails. -/
def brokenNumbers : Script Int32 where
  answers := [
    .ok { definitions := #[1, 1, 0, 1], repetitions := #[0, 1, 0], values := #[7, 8, 9],
          valuesRead := 2, levelsRead := 3 },
    .error (.physical "numbers" "disk")]

theorem delivers_brokenNumbers {q : Request} (hq : 3 ≤ q.positions) :
    ColumnReader.Delivers ColumnShape.numbers.column.bounds q brokenNumbers listedNumbers := by
  show ColumnReader.Delivers _ q brokenNumbers (listedNumbers ++ [])
  refine .more rfl ⟨fun _ => ⟨[1], rfl⟩, fun _ => ⟨[], rfl⟩, ⟨[9], rfl⟩, rfl, rfl⟩
    (List.cons_ne_nil _ _) hq ?_
  exact .fail rfl

/-- The failure of the broken reader hides the second row, and not the first one. -/
theorem run_transparent_numbers :
    ∃ a b a' : Assembler .int32 (Script Int32),
      ofShape .numbers cutNumbers ⟨2⟩ = .ok a ∧ ofShape .numbers brokenNumbers ⟨4⟩ = .ok b ∧
      (a.run [.readRow, .hasNext, .readRow]).1 =
        [.ok [.list [.scalar (7 : Int32), .scalar (8 : Int32)]], .ok [], .ok [.list []]] ∧
      (b.run [.readBatch 1, .collect]).1 =
        [.ok [.list [.scalar (7 : Int32), .scalar (8 : Int32)]],
          .error (.physical "numbers" "disk")] ∧
      (rowsBefore (a.run [.readRow, .hasNext, .readRow]).1 <+:
          rowsBefore (b.run [.readBatch 1, .collect]).1 ∨
        rowsBefore (b.run [.readBatch 1, .collect]).1 <+:
          rowsBefore (a.run [.readRow, .hasNext, .readRow]).1) ∧
      (a.run [.readRow, .hasNext, .readRow]).2.readBatch 5 = (.ok [], a') ∧
      a'.hasNext.1 = .ok false ∧
      Node.shredRows .int32 ColumnShape.numbers.column.name ColumnShape.numbers.root
        [.list [.scalar (7 : Int32), .scalar (8 : Int32)], .list []] = .ok listedNumbers := by
  obtain ⟨a, a', ha, hq, hanswers, hbatch⟩ : ∃ a a' : Assembler .int32 (Script Int32),
      ofShape .numbers cutNumbers ⟨2⟩ = .ok a ∧ a.cursor.request = ⟨2, true, true, 2⟩ ∧
      (a.run [.readRow, .hasNext, .readRow]).1 =
        [.ok [.list [.scalar (7 : Int32), .scalar (8 : Int32)]], .ok [], .ok [.list []]] ∧
      (a.run [.readRow, .hasNext, .readRow]).2.readBatch 5 = (.ok [], a') :=
    ⟨_, _, rfl, rfl, by cbv, by cbv⟩
  obtain ⟨b, hb, hq', hanswers'⟩ : ∃ b : Assembler .int32 (Script Int32),
      ofShape .numbers brokenNumbers ⟨4⟩ = .ok b ∧ b.cursor.request = ⟨4, true, true, 4⟩ ∧
      (b.run [.readBatch 1, .collect]).1 =
        [.ok [.list [.scalar (7 : Int32), .scalar (8 : Int32)]],
          .error (.physical "numbers" "disk")] := ⟨_, rfl, rfl, by cbv⟩
  obtain ⟨hrows, -, hend⟩ := run_transparent ha hb paired_listedNumbers
    (delivers_cutNumbers (by rw [hq]; decide)) (delivers_brokenNumbers (by rw [hq']; decide))
    [.readRow, .hasNext, .readRow] [.readBatch 1, .collect]
  obtain ⟨hnext, hall⟩ := hend 5 [] a' hbatch (by decide)
  have hok : ∀ e, .error e ∉ (a.run [.readRow, .hasNext, .readRow]).1 := by
    intro e he
    have he := (congrArg (.error e ∈ ·) hanswers).mp he
    simp at he
  have hshred := (congrArg (fun answers => Node.shredRows .int32 ColumnShape.numbers.column.name
    ColumnShape.numbers.root (rowsBefore answers ++ []) = .ok listedNumbers) hanswers).mp (hall hok)
  exact ⟨a, b, a', ha, hb, hanswers, hanswers', hrows, hbatch, hnext, hshred⟩

end Striping.Assembler
