import Mathlib
import Striping.Physical.Script
import Striping.Proofs.Calls
import Striping.Proofs.Canonical
import Striping.Proofs.Spelling

/-!
# Levels and values go together

**Scope.** One assembler over any `ColumnReader`, which runs dry at some time, that leaves a value
for each position at the greatest definition level. Rows are read one by one, whether or not the
calls before have failed.

* `Answer.Tell`: the positions that answers bring, whatever fails in between.
* `Cursor.Abreast`: a cursor whose levels and values are in front of the same positions.
  `Cursor.Abreast.of_steps`: **what it takes are the next of them**.
* `Cursor.Fails`: how a read may fail. `Cursor.Abreast.of_fails`: levels and values go together also
  behind a failure, unless a value could not be converted.
* `Assembler.readRow_paired`: **leaf values are converted from the values of their own positions**,
  if no call before has failed to convert the first value of a row.
* `Assembler.readRow_unpaired`: behind such a failure they are not.
-/

namespace Striping

/-- A position of a column of optional values. -/
def Position.optional {P : Type} (x : Option P) : Position P := ⟨⟨if x.isSome then 1 else 0, 0⟩, x⟩

theorem Position.paired_optional {P : Type} (x : Option P) :
    (Position.optional x).Paired ColumnShape.maybe.column.bounds := by
  cases x with
  | none =>
    exact ⟨⟨fun h => (nomatch h), fun h => by cases h⟩, fun h => (nomatch h), fun _ => rfl⟩
  | some x => exact ⟨⟨fun _ => rfl, fun _ => rfl⟩, fun h => (nomatch h), fun _ => rfl⟩

namespace Answer

variable {P : Type} {b : LevelBounds} {size : Nat} {answers : List (Except Error (Answer P))}
  {ps : List (Position P)}

/-- Holds of an answer to a request of `size` positions whose counts can be true. -/
def Accepted (size : Nat) (a : Answer P) : Prop :=
  a.levelsRead ≤ size ∧ a.valuesRead ≤ a.levelsRead

instance (a : Answer P) : Decidable (a.Accepted size) :=
  inferInstanceAs (Decidable (a.levelsRead ≤ size ∧ a.valuesRead ≤ a.levelsRead))

/-- The number of positions that an answer brings. -/
def count (size : Nat) : Except Error (Answer P) → Nat
  | .error _ => 0
  | .ok a => if a.Accepted size then a.levelsRead else 0

/-- The number of positions that several answers bring. -/
def total (size : Nat) : List (Except Error (Answer P)) → Nat
  | [] => 0
  | answer :: rest => count size answer + total size rest

theorem total_append (answers answers' : List (Except Error (Answer P))) :
    total size (answers ++ answers') = total size answers + total size answers' := by
  induction answers with
  | nil =>
    rw [List.nil_append, total]
    omega
  | cons answer answers ih =>
    rw [List.cons_append, total, total, ih]
    omega

/-- Answers that bring some positions of a column, each of which has its value if it reaches the
leaf. A failure brings none, nor does an answer that is refused. -/
inductive Tell (b : LevelBounds) (size : Nat) :
    List (Except Error (Answer P)) → List (Position P) → Prop where
  | nil : Tell b size [] []
  | failed (e : Error) {answers : List (Except Error (Answer P))} {ps : List (Position P)}
      (h : Tell b size answers ps) : Tell b size (.error e :: answers) ps
  | refused {a : Answer P} {answers : List (Except Error (Answer P))} {ps : List (Position P)}
      (ha : ¬a.Accepted size) (h : Tell b size answers ps) : Tell b size (.ok a :: answers) ps
  | brought {a : Answer P} {answers : List (Except Error (Answer P))} {ps qs : List (Position P)}
      (ha : a.Brings b ps) (hn : ps.length ≤ size) (hp : ∀ p ∈ ps, p.Paired b)
      (h : Tell b size answers qs) : Tell b size (.ok a :: answers) (ps ++ qs)

theorem Brings.accepted {a : Answer P} (ha : a.Brings b ps) (hn : ps.length ≤ size) :
    a.Accepted size := by
  have hl := ha.levelsRead
  have hv := ha.valuesRead
  have hle := List.length_filterMap_le (·.value) ps
  exact ⟨by omega, by omega⟩

theorem Tell.length (h : Tell b size answers ps) : ps.length = total size answers := by
  induction h with
  | nil => rfl
  | failed e _ ih =>
    rw [total, count, ih]
    omega
  | refused ha _ ih =>
    rw [total, count, if_neg ha, ih]
    omega
  | brought ha hn _ _ ih =>
    rw [total, count, if_pos (ha.accepted hn), ha.levelsRead, List.length_append, ih]

/-- An answer of a column of optional values. -/
def ofOptionals (xs : List (Option P)) : Answer P where
  definitions := (xs.map fun x => (Position.optional x).levels.definition).toArray
  values := (xs.filterMap id).toArray
  valuesRead := (xs.filterMap id).length
  levelsRead := xs.length

/-- Answers of a column of optional values bring their positions. -/
theorem Tell.optionals {size : Nat} {xs : List (Option P)}
    {answers : List (Except Error (Answer P))} {ps : List (Position P)} (hn : xs.length ≤ size)
    (h : Tell ColumnShape.maybe.column.bounds size answers ps) :
    Tell ColumnShape.maybe.column.bounds size (.ok (.ofOptionals xs) :: answers)
      (xs.map .optional ++ ps) := by
  have hvalues : (xs.map Position.optional).filterMap (·.value) = xs.filterMap id := by
    rw [List.filterMap_map]
    rfl
  refine .brought ⟨?_, ?_, ?_, ?_, ?_⟩ (by rwa [List.length_map]) ?_ h
  · intro _
    rw [List.map_map]
    exact List.prefix_refl _
  · intro h
    cases h
  · rw [hvalues]
    exact List.prefix_refl _
  · exact (List.length_map _).symm
  · rw [hvalues]
    rfl
  · intro p hp
    obtain ⟨x, -, rfl⟩ := List.mem_map.1 hp
    exact Position.paired_optional x

end Answer

/-- The next answer of a reader is the first of those that are still to come. -/
theorem Watched.later_of_readBatch {ρ P : Type} [ColumnReader ρ P] {w w' : Watched ρ P}
    {q : Request} {x : Except Error (Answer P)} {later : List (Except Error (Answer P))}
    (ha : ColumnReader.readBatch w q = (x, w'))
    (hlog : w'.answers <+: w.answers ++ later) :
    ∃ more, later = x :: more ∧ w.answers ++ later = w'.answers ++ more := by
  rw [Watched.answers_of_readBatch ha] at hlog ⊢
  obtain ⟨more, rfl⟩ := (List.prefix_append_right_inj _).1 hlog
  exact ⟨more, rfl, (List.append_assoc _ _ _).symm⟩

namespace Cursor

variable {ρ P : Type} [Inhabited P] [ColumnReader ρ P]

omit [Inhabited P] in
/-- Looking asks for a batch at most. -/
theorem eq_ready_of_peek {c c' : Cursor ρ P} {x : Except Error (Option Levels)}
    (h : c.peek = (x, c')) : c' = c.ready.2 := by
  unfold peek at h
  rcases hr : c.ready with ⟨e | _ | _, c₁⟩
  · rw [hr] at h
    exact (Prod.mk.inj h).2.symm
  · rw [hr] at h
    exact (Prod.mk.inj h).2.symm
  · rw [hr] at h
    simp only at h
    split at h
    · exact (Prod.mk.inj h).2.symm
    · exact (Prod.mk.inj h).2.symm

section Abreast

variable {c c' : Cursor (Watched ρ P) P} {log : List (Except Error (Answer P))}
  {ps qs : List (Position P)}

/-- The number of positions that were passed since the start of the column. -/
def passed (c : Cursor (Watched ρ P) P) : Nat :=
  Answer.total c.batchSize c.reader.answers - (c.levelsRead - c.levelIndex)

/-- A cursor whose levels and values are in front of the same positions. These reach as far as the
answers in `log`, which are all that its reader will have given in the end. -/
structure Abreast (c : Cursor (Watched ρ P) P) (log : List (Except Error (Answer P)))
    (ps : List (Position P)) : Prop where
  sound : c.Sound
  split : ∃ here later rest, ps = here ++ rest ∧ (∀ p ∈ here, p.Paired c.bounds) ∧
    c.pendingLevels = here.map (·.levels) ∧ c.pendingValues = here.filterMap (·.value) ∧
    log = c.reader.answers ++ later ∧ Answer.Tell c.bounds c.batchSize later rest

omit [ColumnReader ρ P] in
theorem abreast_of_make {reader : ρ} {column : String} {b : LevelBounds} {n : Nat}
    (h : make (⟨reader, []⟩ : Watched ρ P) column b n = .ok c) (hs : Answer.Tell b n log ps) :
    c.Abreast log ps := by
  have hsound := (sound_of_make h).1
  unfold make at h
  split at h
  · cases h
  · obtain rfl := Except.ok.inj h
    exact ⟨hsound, [], log, ps, rfl, fun p hp => absurd hp List.not_mem_nil, rfl, rfl, rfl, hs⟩

omit [ColumnReader ρ P] in
/-- All positions but those still to come were passed. -/
theorem Abreast.length_eq {before : List (Position P)} (hc : c.Abreast log ps)
    (hs : Answer.Tell c.bounds c.batchSize log (before ++ ps)) : before.length = c.passed := by
  obtain ⟨here, later, rest, rfl, -, hl, -, rfl, hrest⟩ := hc.split
  have hhere : c.levelsRead - c.levelIndex = here.length := by
    have hlen := congrArg List.length hl
    unfold pendingLevels at hlen
    rwa [List.length_map, List.length_map, List.length_range'] at hlen
  have htotal := hs.length
  rw [Answer.total_append, ← hrest.length, List.length_append, List.length_append] at htotal
  unfold passed
  omega

/-- A batch that comes in brings the next positions. -/
theorem Abreast.ready (hc : c.Abreast log ps) (hlog : c.ready.2.reader.answers <+: log) :
    c.ready.2.Abreast log ps := by
  obtain ⟨hsound, -⟩ := hc.sound.ready
  obtain ⟨here, later, rest, rfl, hpaired, hl, hv, rfl, hs⟩ := hc.split
  rcases c.ready_cases with ⟨x, h, -⟩ | ⟨hi, hvi, hready⟩
  · rw [h]
    exact hc
  · -- a batch is asked for where nothing is left of the one before
    obtain ⟨-, hnone, -⟩ := hc.sound.spent_eq_self hi hvi
    rw [hnone] at hl
    obtain rfl := List.map_eq_nil_iff.1 hl.symm
    have hlevels := Nat.le_of_eq hi.symm
    rcases hready with ⟨e, reader, ha, h⟩ | ⟨a, reader, ha, ⟨hn, fault, h⟩ | ⟨hn, h⟩⟩
    · rw [h] at hsound hlog ⊢
      obtain ⟨more, rfl, hmore⟩ := Watched.later_of_readBatch ha hlog
      cases hs with
      | failed _ hs =>
        exact ⟨hsound, [], more, rest, rfl, hpaired, pendingLevels_eq_nil_iff.2 hlevels,
          pendingValues_eq_nil_iff.2 hvi, hmore, hs⟩
    · rw [h] at hsound hlog ⊢
      obtain ⟨more, rfl, hmore⟩ := Watched.later_of_readBatch ha hlog
      cases hs with
      | refused _ hs =>
        exact ⟨hsound, [], more, rest, rfl, hpaired, pendingLevels_eq_nil_iff.2 hlevels,
          pendingValues_eq_nil_iff.2 hvi, hmore, hs⟩
      | brought hbrings hlen => exact absurd (hbrings.accepted hlen) hn
    · rw [h] at hsound hlog ⊢
      obtain ⟨more, rfl, hmore⟩ := Watched.later_of_readBatch ha hlog
      cases hs with
      | refused ha' => exact absurd hn ha'
      | @brought _ _ ps qs hbrings hlen hp hs =>
        exact ⟨hsound, ps, more, qs, rfl, hp, pendingLevels_receive hbrings hp hlen,
          pendingValues_receive hbrings hlen, hmore, hs⟩

theorem Abreast.peek {x : Except Error (Option Levels)} (hc : c.Abreast log ps)
    (h : c.peek = (x, c')) (hlog : c'.reader.answers <+: log) : c'.Abreast log ps := by
  obtain rfl := eq_ready_of_peek h
  exact hc.ready hlog

/-- The position that is taken is the next one, with its value. -/
theorem Abreast.next {p : Position P} (hc : c.Abreast log ps) (h : c.next = (.ok (some p), c'))
    (hlog : c'.reader.answers <+: log) : ∃ rest, ps = p :: rest ∧ c'.Abreast log rest := by
  obtain ⟨c₁, hp, hcase⟩ := next_some h
  have hi := (hc.sound.toTidy.peek hp).2.2 rfl
  rw [next_of_peek hp] at h
  have hspent := (pending_next hi h).2.2
  have hreader : c'.reader = c₁.reader := congrArg (·.reader) hspent
  have hsize : c'.batchSize = c₁.batchSize := congrArg (·.batchSize) hspent
  rw [hreader] at hlog
  have hc₁ := hc.peek hp hlog
  obtain ⟨here, later, rest, rfl, hpaired, hl, hv, rfl, hs⟩ := hc₁.split
  obtain ⟨behind, rfl, hls, hvs, -⟩ := pending_cons_of_next hi hpaired hl hv h
  have hsound : c'.Sound := by
    rcases hcase with ⟨-, x, c₂, htake, -, rfl⟩ | ⟨-, -, rfl⟩
    · obtain ⟨hvi, -, rfl⟩ := takeValue_ok htake
      exact (hc₁.sound.picked hvi).advance hi
    · exact hc₁.sound.advance hi
  refine ⟨behind ++ rest, rfl, hsound, behind, later, rest, rfl, ?_, hls, hvs, ?_, ?_⟩
  · rw [bounds_next h]
    exact fun q hq => hpaired q (List.mem_cons_of_mem p hq)
  · rw [hreader]
  · rw [bounds_next h, hsize]
    exact hs

omit [Inhabited P] in
theorem answers_peek {x : Except Error (Option Levels)} (h : c.peek = (x, c')) :
    c.reader.answers <+: c'.reader.answers := by
  obtain rfl := eq_ready_of_peek h
  exact c.answers_ready

/-- A walk leaves the answers that were given before. -/
theorem Steps.answers (h : c.Steps qs c') : c.reader.answers <+: c'.reader.answers := by
  induction h with
  | refl c => exact List.prefix_refl _
  | look h _ ih => exact (answers_peek h).trans ih
  | @take c c' c'' p ps h _ ih =>
    obtain ⟨c₁, hp, hcase⟩ := next_some h
    have hreader : c'.reader = c₁.reader := by
      rcases hcase with ⟨-, x, c₂, htake, -, rfl⟩ | ⟨-, -, rfl⟩
      · obtain ⟨-, -, rfl⟩ := takeValue_ok htake
        rfl
      · rfl
    rw [hreader] at ih
    exact (answers_peek hp).trans ih

/-- **What a cursor takes are the next positions**, each with its value. -/
theorem Abreast.of_steps (hc : c.Abreast log ps) (h : c.Steps qs c')
    (hlog : c'.reader.answers <+: log) : ∃ rest, ps = qs ++ rest ∧ c'.Abreast log rest := by
  induction h generalizing ps with
  | refl => exact ⟨ps, rfl, hc⟩
  | look h hs ih => exact ih (hc.peek h (hs.answers.trans hlog)) hlog
  | take h hs ih =>
    obtain ⟨behind, rfl, hc₁⟩ := hc.next h (hs.answers.trans hlog)
    obtain ⟨rest, rfl, hc'⟩ := ih hc₁ hlog
    exact ⟨rest, rfl, hc'⟩

end Abreast

section Fails

variable {c c' c'' : Cursor ρ P} {e : Error} {qs : List (Position P)}

/-- How a read may fail after it took some positions. Either it has asked for a batch behind them at
most, or a value could not be converted: then the value is taken, and its position is not. -/
inductive Fails (c : Cursor ρ P) (e : Error) : Cursor ρ P → Prop where
  | between {qs : List (Position P)} {c' : Cursor ρ P} (h : c.Steps qs c') : Fails c e c'.ready.2
  | converting {qs : List (Position P)} {c' c'' : Cursor ρ P} {l : Levels} {x : P}
      (h : c.Steps qs c') (hp : c'.peek = (.ok (some l), c')) (hv : c'.takeValue l = (.ok x, c''))
      (he : ∃ target fault, e = .conversion target fault) : Fails c e c''

theorem Fails.of_steps (hs : c.Steps qs c') (h : c'.Fails e c'') : c.Fails e c'' := by
  cases h with
  | between h => exact .between (hs.trans h)
  | converting h hp hv he => exact .converting (hs.trans h) hp hv he

/-- A read that only looks has taken nothing. -/
theorem fails_of_peek {x : Except Error (Option Levels)} (h : c.peek = (x, c')) :
    c.Fails e c' := by
  rw [eq_ready_of_peek h]
  exact .between (.refl c)

/-- Behind a look, a read fails as it does from there. -/
theorem Fails.of_peek {x : Option Levels} (hp : c.peek = (.ok x, c')) (h : c'.Fails e c'') :
    c.Fails e c'' :=
  .of_steps (.look hp (.refl c')) h

variable {α : Type} {b : LevelBounds} {level : Level} {count : Nat}
  {read : Cursor ρ P → Outcome (Cursor ρ P) (Nested α)}
  {shred : Nested α → Level → Except Error (List (Position P))}
  (hok : ∀ c v c', c.bounds = b → read c = (.ok v, c') → c.Reads shred v c')
  (herror : ∀ c e c', c.bounds = b → read c = (.error e, c') → c.Fails e c')

include hok herror

/-- The further items of a list fail as one of them does, behind those that were read. -/
theorem fails_of_readItems (hb : c.bounds = b)
    (h : readItems read level count c = (.error e, c')) : c.Fails e c' := by
  induction count generalizing c with
  | zero => cases h
  | succ count ih =>
    rw [readItems] at h
    split at h
    · rename_i c₁ hp
      obtain ⟨-, rfl⟩ := Prod.mk.inj h
      exact fails_of_peek hp
    · cases h
    · rename_i next c₁ hp
      have hb₁ : c₁.bounds = b := (bounds_peek hp).trans hb
      refine .of_peek hp ?_
      split at h
      · cases h
      · split at h
        · obtain ⟨-, rfl⟩ := Prod.mk.inj h
          exact fails_of_peek (peek_peek hp)
        · split at h
          · rename_i c₂ hi
            obtain ⟨he, rfl⟩ := Prod.mk.inj h
            obtain rfl := Except.error.inj he
            exact herror c₁ _ _ hb₁ hi
          · rename_i item c₂ hi
            obtain ⟨l, c₃, qs, -, -, hs⟩ := hok c₁ item c₂ hb₁ hi
            exact .of_steps hs (ih (hs.bounds.trans hb₁) (Outcome.of_map_eq_error h))

/-- So do all items of a list that is not empty. -/
theorem fails_of_readList (hb : c.bounds = b) (h : c.readList read level = (.error e, c')) :
    c.Fails e c' := by
  unfold readList at h
  split at h
  · rename_i c₁ hi
    obtain ⟨he, rfl⟩ := Prod.mk.inj h
    obtain rfl := Except.error.inj he
    exact herror c _ _ hb hi
  · rename_i item c₁ hi
    obtain ⟨l, c₂, qs, -, -, hs⟩ := hok c item c₁ hb hi
    have hrest := Outcome.of_map_eq_error h
    exact .of_steps hs (fails_of_readItems hok herror (hs.bounds.trans hb) hrest)

end Fails

end Cursor

namespace Node

open Cursor

variable {ρ : Type} {t : LeafType} [ColumnReader ρ t.Physical] {c c₁ c' : Cursor ρ t.Physical}
  {e : Error} {node : Node} {b : LevelBounds} {d r : Int} {l : Levels}

/-- A node that cannot be entered was looked at only. -/
theorem peek_of_enter_error (h : c.enter node = (.error e, c')) : c.peek.2 = c' := by
  unfold enter expectLevels at h
  rcases hp : c.peek with ⟨e₁ | _ | l, c₁⟩
  · rw [hp] at h
    exact (Prod.mk.inj h).2
  · rw [hp] at h
    exact (Prod.mk.inj h).2
  · rw [hp] at h
    simp only at h
    split at h
    · exact (Prod.mk.inj h).2
    · cases (Prod.mk.inj h).1

/-- A node fails at its entrance, where it only looks, or behind it. -/
theorem fails_of_enter {β : Type}
    {f : Levels → Cursor ρ t.Physical → Outcome (Cursor ρ t.Physical) β}
    (h : (match c.enter node with
      | (.error e, c) => (.error e, c)
      | (.ok l, c) => f l c) = (.error e, c'))
    (hf : ∀ l c₁, c.peek = (.ok (some l), c₁) → f l c₁ = (.error e, c') → c₁.Fails e c') :
    c.Fails e c' := by
  split at h
  · rename_i e₁ c₁ he
    obtain ⟨-, rfl⟩ := Prod.mk.inj h
    rw [← peek_of_enter_error he]
    exact fails_of_peek rfl
  · rename_i l c₁ he
    obtain ⟨hp, -⟩ := enter_eq_ok_iff.1 he
    exact .of_peek hp (hf l c₁ hp h)

/-- A leaf fails since there is no value, or since the value cannot be converted. -/
theorem fails_of_readLeaf (hp : c.peek = (.ok (some l), c₁))
    (h : readLeaf t c₁ l = (.error e, c')) : c₁.Fails e c' := by
  have hp₁ := peek_peek hp
  unfold readLeaf at h
  split at h
  · rename_i e₁ c₂ htake
    obtain ⟨-, rfl⟩ := Prod.mk.inj h
    unfold takeValue at htake
    split at htake
    · cases (Prod.mk.inj htake).1
    · obtain ⟨-, rfl⟩ := Prod.mk.inj htake
      exact fails_of_peek hp₁
  · rename_i x c₂ htake
    split at h
    · rename_i e₁ hx
      obtain ⟨he, rfl⟩ := Prod.mk.inj h
      obtain rfl := Except.error.inj he
      exact .converting (.refl c₁) hp₁ htake (LeafType.ofPhysical_error hx)
    · cases (Prod.mk.inj h).1

theorem fails_of_leaf {null : Option Level} {level : Level}
    (h : (leaf null level).assemble t c = (.error e, c')) : c.Fails e c' := by
  rw [assemble] at h
  refine fails_of_enter h ?_
  intro l c₁ hp hl
  split at hl
  · exact fails_of_readLeaf hp hl
  · cases (Prod.mk.inj hl).1

theorem fails_of_list {m : Node} {null : Option Level} {empty level : Level}
    (hm : m.Leveled b d r) (hb : c.bounds = b)
    (ih : ∀ (c : Cursor ρ t.Physical) e c', c.bounds = b → m.assemble t c = (.error e, c') →
      c.Fails e c')
    (h : (list null empty level m).assemble t c = (.error e, c')) : c.Fails e c' := by
  rw [assemble] at h
  refine fails_of_enter h ?_
  intro l c₁ hp hl
  split at hl
  · cases (Prod.mk.inj hl).1
  · split at hl
    · cases (Prod.mk.inj hl).1
    · have hok : ∀ (c : Cursor ρ t.Physical) v c', c.bounds = b → m.assemble t c = (.ok v, c') →
          c.Reads (m.shred t "") v c' := fun _ _ _ hb h => hm.shred_of_assemble hb h
      exact fails_of_readList hok ih ((bounds_peek hp).trans hb) (Outcome.of_map_eq_error hl)

/-- **Assembly fails behind some positions that it took**, at every node. -/
theorem Leveled.fails_of_assemble (hn : node.Leveled b d r) (hb : c.bounds = b)
    (h : node.assemble t c = (.error e, c')) : c.Fails e c' := by
  induction hn generalizing c e c' with
  | requiredLeaf => exact fails_of_leaf h
  | optionalLeaf => exact fails_of_leaf h
  | requiredStruct _ ih =>
    rw [assemble] at h
    refine fails_of_enter h ?_
    intro l c₁ hp hl
    exact ih ((bounds_peek hp).trans hb) (Outcome.of_map_eq_error hl)
  | optionalStruct _ _ ih =>
    rw [assemble] at h
    refine fails_of_enter h ?_
    intro l c₁ hp hl
    split at hl
    · cases (Prod.mk.inj hl).1
    · exact ih ((bounds_peek hp).trans hb) (Outcome.of_map_eq_error hl)
  | requiredList _ _ hm ih => exact fails_of_list hm hb (fun _ _ _ => ih) h
  | optionalList _ _ _ hm ih => exact fails_of_list hm hb (fun _ _ _ => ih) h

end Node

namespace Cursor

variable {ρ P : Type} [Inhabited P] [ColumnReader ρ P] {c c' : Cursor (Watched ρ P) P}
  {log : List (Except Error (Answer P))} {ps : List (Position P)} {e : Error}

/-- **A failure leaves levels and values in front of the same positions**, or the cursor at the
position of a value that could not be converted. -/
theorem Abreast.of_fails (hc : c.Abreast log ps) (h : c.Fails e c')
    (hlog : c'.reader.answers <+: log) :
    (∃ qs rest, ps = qs ++ rest ∧ c'.Abreast log rest) ∨
      (∃ target fault, e = .conversion target fault) ∧ c'.peek = (.ok (some c'.levels), c') := by
  cases h with
  | @between qs c₁ hs =>
    obtain ⟨rest, rfl, hc₁⟩ := hc.of_steps hs (c₁.answers_ready.trans hlog)
    exact .inl ⟨qs, rest, rfl, hc₁.ready hlog⟩
  | @converting qs c₁ c₂ l x hs hp hv he =>
    obtain ⟨-, -, rfl⟩ := takeValue_ok hv
    have hlog₁ : c₁.reader.answers <+: log := hlog
    obtain ⟨rest, rfl, hc₁⟩ := hc.of_steps hs hlog₁
    -- the levels are the same as before the value was taken
    obtain ⟨-, rfl, hin⟩ := peek_some hp
    have hi : c₁.levelIndex < c₁.levelsRead := (hc₁.sound.toTidy.peek hp).2.2 rfl
    exact .inr ⟨he, peek_of_ready (ready_of_lt hi) hin⟩

end Cursor

/-- A row whose leaf values are converted from the values of these positions, place by place. -/
def Nested.ReadFrom (t : LeafType) (row : Nested t.Value) (ps : List (Position t.Physical)) :
    Prop :=
  List.Forall₂ (fun place p => ∀ x, place.leaf = some x →
    ∃ y, p.value = some y ∧ t.ofPhysical y = .ok x) row.places ps

/-- A row is read from the positions that it shreds to. -/
theorem ColumnShape.readFrom_of_shred {s : ColumnShape} {t : LeafType} {column : String}
    {row : Nested t.Value} {ps : List (Position t.Physical)}
    (h : s.root.shred t column row 0 = .ok ps) : row.ReadFrom t ps := by
  have hf := Node.follows_of_build s.root_eq
  have hb := LevelBounds.below?_of_ofFrames s.column.bounds_eq
  have hvalues := (hf.levels_shred hb (by decide) h).2
  have hall : List.Forall₂ (fun (place : Place t.Value) (p : Position t.Physical) =>
      place.leaf.map t.toPhysical = p.value) row.places ps := by
    refine List.forall₂_map_right_iff.1 (List.forall₂_map_left_iff.1 ?_)
    rw [hvalues]
    exact List.forall₂_same.2 fun _ _ => rfl
  refine hall.imp ?_
  intro place p hp x hx
  refine ⟨t.toPhysical x, ?_, t.ofPhysical_toPhysical x⟩
  rw [← hp, hx]
  rfl

namespace Assembler

open Cursor

variable {ρ : Type} {t : LeafType} [ColumnReader ρ t.Physical]

/-- A row that cannot be read fails behind some positions that were taken. -/
theorem fails_of_readRow {a a' : Assembler t ρ} {e : Error}
    (hb : a.cursor.bounds = a.shape.column.bounds) (h : a.readRow = (.error e, a')) :
    a.cursor.Fails e a'.cursor := by
  unfold readRow at h
  split at h
  · rename_i e₁ c hp
    obtain ⟨-, rfl⟩ := Prod.mk.inj h
    exact fails_of_peek hp
  · cases (Prod.mk.inj h).1
  · rename_i l c hp
    split at h
    · obtain ⟨-, rfl⟩ := Prod.mk.inj h
      exact fails_of_peek hp
    · split at h
      · rename_i e₁ c' hrow
        obtain ⟨he, rfl⟩ := Prod.mk.inj h
        obtain rfl := Except.error.inj he
        exact .of_peek hp (a.shape.leveled.fails_of_assemble ((bounds_peek hp).trans hb) hrow)
      · cases (Prod.mk.inj h).1

variable {a₀ a a' : Assembler t (Watched ρ t.Physical)}
  {log : List (Except Error (Answer t.Physical))} {stream ps : List (Position t.Physical)}
  {x : Except Error (Option (Nested t.Value))}

/-- Holds of an assembler that looks at a position inside a row. No more rows are read there. -/
def Stuck (a : Assembler t (Watched ρ t.Physical)) : Prop :=
  a.cursor.peek = (.ok (some a.cursor.levels), a.cursor) ∧ a.cursor.levels.repetition ≠ 0

theorem Stuck.readRow (h : a.Stuck) :
    a.readRow = (.error (a.cursor.corrupt a.cursor.levels .rowStart), a) := by
  obtain ⟨hp, h0⟩ := h
  unfold Assembler.readRow
  rw [hp]
  simp only [if_pos h0]
  rfl

/-- Calls for one row after the other that lead to an assembler. They may fail, but not to convert
the first value of a row. -/
inductive KeepsPace (a₀ : Assembler t (Watched ρ t.Physical)) :
    Assembler t (Watched ρ t.Physical) → Prop where
  | start : KeepsPace a₀ a₀
  | row {a a' : Assembler t (Watched ρ t.Physical)} {x : Except Error (Option (Nested t.Value))}
      (h : KeepsPace a₀ a) (hrow : a.readRow = (x, a'))
      (hx : ∀ target fault, x = .error (.conversion target fault) →
        a'.cursor.levels.repetition ≠ 0) : KeepsPace a₀ a'

/-- A call for a row only moves the cursor. -/
theorem moves_readRow (hc : a.cursor.Sound) (h : a.readRow = (x, a')) :
    a'.shape = a.shape ∧ ∃ as, a.cursor.Moves as a'.cursor := by
  have hshape := a.readRow_shape
  obtain ⟨as, hm, -⟩ := call_kept hc .readRow
  have hm : a.cursor.Moves as a.readRow.2.cursor := hm
  rw [h] at hm hshape
  exact ⟨hshape, as, hm⟩

theorem KeepsPace.moves (h : a₀.KeepsPace a) (hc : a₀.cursor.Sound) :
    a.shape = a₀.shape ∧ ∃ as, a₀.cursor.Moves as a.cursor := by
  induction h with
  | start => exact ⟨rfl, [], .refl _⟩
  | row _ hrow _ ih =>
    obtain ⟨hshape, as, hm⟩ := ih
    obtain ⟨hshape', bs, hm'⟩ := moves_readRow (hm.sound hc).1 hrow
    exact ⟨hshape'.trans hshape, as ++ bs, hm.trans hm'⟩

/-- **A call for a row keeps levels and values together**, unless it leaves the assembler inside a
row for good. -/
theorem abreast_readRow (hb : a.cursor.bounds = a.shape.column.bounds)
    (hc : a.cursor.Abreast log ps) (h : a.readRow = (x, a'))
    (hx : ∀ target fault, x = .error (.conversion target fault) → a'.cursor.levels.repetition ≠ 0)
    (hlog : a'.cursor.reader.answers <+: log) :
    (∃ qs rest, ps = qs ++ rest ∧ a'.cursor.Abreast log rest) ∨ a'.Stuck := by
  rcases x with e | _ | row
  · rcases hc.of_fails (fails_of_readRow hb h) hlog with hnext | ⟨⟨target, fault, rfl⟩, hp⟩
    · exact .inl hnext
    · exact .inr ⟨hp, hx target fault rfl⟩
  · obtain ⟨hp, -⟩ := readRow_none h
    exact .inl ⟨[], ps, rfl, hc.peek hp hlog⟩
  · obtain ⟨qs, -, hsteps, -⟩ := readRow_ok hb h
    obtain ⟨rest, rfl, hc'⟩ := hc.of_steps hsteps hlog
    exact .inl ⟨qs, rest, rfl, hc'⟩

/-- **So do all calls**, whether or not those before have failed. -/
theorem KeepsPace.abreast (h : a₀.KeepsPace a) (hb : a₀.cursor.bounds = a₀.shape.column.bounds)
    (hc : a₀.cursor.Abreast log stream) (hlog : a.cursor.reader.answers <+: log) :
    (∃ qs rest, stream = qs ++ rest ∧ a.cursor.Abreast log rest) ∨ a.Stuck := by
  induction h with
  | start => exact .inl ⟨[], stream, rfl, hc⟩
  | @row a a' x hpace hrow hx ih =>
    obtain ⟨hshape, as, hm⟩ := hpace.moves hc.sound
    obtain ⟨-, bs, hm'⟩ := moves_readRow (hm.sound hc.sound).1 hrow
    rcases ih ((answers_of_moves hm').trans hlog) with ⟨qs, rest, rfl, hrest⟩ | hstuck
    · have hba : a.cursor.bounds = a.shape.column.bounds := by rw [hm.bounds, hb, hshape]
      rcases abreast_readRow hba hrest hrow hx hlog with ⟨rs, behind, rfl, ha'⟩ | hstuck
      · exact .inl ⟨qs ++ rs, behind, (List.append_assoc _ _ _).symm, ha'⟩
      · exact .inr hstuck
    · -- an assembler that is stuck stays where it is
      obtain ⟨-, rfl⟩ := Prod.mk.inj (hstuck.readRow.symm.trans hrow)
      exact .inr hstuck

/-- The positions of a stream that an assembler passes from one state to another. -/
def stretch (a a' : Assembler t (Watched ρ t.Physical)) (stream : List (Position t.Physical)) :
    List (Position t.Physical) :=
  (stream.take a'.cursor.passed).drop a.cursor.passed

/-- **Levels and values stay together.** A reader may answer in batches of any lengths, fail in
between and be asked again, as long as it runs dry at some time and its answers bring a value for
each position at the greatest definition level. Rows are read one by one, and any of these calls
may have failed, unless it was the first value of a row that could not be converted. Then a row that
is read has the levels of the positions that are passed for it, and each of its leaf values is
converted from the value of its own position. -/
theorem readRow_paired {shape : ColumnShape} {reader : ρ} {options : Options}
    {row : Nested t.Value} (h : ofShape shape ⟨reader, []⟩ options = .ok a₀)
    (hpace : a₀.KeepsPace a) (hrow : a.readRow = (.ok (some row), a'))
    (hs : Answer.Tell shape.column.bounds options.bufferLength a'.cursor.reader.answers stream) :
    shape.root.shred t shape.column.name row 0 = .ok (a.stretch a' stream) ∧
      row.ReadFrom t (a.stretch a' stream) := by
  obtain ⟨rfl, hmake⟩ := cursor_of_ofShape h
  obtain ⟨hsound, -, hsize, -⟩ := sound_of_make hmake
  have hb := (fresh_of_make hmake).2.1
  obtain ⟨hshape, as, hm⟩ := hpace.moves hsound
  obtain ⟨ha, hsize'⟩ := hm.sound hsound
  obtain ⟨-, bs, hm'⟩ := moves_readRow ha hrow
  have hba : a.cursor.bounds = a₀.shape.column.bounds := by rw [hm.bounds, hb]
  have hsa : a.cursor.batchSize = options.bufferLength := by rw [hsize', hsize]
  have hstart : a₀.cursor.Abreast a'.cursor.reader.answers stream := abreast_of_make hmake hs
  rcases hpace.abreast hb hstart (answers_of_moves hm') with ⟨before, ps, rfl, hc⟩ | hstuck
  · obtain ⟨qs, hq, hsteps, -⟩ := readRow_ok (by rw [hba, hshape]) hrow
    obtain ⟨rest, rfl, hc'⟩ := hc.of_steps hsteps (List.prefix_refl _)
    rw [hshape] at hq
    -- both states tell how many positions lie in front of them
    have hbefore : before.length = a.cursor.passed := by
      refine hc.length_eq ?_
      rw [hba, hsa]
      exact hs
    have hbehind : (before ++ qs).length = a'.cursor.passed := by
      refine hc'.length_eq ?_
      rw [List.append_assoc, hm'.bounds, (hm'.sound ha).2, hba, hsa]
      exact hs
    have hstretch : a.stretch a' (before ++ (qs ++ rest)) = qs := by
      unfold stretch
      rw [← List.append_assoc, List.take_left' hbehind, List.drop_left' hbefore]
    rw [hstretch]
    exact ⟨hq, ColumnShape.readFrom_of_shred hq⟩
  · cases (Prod.mk.inj (hstuck.readRow.symm.trans hrow)).1

end Assembler

/-- A number, a null and another number. -/
def patchyStream : List (Position Int32) := [some 7, none, some 9].map .optional

/-- A reader of these numbers that fails in between. -/
def patchyNumbers : Script Int32 :=
  ⟨[.ok (.ofOptionals [some 7, none]), .error (.physical "maybe" "disk"),
    .ok (.ofOptionals [some 9])]⟩

/-- A number that is too large for a byte, a null and another number. -/
def wideStream : List (Position Int32) := [some 300, none, some 7].map .optional

/-- A reader of these numbers. -/
def wideNumbers : Script Int32 := ⟨[.ok (.ofOptionals [some 300, none, some 7])]⟩

namespace Assembler

/-- The row behind a failed call is that of its position. -/
theorem readRow_paired_maybe :
    ∃ a₀ a a' : Assembler .int8 (Watched (Script Int32) Int32),
      ofShape .maybe ⟨patchyNumbers, []⟩ ⟨2⟩ = .ok a₀ ∧
      (a₀.run [.readRow, .readRow, .readRow]).1 =
        [.ok [.scalar (7 : Int8)], .ok [.null], .error (.physical "maybe" "disk")] ∧
      (a₀.run [.readRow, .readRow, .readRow]).2 = a ∧
      a.readRow = (.ok (some (.scalar (9 : Int8))), a') ∧
      a.stretch a' patchyStream = [⟨⟨1, 0⟩, some (9 : Int32)⟩] ∧
      Nested.ReadFrom .int8 (.scalar (9 : Int8)) (a.stretch a' patchyStream) := by
  obtain ⟨a₀, a₁, a₂, a, a', h, hanswers, ha, h₁, h₂, h₃, hrow, hlog, hstretch⟩ :
      ∃ a₀ a₁ a₂ a a' : Assembler .int8 (Watched (Script Int32) Int32),
      ofShape .maybe ⟨patchyNumbers, []⟩ ⟨2⟩ = .ok a₀ ∧
      (a₀.run [.readRow, .readRow, .readRow]).1 =
        [.ok [.scalar (7 : Int8)], .ok [.null], .error (.physical "maybe" "disk")] ∧
      (a₀.run [.readRow, .readRow, .readRow]).2 = a ∧
      a₀.readRow = (.ok (some (.scalar (7 : Int8))), a₁) ∧ a₁.readRow = (.ok (some .null), a₂) ∧
      a₂.readRow = (.error (.physical "maybe" "disk"), a) ∧
      a.readRow = (.ok (some (.scalar (9 : Int8))), a') ∧
      a'.cursor.reader.answers = patchyNumbers.answers ∧
      a.stretch a' patchyStream = [⟨⟨1, 0⟩, some (9 : Int32)⟩] :=
    ⟨_, _, _, _, _, rfl, by cbv, rfl, by cbv, by cbv, by cbv, by cbv, by cbv, by cbv⟩
  have hpace : a₀.KeepsPace a := by
    refine .row (.row (.row .start h₁ ?_) h₂ ?_) h₃ ?_
    · intro target fault hx
      cases hx
    · intro target fault hx
      cases hx
    · intro target fault hx
      cases hx
  have hs : Answer.Tell ColumnShape.maybe.column.bounds 2 a'.cursor.reader.answers
      patchyStream := by
    rw [hlog]
    exact .optionals (by decide) (.failed _ (.optionals (by decide) .nil))
  obtain ⟨-, hfrom⟩ := readRow_paired h hpace hrow hs
  exact ⟨a₀, a, a', h, hanswers, ha, hrow, hstretch, hfrom⟩

/-- Behind a first value that cannot be converted, a row takes the value of another position. -/
theorem readRow_unpaired :
    ∃ a₀ a a' : Assembler .int8 (Watched (Script Int32) Int32),
      ofShape .maybe ⟨wideNumbers, []⟩ ⟨3⟩ = .ok a₀ ∧
      a₀.readRow = (.error (.conversion "i8" (.tooLarge 300)), a) ∧
      a.readRow = (.ok (some (.scalar (7 : Int8))), a') ∧
      Answer.Tell ColumnShape.maybe.column.bounds 3 a'.cursor.reader.answers wideStream ∧
      a.stretch a' wideStream = [⟨⟨1, 0⟩, some (300 : Int32)⟩] ∧
      ¬Nested.ReadFrom .int8 (.scalar (7 : Int8)) (a.stretch a' wideStream) := by
  obtain ⟨a₀, a, a', h, hfail, hrow, hlog, hstretch⟩ :
      ∃ a₀ a a' : Assembler .int8 (Watched (Script Int32) Int32),
      ofShape .maybe ⟨wideNumbers, []⟩ ⟨3⟩ = .ok a₀ ∧
      a₀.readRow = (.error (.conversion "i8" (.tooLarge 300)), a) ∧
      a.readRow = (.ok (some (.scalar (7 : Int8))), a') ∧
      a'.cursor.reader.answers = wideNumbers.answers ∧
      a.stretch a' wideStream = [⟨⟨1, 0⟩, some (300 : Int32)⟩] :=
    ⟨_, _, _, rfl, by cbv, by cbv, by cbv, by cbv⟩
  refine ⟨a₀, a, a', h, hfail, hrow, ?_, hstretch, ?_⟩
  · rw [hlog]
    exact .optionals (by decide) .nil
  · rw [hstretch]
    intro hfrom
    obtain _ | ⟨hplace, -⟩ := hfrom
    obtain ⟨y, hy, hof⟩ := hplace (7 : Int8) rfl
    obtain rfl := Option.some.inj hy
    cases hof

end Assembler

end Striping
