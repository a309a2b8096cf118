import Mathlib.Data.List.Dedup
import Striping.Proofs.Grammar
import Striping.Shape.Cache

/-!
# Shared shapes

**Scope.** One shape cache, from its beginning on, and any requests for the shapes of columns.
Requests may fail, and different columns may have the same path.

* `ShapeCache.getEach`: some requests one after the other, and their answers.
* `ShapeCache.latest?`: the latest success for a path.
* `ShapeCache.getOrBuild_cases`: **all that a request can do**: it shares the latest success, or
  builds a shape, or fails. `ShapeCache.Keeps.step`: the cache keeps just the latest successes.
* `ShapeCache.getEach_transparent`: **the cache is not seen in the shapes**, and a shape is shared
  just if the latest success for its path was for an equal column.
-/

namespace Striping.ShapeCache

/-- A request that has succeeded. -/
structure Success where
  /-- The column that was asked for. -/
  column : Column
  /-- The shape that was given. -/
  shared : SharedShape

/-- Asks for the shapes of some columns one after the other, whether or not the requests before
have failed. -/
def getEach : ShapeCache → List Column → List (Column × Except Error SharedShape) × ShapeCache
  | c, [] => ([], c)
  | c, column :: columns =>
    ((column, (c.getOrBuild column).1) :: ((c.getOrBuild column).2.getEach columns).1,
      ((c.getOrBuild column).2.getEach columns).2)

/-- The successes among some answers. -/
def successes (answers : List (Column × Except Error SharedShape)) : List Success :=
  answers.flatMap fun answer => answer.2.toOption.toList.map (⟨answer.1, ·⟩)

/-- The latest success for a path. -/
def latest? (history : List Success) (p : Path) : Option Success :=
  (history.filter fun s => s.column.path = p).getLast?

section History

variable {history : List Success} {p : Path} {s : Success}

theorem mem_of_latest? (h : latest? history p = some s) : s ∈ history ∧ s.column.path = p := by
  have hmem := List.mem_filter.1 (List.mem_of_getLast? h)
  exact ⟨hmem.1, of_decide_eq_true hmem.2⟩

theorem isSome_latest?_iff : (latest? history p).isSome ↔ ∃ s ∈ history, s.column.path = p := by
  constructor
  · intro h
    obtain ⟨s, hs⟩ := Option.isSome_iff_exists.1 h
    exact ⟨s, mem_of_latest? hs⟩
  · rintro ⟨s, hmem, hpath⟩
    have hfilter : s ∈ history.filter fun s => s.column.path = p :=
      List.mem_filter.2 ⟨hmem, decide_eq_true hpath⟩
    have hlast := List.getLast?_eq_some_getLast (List.ne_nil_of_mem hfilter)
    exact Option.isSome_iff_exists.2 ⟨_, hlast⟩

/-- A success becomes the latest one for its path, and for no other. -/
theorem latest?_concat (history : List Success) (s : Success) (p : Path) :
    latest? (history ++ [s]) p = if s.column.path = p then some s else latest? history p := by
  unfold latest?
  rw [List.filter_append, List.getLast?_append]
  by_cases hp : s.column.path = p
  · have hlast : [s].filter (fun s => s.column.path = p) = [s] := by simp [hp]
    rw [if_pos hp, hlast]
    rfl
  · have hlast : [s].filter (fun s => s.column.path = p) = [] := by simp [hp]
    rw [if_neg hp, hlast]
    rfl

end History

/-- A cache after some requests have succeeded. -/
structure Keeps (c : ShapeCache) (history : List Success) : Prop where
  /-- What was given is what is built afresh. -/
  built : ∀ s ∈ history, ColumnShape.infer s.column = .ok s.shared.shape
  /-- The shape that is kept for a path was given by the latest success. -/
  find?_eq : ∀ p, c.find? p = (latest? history p).map (·.shared)
  /-- The next build is not any that was given. -/
  fresh : ∀ s ∈ history, s.shared.build < c.builds
  /-- Builds are told apart by their numbers. -/
  build_inj : ∀ s ∈ history, ∀ s' ∈ history, s.shared.build = s'.shared.build → s.shared = s'.shared
  /-- A path is kept once. -/
  nodup : (c.entries.map Prod.fst).Nodup

theorem keeps_empty : empty.Keeps [] where
  built _ hs := absurd hs List.not_mem_nil
  find?_eq _ := rfl
  fresh _ hs := absurd hs List.not_mem_nil
  build_inj _ hs := absurd hs List.not_mem_nil
  nodup := List.nodup_nil

variable {c c' : ShapeCache} {history : List Success} {column : Column}

/-- Entries for another path do not matter to a look-up. -/
theorem lookup_filter_ne {p q : Path} (hp : q ≠ p) (entries : List (Path × SharedShape)) :
    (entries.filter fun entry => entry.1 ≠ q).lookup p = entries.lookup p := by
  induction entries with
  | nil => rfl
  | cons entry entries ih =>
    by_cases hkeep : entry.1 = q
    · have hne : (p == entry.1) = false := beq_false_of_ne fun h => hp (hkeep ▸ h.symm)
      rw [List.filter_cons_of_neg (by simpa using hkeep), ih, List.lookup_cons, hne]
    · rw [List.filter_cons_of_pos (by simpa using hkeep), List.lookup_cons, List.lookup_cons, ih]

/-- The shape that is kept for a path after another one was put in. -/
theorem find?_insert (c : ShapeCache) (shape : ColumnShape) (p : Path) :
    (c.insert shape).2.find? p =
      if shape.column.path = p then some (c.insert shape).1 else c.find? p := by
  show ((shape.column.path, (c.insert shape).1) :: c.entries.filter _).lookup p = _
  rw [List.lookup_cons]
  by_cases hp : shape.column.path = p
  · rw [if_pos hp, beq_iff_eq.2 hp.symm]
  · rw [if_neg hp, beq_false_of_ne (Ne.symm hp)]
    exact lookup_filter_ne hp c.entries

theorem Keeps.column_eq (h : c.Keeps history) {s : Success} (hs : s ∈ history) :
    s.shared.shape.column = s.column :=
  (ColumnShape.parts_of_make (h.built s hs)).1

/-- **All that a request can do.** -/
theorem Keeps.getOrBuild_cases (h : c.Keeps history) (column : Column) :
    (∃ s, latest? history column.path = some s ∧ s.column = column ∧
        c.getOrBuild column = (.ok s.shared, c)) ∨
      ((∀ s, latest? history column.path = some s → s.column ≠ column) ∧
        ((∃ shape, ColumnShape.infer column = .ok shape ∧
            c.getOrBuild column = (.ok (c.insert shape).1, (c.insert shape).2)) ∨
          ∃ e, ColumnShape.infer column = .error e ∧ c.getOrBuild column = (.error e, c))) := by
  have hbuild : (∃ shape, ColumnShape.infer column = .ok shape ∧
        c.build column = (.ok (c.insert shape).1, (c.insert shape).2)) ∨
      ∃ e, ColumnShape.infer column = .error e ∧ c.build column = (.error e, c) := by
    unfold build
    cases ColumnShape.infer column with
    | ok shape => exact .inl ⟨shape, rfl, rfl⟩
    | error e => exact .inr ⟨e, rfl, rfl⟩
  unfold getOrBuild
  rw [h.find?_eq]
  cases hlatest : latest? history column.path with
  | none => exact .inr ⟨fun s hs => (nomatch hs), hbuild⟩
  | some s =>
    have hcolumn := h.column_eq (mem_of_latest? hlatest).1
    by_cases heq : s.column = column
    · exact .inl ⟨s, rfl, heq, if_pos (hcolumn.trans heq)⟩
    · have hne : s.shared.shape.column ≠ column := fun hs => heq (hcolumn.symm.trans hs)
      simp only [Option.map_some, if_neg hne]
      refine .inr ⟨?_, hbuild⟩
      rintro _ ⟨⟩
      exact heq

/-- A shape that is shared again becomes the latest success. -/
theorem Keeps.share (h : c.Keeps history) {s : Success}
    (hlatest : latest? history s.column.path = some s) : c.Keeps (history ++ [s]) where
  built s' hs' := by
    rcases List.mem_append.1 hs' with hs' | hs'
    · exact h.built s' hs'
    · obtain rfl := List.mem_singleton.1 hs'
      exact h.built _ (mem_of_latest? hlatest).1
  find?_eq p := by
    rw [latest?_concat, h.find?_eq]
    split
    · rename_i hp
      rw [← hp, hlatest]
    · rfl
  fresh s' hs' := by
    rcases List.mem_append.1 hs' with hs' | hs'
    · exact h.fresh s' hs'
    · obtain rfl := List.mem_singleton.1 hs'
      exact h.fresh _ (mem_of_latest? hlatest).1
  build_inj := by
    have hback : ∀ s' ∈ history ++ [s], s' ∈ history := by
      intro s' hs'
      rcases List.mem_append.1 hs' with hs' | hs'
      · exact hs'
      · obtain rfl := List.mem_singleton.1 hs'
        exact (mem_of_latest? hlatest).1
    exact fun s₁ h₁ s₂ h₂ => h.build_inj s₁ (hback s₁ h₁) s₂ (hback s₂ h₂)
  nodup := h.nodup

/-- A shape that is built becomes the latest success, under a number of its own. -/
theorem Keeps.insert (h : c.Keeps history) {shape : ColumnShape}
    (hshape : ColumnShape.infer column = .ok shape) :
    (c.insert shape).2.Keeps (history ++ [⟨column, (c.insert shape).1⟩]) where
  built s hs := by
    rcases List.mem_append.1 hs with hs | hs
    · exact h.built s hs
    · obtain rfl := List.mem_singleton.1 hs
      exact hshape
  find?_eq p := by
    have hcolumn : shape.column = column := (ColumnShape.parts_of_make hshape).1
    rw [find?_insert, latest?_concat, h.find?_eq, hcolumn]
    split
    · rfl
    · rfl
  fresh s hs := by
    show s.shared.build < c.builds + 1
    rcases List.mem_append.1 hs with hs | hs
    · exact Nat.lt_succ_of_lt (h.fresh s hs)
    · obtain rfl := List.mem_singleton.1 hs
      exact Nat.lt_succ_self c.builds
  build_inj s₁ h₁ s₂ h₂ hbuild := by
    rcases List.mem_append.1 h₁ with h₁ | h₁ <;> rcases List.mem_append.1 h₂ with h₂ | h₂
    · exact h.build_inj s₁ h₁ s₂ h₂ hbuild
    · obtain rfl := List.mem_singleton.1 h₂
      exact absurd hbuild (Nat.ne_of_lt (h.fresh s₁ h₁))
    · obtain rfl := List.mem_singleton.1 h₁
      exact absurd hbuild.symm (Nat.ne_of_lt (h.fresh s₂ h₂))
    · rw [List.mem_singleton.1 h₁, List.mem_singleton.1 h₂]
  nodup := by
    show (shape.column.path :: (c.entries.filter _).map Prod.fst).Nodup
    rw [List.nodup_cons]
    constructor
    · intro hmem
      obtain ⟨entry, hentry, hpath⟩ := List.mem_map.1 hmem
      exact of_decide_eq_true (List.mem_filter.1 hentry).2 hpath
    · exact h.nodup.sublist (List.filter_sublist.map Prod.fst)

/-- **The cache keeps the latest successes**, whatever is asked next. -/
theorem Keeps.step (h : c.Keeps history) (column : Column) :
    (c.getOrBuild column).2.Keeps
      (history ++ successes [(column, (c.getOrBuild column).1)]) := by
  rcases h.getOrBuild_cases column with ⟨s, hlatest, rfl, hget⟩ | ⟨-, ⟨shape, hshape, hget⟩ |
    ⟨e, -, hget⟩⟩
  · rw [hget]
    exact h.share hlatest
  · rw [hget]
    exact h.insert hshape
  · rw [hget]
    show c.Keeps (history ++ [])
    rwa [List.append_nil]

theorem Keeps.getEach (h : c.Keeps history) (columns : List Column) :
    (c.getEach columns).2.Keeps (history ++ successes (c.getEach columns).1) := by
  induction columns generalizing c history with
  | nil =>
    show c.Keeps (history ++ [])
    rwa [List.append_nil]
  | cons column columns ih =>
    have hrest := ih (h.step column)
    rw [List.append_assoc] at hrest
    unfold successes at hrest ⊢
    rw [← List.flatMap_append] at hrest
    exact hrest

/-- As many paths are kept as have had a success. -/
theorem Keeps.size_eq (h : c.Keeps history) :
    c.size = (history.map (·.column.path)).dedup.length := by
  have hpaths : (c.entries.map Prod.fst).Perm (history.map (·.column.path)).dedup := by
    refine (List.perm_ext_iff_of_nodup h.nodup (List.nodup_dedup _)).2 fun p => ?_
    have hfind : (c.find? p).isSome ↔ ∃ s ∈ history, s.column.path = p := by
      rw [h.find?_eq, Option.isSome_map, isSome_latest?_iff]
    unfold find? at hfind
    rw [List.lookup_isSome_iff] at hfind
    rw [List.mem_dedup, List.mem_map, List.mem_map, ← hfind]
    simp only [beq_iff_eq, eq_comm (a := p)]
  have hlength := hpaths.length_eq
  rwa [List.length_map] at hlength

/-- What is seen of a cache by a request, after some requests that have succeeded. -/
structure Transparent (c : ShapeCache) (history : List Success) (column : Column) : Prop where
  /-- The shape is the one that is built afresh, and so is the failure. -/
  shape_eq : (c.getOrBuild column).1.map (·.shape) = ColumnShape.infer column
  /-- A failure changes nothing. -/
  failure : ∀ e, (c.getOrBuild column).1 = .error e → (c.getOrBuild column).2 = c
  /-- The shape is one that was given before, just if the latest success for the path was for an
  equal column. -/
  shared_iff : ∀ shared, (c.getOrBuild column).1 = .ok shared →
    ((∃ s ∈ history, s.shared.build = shared.build) ↔
      ∃ s, latest? history column.path = some s ∧ s.column = column)
  /-- Then it is the one that this success has given. -/
  shared_eq : ∀ s, latest? history column.path = some s → s.column = column →
    (c.getOrBuild column).1 = .ok s.shared
  /-- Shapes of one build are the same. -/
  build_inj : ∀ s ∈ history, ∀ s' ∈ history, s.shared.build = s'.shared.build → s.shared = s'.shared
  /-- The size counts the paths that have had a success. -/
  size_eq : c.size = (history.map (·.column.path)).dedup.length

theorem Keeps.transparent (h : c.Keeps history) (column : Column) :
    c.Transparent history column := by
  rcases h.getOrBuild_cases column with ⟨s, hlatest, rfl, hget⟩ | ⟨hother, hbuild⟩
  · have hmem := (mem_of_latest? hlatest).1
    refine ⟨?_, ?_, ?_, ?_, h.build_inj, h.size_eq⟩
    · rw [hget]
      exact (h.built s hmem).symm
    · rw [hget]
      rintro e ⟨⟩
    · rw [hget]
      rintro shared ⟨⟩
      exact ⟨fun _ => ⟨s, hlatest, rfl⟩, fun _ => ⟨s, hmem, rfl⟩⟩
    · intro s' hs' _
      obtain rfl := Option.some.inj (hlatest.symm.trans hs')
      rw [hget]
  · have hnone : ¬∃ s, latest? history column.path = some s ∧ s.column = column :=
      fun ⟨s, hs, hcolumn⟩ => hother s hs hcolumn
    refine ⟨?_, ?_, ?_, fun s hs hcolumn => absurd hcolumn (hother s hs), h.build_inj, h.size_eq⟩
    · rcases hbuild with ⟨shape, hshape, hget⟩ | ⟨e, he, hget⟩
      · rw [hget, hshape]
        rfl
      · rw [hget, he]
        rfl
    · rcases hbuild with ⟨shape, -, hget⟩ | ⟨e, -, hget⟩
      · rw [hget]
        rintro e ⟨⟩
      · rw [hget]
        exact fun _ _ => rfl
    · rcases hbuild with ⟨shape, -, hget⟩ | ⟨e, -, hget⟩
      · rw [hget]
        rintro shared ⟨⟩
        -- the number of a new build was not given before
        refine ⟨?_, fun hs => absurd hs hnone⟩
        rintro ⟨s, hs, hsame⟩
        exact absurd hsame (Nat.ne_of_lt (h.fresh s hs))
      · rw [hget]
        rintro shared ⟨⟩

/-- **The cache is not seen in the shapes.** Whatever was asked before, a request comes to what is
built afresh for its column, the same shape or the same failure, and a failure leaves the cache as
it is. The shape is one that was given before just if the latest success for its path was for an
equal column, and then it is the one that was given there. The size of the cache is the number of
different paths that have had a success. -/
theorem getEach_transparent (before : List Column) (column : Column) :
    (empty.getEach before).2.Transparent (successes (empty.getEach before).1) column :=
  (keeps_empty.getEach before).transparent column

/-- A column that was asked for before is built again if another one with its path came between. -/
example :
    let plain := ColumnShape.plain.column
    let other : Column := { ColumnShape.maybe.column with path := plain.path }
    (empty.getEach [plain, other, other, plain]).1.map (fun answer =>
      answer.2.toOption.map (·.build)) = [some 0, some 1, some 1, some 2] := by decide

end Striping.ShapeCache
