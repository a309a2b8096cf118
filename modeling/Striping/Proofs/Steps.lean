import Mathlib.Tactic.Common
import Mathlib.Data.List.Forall2
import Striping.Outcome

/-!
# Steps that succeed

What it takes for several steps in a row to succeed.

* `bind_eq_ok_iff`, `map_eq_ok_iff`: a step after a step.
* `mapM_eq_ok_iff`, `forM_eq_ok_iff`: a step for each element of a list.
* `Outcome.forEach_append`: steps for two lists are those for the one, then those for
  the other. `Outcome.mapEach_ok`: a step of each part of a row.
-/

namespace Striping

variable {ε α β σ : Type}

theorem bind_eq_ok_iff {x : Except ε α} {f : α → Except ε β} {b : β} :
    x >>= f = .ok b ↔ ∃ a, x = .ok a ∧ f a = .ok b := by
  cases x with
  | error e =>
    constructor
    · intro h
      cases h
    · rintro ⟨_, h, -⟩
      cases h
  | ok a =>
    constructor
    · intro h
      exact ⟨a, rfl, h⟩
    · rintro ⟨a', h1, h2⟩
      obtain rfl := Except.ok.inj h1
      exact h2

theorem map_eq_ok_iff {x : Except ε α} {f : α → β} {b : β} :
    x.map f = .ok b ↔ ∃ a, x = .ok a ∧ b = f a := by
  cases x with
  | error e =>
    constructor
    · intro h
      cases h
    · rintro ⟨_, h, -⟩
      cases h
  | ok a =>
    constructor
    · intro h
      exact ⟨a, rfl, (Except.ok.inj h).symm⟩
    · rintro ⟨a', h1, rfl⟩
      obtain rfl := Except.ok.inj h1
      rfl

theorem forM_eq_ok_iff {f : α → Except ε Unit} {as : List α} :
    as.forM f = .ok () ↔ ∀ a ∈ as, f a = .ok () := by
  induction as with
  | nil => exact ⟨fun _ _ h => absurd h List.not_mem_nil, fun _ => rfl⟩
  | cons a as ih =>
    show (f a >>= fun _ => as.forM f) = _ ↔ _
    rw [bind_eq_ok_iff, List.forall_mem_cons, ih]
    constructor
    · rintro ⟨⟨⟩, h1, h2⟩
      exact ⟨h1, h2⟩
    · rintro ⟨h1, h2⟩
      exact ⟨(), h1, h2⟩

/-- A step for each element gives the answers one by one. -/
theorem mapM_eq_ok_iff {f : α → Except ε β} {as : List α} {bs : List β} :
    as.mapM f = .ok bs ↔ List.Forall₂ (fun a b => f a = .ok b) as bs := by
  induction as generalizing bs with
  | nil =>
    rw [List.mapM_nil, List.forall₂_nil_left_iff]
    constructor
    · intro h
      exact (Except.ok.inj h).symm
    · rintro rfl
      rfl
  | cons a as ih =>
    rw [List.mapM_cons, bind_eq_ok_iff, List.forall₂_cons_left_iff]
    constructor
    · rintro ⟨b, hb, h⟩
      obtain ⟨bs', hbs, h⟩ := bind_eq_ok_iff.1 h
      exact ⟨b, bs', hb, ih.1 hbs, (Except.ok.inj h).symm⟩
    · rintro ⟨b, bs', hb, hbs, rfl⟩
      exact ⟨b, hb, bind_eq_ok_iff.2 ⟨bs', ih.2 hbs, rfl⟩⟩

/-- A step for one more element gives one more answer. -/
theorem mapM_concat_eq_ok_iff {f : α → Except ε β} {as : List α} {a : α} {bs : List β} :
    (as ++ [a]).mapM f = .ok bs ↔
      ∃ bs' b, as.mapM f = .ok bs' ∧ f a = .ok b ∧ bs = bs' ++ [b] := by
  rw [List.mapM_append, bind_eq_ok_iff]
  constructor
  · rintro ⟨bs', h, h'⟩
    obtain ⟨last, hlast, h'⟩ := bind_eq_ok_iff.1 h'
    obtain _ | ⟨hb, ⟨⟩⟩ := mapM_eq_ok_iff.1 hlast
    exact ⟨bs', _, h, hb, (Except.ok.inj h').symm⟩
  · rintro ⟨bs', b, h, hb, rfl⟩
    exact ⟨bs', h, bind_eq_ok_iff.2 ⟨[b], mapM_eq_ok_iff.2 (.cons hb .nil), rfl⟩⟩

/-- What comes of elements one by one comes of one of them. -/
theorem exists_of_forall₂ {R : α → β → Prop} {as : List α} {bs : List β}
    (h : List.Forall₂ R as bs) {b : β} (hb : b ∈ bs) : ∃ a ∈ as, R a b := by
  induction h with
  | nil => cases hb
  | @cons a _ _ _ hr _ ih =>
    rcases List.mem_cons.1 hb with rfl | hb
    · exact ⟨a, List.mem_cons_self, hr⟩
    · obtain ⟨a', ha, hr⟩ := ih hb
      exact ⟨a', List.mem_cons_of_mem _ ha, hr⟩

/-- What two lists give one by one is the same list. -/
theorem map_eq_map_of_forall₂ {f : α → σ} {g : β → σ} {as : List α} {bs : List β}
    (h : List.Forall₂ (fun a b => f a = g b) as bs) : as.map f = bs.map g := by
  induction h with
  | nil => rfl
  | cons hab _ ih => rw [List.map_cons, List.map_cons, hab, ih]

/-- Two things that hold along two lists hold together. -/
theorem forall₂_and {R S : α → β → Prop} {as : List α} {bs : List β} (h : List.Forall₂ R as bs)
    (h' : List.Forall₂ S as bs) : List.Forall₂ (fun a b => R a b ∧ S a b) as bs := by
  induction h with
  | nil => exact .nil
  | cons hr _ ih =>
    obtain _ | ⟨hs, hss⟩ := h'
    exact .cons ⟨hr, hs⟩ (ih hss)

/-- What holds along two lists in a row holds along both. -/
theorem forall₂_split {R : α → β → Prop} {as as' : List α} {bs : List β}
    (h : List.Forall₂ R (as ++ as') bs) {n : Nat} (hn : as.length = n) :
    List.Forall₂ R as (bs.take n) ∧ List.Forall₂ R as' (bs.drop n) := by
  have ht := List.forall₂_take n h
  have hd := List.forall₂_drop n h
  rw [List.take_left' hn] at ht
  rw [List.drop_left' hn] at hd
  exact ⟨ht, hd⟩

/-- Elements that all come of something come of a list. -/
theorem forall₂_map_of_exists {γ : Type} {g : γ → β} {R : α → γ → Prop} {as : List α}
    {bs : List β} (h : List.Forall₂ (fun a b => ∃ c, b = g c ∧ R a c) as bs) :
    ∃ cs, bs = cs.map g ∧ List.Forall₂ R as cs := by
  induction h with
  | nil => exact ⟨[], rfl, .nil⟩
  | cons hb _ ih =>
    obtain ⟨c, rfl, hr⟩ := hb
    obtain ⟨cs, rfl, hrs⟩ := ih
    exact ⟨c :: cs, rfl, .cons hr hrs⟩

/-- Two lists that each go with a third go with each other. -/
theorem forall₂_trans {γ : Type} {R : α → β → Prop} {S : β → γ → Prop} {as : List α}
    {bs : List β} {cs : List γ} (h : List.Forall₂ R as bs) (h' : List.Forall₂ S bs cs) :
    List.Forall₂ (fun a c => ∃ b, R a b ∧ S b c) as cs := by
  induction h generalizing cs with
  | nil =>
    obtain rfl := List.forall₂_nil_left_iff.1 h'
    exact .nil
  | cons hr _ ih =>
    obtain _ | ⟨hs, hss⟩ := h'
    exact .cons ⟨_, hr, hs⟩ (ih hss)

namespace Outcome

/-- A step that succeeds has one answer and one state behind it. -/
theorem ok_inj {a a' : α} {s s' : σ} (h : ((.ok a, s) : Outcome σ α) = (.ok a', s')) :
    a = a' ∧ s = s' := by
  obtain ⟨h1, h2⟩ := Prod.mk.inj h
  exact ⟨Except.ok.inj h1, h2⟩

theorem map_eq_ok_iff {o : Outcome σ α} {f : α → β} {b : β} {s : σ} :
    o.map f = (.ok b, s) ↔ ∃ a, o = (.ok a, s) ∧ b = f a := by
  obtain ⟨x, s'⟩ := o
  constructor
  · intro h
    obtain ⟨h1, rfl⟩ := Prod.mk.inj h
    obtain ⟨a, rfl, rfl⟩ := Striping.map_eq_ok_iff.1 h1
    exact ⟨a, rfl, rfl⟩
  · rintro ⟨a, h, rfl⟩
    obtain ⟨rfl, rfl⟩ := Prod.mk.inj h
    rfl

/-- A failure is not changed by what would be done to the answer. -/
theorem of_map_eq_error {o : Outcome σ α} {f : α → β} {e : Error} {s : σ}
    (h : o.map f = (.error e, s)) : o = (.error e, s) := by
  obtain ⟨e' | a, s'⟩ := o
  · obtain ⟨he, rfl⟩ := Prod.mk.inj h
    obtain rfl := Except.error.inj he
    rfl
  · cases (Prod.mk.inj h).1

theorem forEach_append (step : σ → α → Outcome σ Unit) (s : σ) (as bs : List α) :
    forEach step s (as ++ bs) =
      match forEach step s as with
      | (.ok (), s) => forEach step s bs
      | (.error e, s) => (.error e, s) := by
  induction as generalizing s with
  | nil => rfl
  | cons a as ih =>
    simp only [List.cons_append, forEach]
    rcases step s a with ⟨_ | ⟨⟩, s'⟩
    · rfl
    · exact ih s'

/-- Parts that can all take a step take it together. `f` is what the step leaves as it is. -/
theorem mapEach_ok {γ : Type} {step : σ → Outcome σ α} {f : σ → γ} {Q : σ → α → Prop}
    {ss : List σ} (h : ∀ s ∈ ss, ∃ a s', step s = (.ok a, s') ∧ f s' = f s ∧ Q s' a) :
    ∃ as ss', mapEach step ss = (.ok as, ss') ∧ ss'.map f = ss.map f ∧ List.Forall₂ Q ss' as := by
  induction ss with
  | nil => exact ⟨[], [], rfl, rfl, .nil⟩
  | cons s ss ih =>
    rw [List.forall_mem_cons] at h
    obtain ⟨⟨a, s', hs, hf, hq⟩, h⟩ := h
    obtain ⟨as, ss', hss, hfs, hqs⟩ := ih h
    refine ⟨a :: as, s' :: ss', ?_, ?_, .cons hq hqs⟩
    · rw [mapEach, hs]
      simp only [hss]
      rfl
    · rw [List.map_cons, List.map_cons, hf, hfs]

end Outcome

end Striping
