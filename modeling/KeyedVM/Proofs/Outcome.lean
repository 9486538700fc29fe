import Mathlib.Data.List.Forall2
import Mathlib.Tactic.Lemma

set_option relaxedAutoImplicit false
set_option autoImplicit false

/-!
# Outcomes of computations that may fail

Most functions of the analysis answer with a value or an error.  The lemmas of this module take
such a computation apart: if it succeeds as a whole, then so does each of its steps.  If it fails,
then with an error of one of its steps.

## Main definitions

* `KeyedVM.failsWith` — a test for a certain error;
* `KeyedVM.FailsOnly` — every error of a computation is of a certain kind.

## Main results

* `KeyedVM.bind_eq_ok_iff` — a sequence of two steps succeeds exactly if both do;
* `KeyedVM.mapM_eq_ok_iff` — a step for each member of a list succeeds exactly if all of them do;
* `KeyedVM.exists_eq_ok` — a computation that evaluates to a success has a value that passes a test;
* `KeyedVM.FailsOnly.bind`, `KeyedVM.FailsOnly.mapM` — if each step fails only with certain errors,
  then so do all of them in a row.
-/

namespace KeyedVM

variable {ε α β : Type}

/-- A sequence of two steps succeeds exactly if both steps do. -/
lemma bind_eq_ok_iff {x : Except ε α} {f : α → Except ε β} {b : β} :
    (x >>= f) = .ok b ↔ ∃ a, x = .ok a ∧ f a = .ok b := by
  cases x with
  | error e => simp [bind, Except.bind]
  | ok a => simp [bind, Except.bind]

/-- A step that only returns a value succeeds with that value. -/
lemma pure_eq_ok_iff {a b : α} : (pure a : Except ε α) = .ok b ↔ a = b := by
  simp [pure, Except.pure]

/-- Throwing an error is no success. -/
lemma throw_ne_ok {e : ε} {b : α} : (throw e : Except ε α) ≠ .ok b := by
  simp [throw, throwThe, MonadExceptOf.throw]

/-- Renaming the error of a computation changes nothing about its success. -/
lemma mapError_eq_ok_iff {ε' : Type} {f : ε → ε'} {x : Except ε α} {a : α} :
    x.mapError f = .ok a ↔ x = .ok a := by
  cases x <;> simp [Except.mapError]

/-- Mapping a function over a computation keeps its success. -/
lemma map_eq_ok_iff {f : α → β} {x : Except ε α} {b : β} :
    x.map f = .ok b ↔ ∃ a, x = .ok a ∧ f a = b := by
  cases x <;> simp [Except.map]

/-- A step for each member of a list succeeds exactly if all of them do, with the list of their
values. -/
lemma mapM_eq_ok_iff {f : α → Except ε β} {as : List α} {bs : List β} :
    as.mapM f = .ok bs ↔ List.Forall₂ (fun a b => f a = .ok b) as bs := by
  induction as generalizing bs with
  | nil =>
    rw [List.mapM_nil, pure_eq_ok_iff, List.forall₂_nil_left_iff, eq_comm]
  | cons a as ih =>
    rw [List.mapM_cons, bind_eq_ok_iff, List.forall₂_cons_left_iff]
    constructor
    · rintro ⟨b, hb, h⟩
      obtain ⟨rest, hrest, h⟩ := bind_eq_ok_iff.1 h
      exact ⟨b, rest, hb, ih.1 hrest, (pure_eq_ok_iff.1 h).symm⟩
    · rintro ⟨b, rest, hb, hrest, rfl⟩
      exact ⟨b, hb, bind_eq_ok_iff.2 ⟨rest, ih.2 hrest, rfl⟩⟩

/-- If it is known when the step for each member succeeds and with which value, then so it is for
all of them in a row. -/
lemma mapM_eq_ok_iff_of_forall {f : α → Except ε β} {p : α → Prop} {g : α → β} {as : List α}
    {bs : List β} (h : ∀ a ∈ as, ∀ b, f a = .ok b ↔ p a ∧ g a = b) :
    as.mapM f = .ok bs ↔ (∀ a ∈ as, p a) ∧ as.map g = bs := by
  induction as generalizing bs with
  | nil =>
    rw [List.mapM_nil, pure_eq_ok_iff]
    simp
  | cons a as ih =>
    have ih := fun bs => @ih bs fun a ha => h a (List.mem_cons_of_mem _ ha)
    have ha := h a List.mem_cons_self
    simp only [List.mapM_cons, bind_eq_ok_iff, pure_eq_ok_iff, ha, ih, List.forall_mem_cons,
      List.map_cons]
    constructor
    · rintro ⟨_, ⟨hfirst, rfl⟩, _, ⟨hrest, rfl⟩, rfl⟩
      exact ⟨⟨hfirst, hrest⟩, rfl⟩
    · rintro ⟨⟨hfirst, hrest⟩, rfl⟩
      exact ⟨_, ⟨hfirst, rfl⟩, _, ⟨hrest, rfl⟩, rfl⟩

/-- Among the values of steps for each member of a list is the one for every member. -/
lemma exists_of_mapM_eq_ok {f : α → Except ε β} {as : List α} {bs : List β} {a : α}
    (h : as.mapM f = .ok bs) (ha : a ∈ as) : ∃ b ∈ bs, f a = .ok b := by
  have hall := mapM_eq_ok_iff.1 h
  clear h
  induction hall with
  | nil => exact absurd ha List.not_mem_nil
  | @cons a' b _ bs hb _ ih =>
    rcases List.mem_cons.1 ha with rfl | ha
    · exact ⟨b, List.mem_cons_self, hb⟩
    · obtain ⟨b', hb', hf⟩ := ih ha
      exact ⟨b', List.mem_cons_of_mem _ hb', hf⟩

/-- Every value of steps for each member of a list is the value for a member. -/
lemma exists_of_mem_mapM {f : α → Except ε β} {as : List α} {bs : List β} {b : β}
    (h : as.mapM f = .ok bs) (hb : b ∈ bs) : ∃ a ∈ as, f a = .ok b := by
  have hall := mapM_eq_ok_iff.1 h
  clear h
  induction hall with
  | nil => exact absurd hb List.not_mem_nil
  | @cons a b' as _ hf _ ih =>
    rcases List.mem_cons.1 hb with rfl | hb
    · exact ⟨a, List.mem_cons_self, hf⟩
    · obtain ⟨a', ha', hf'⟩ := ih hb
      exact ⟨a', List.mem_cons_of_mem _ ha', hf'⟩

/-- If the step for each member of a list succeeds with a value that fits the member, then so do all
of them in a row, and each value fits a member. -/
lemma exists_mapM_eq_ok_forall {f : α → Except ε β} {p : α → β → Prop} {as : List α}
    (h : ∀ a ∈ as, ∃ b, f a = .ok b ∧ p a b) :
    ∃ bs, as.mapM f = .ok bs ∧ ∀ b ∈ bs, ∃ a ∈ as, p a b := by
  induction as with
  | nil => exact ⟨[], rfl, fun _ hmem => absurd hmem List.not_mem_nil⟩
  | cons a as ih =>
    obtain ⟨b, hb, hfits⟩ := h a List.mem_cons_self
    obtain ⟨bs, hbs, hall⟩ := ih fun a ha => h a (List.mem_cons_of_mem _ ha)
    refine ⟨b :: bs, mapM_eq_ok_iff.2 (.cons hb (mapM_eq_ok_iff.1 hbs)), fun other hmem => ?_⟩
    rcases List.mem_cons.1 hmem with rfl | hmem
    · exact ⟨a, List.mem_cons_self, hfits⟩
    · obtain ⟨a', ha', hfits⟩ := hall other hmem
      exact ⟨a', List.mem_cons_of_mem _ ha', hfits⟩

/-- If the step for each member of a list succeeds, then so do all of them in a row. -/
lemma exists_mapM_eq_ok {f : α → Except ε β} {as : List α} (h : ∀ a ∈ as, ∃ b, f a = .ok b) :
    ∃ bs, as.mapM f = .ok bs := by
  have hfits : ∀ a ∈ as, ∃ b, f a = .ok b ∧ f a = .ok b := fun a ha =>
    (h a ha).imp fun _ hb => ⟨hb, hb⟩
  obtain ⟨bs, hbs, -⟩ := exists_mapM_eq_ok_forall hfits
  exact ⟨bs, hbs⟩

/-- A computation that evaluates to a success has a value, about which a test may say more. -/
lemma exists_eq_ok {x : Except ε α} {p : α → Prop} [DecidablePred p]
    (h : (x.toOption.any fun a => decide (p a)) = true) : ∃ a, x = .ok a ∧ p a := by
  cases x with
  | error e => cases h
  | ok a => exact ⟨a, rfl, of_decide_eq_true h⟩

/-! ## Errors -/

/-- Whether a computation fails with a given error. -/
def failsWith [DecidableEq ε] (x : Except ε α) (e : ε) : Bool :=
  match x with
  | .ok _ => false
  | .error e' => decide (e' = e)

/-- A computation that evaluates to an error fails with it. -/
lemma eq_error_of_failsWith [DecidableEq ε] {x : Except ε α} {e : ε} (h : failsWith x e = true) :
    x = .error e := by
  cases x with
  | ok a => cases h
  | error e' => rw [of_decide_eq_true h]

/-- Every error of a computation is of a certain kind. -/
def FailsOnly (p : ε → Prop) (x : Except ε α) : Prop := ∀ e, x = .error e → p e

namespace FailsOnly

variable {p : ε → Prop} {x : Except ε α} {f : α → Except ε β}

/-- A success does not fail. -/
lemma ok (a : α) : FailsOnly p (.ok a : Except ε α) := by
  intro e he
  cases he

/-- What is returned does not fail. -/
lemma pure (a : α) : FailsOnly p (Pure.pure a : Except ε α) := ok a

/-- An error with a property fails with this property only. -/
lemma error {e : ε} (h : p e) : FailsOnly p (.error e : Except ε α) := by
  intro e' he
  cases he
  exact h

/-- An error that is raised with a property fails with this property only. -/
lemma throw {e : ε} (h : p e) : FailsOnly p (MonadExcept.throw e : Except ε α) := error h

/-- What fails with one property only fails with a weaker one only. -/
lemma mono {q : ε → Prop} (hx : FailsOnly p x) (h : ∀ e, p e → q e) : FailsOnly q x :=
  fun e he => h e (hx e he)

/-- A sequence of two steps fails with an error of one of them. -/
lemma bind (hx : FailsOnly p x) (hf : ∀ a, x = .ok a → FailsOnly p (f a)) :
    FailsOnly p (x >>= f) := by
  cases x with
  | error e => exact fun e' he => hx e' (by cases he; rfl)
  | ok a => exact hf a rfl

/-- Mapping a function over a computation keeps its errors. -/
lemma map {g : α → β} (hx : FailsOnly p x) : FailsOnly p (x.map g) := by
  cases x with
  | error e => exact error (hx e rfl)
  | ok a => exact ok (g a)

/-- Renaming errors so that all of them are of a kind. -/
lemma mapError {ε' : Type} {p : ε' → Prop} {g : ε → ε'} (h : ∀ e, p (g e)) :
    FailsOnly p (x.mapError g) := by
  cases x with
  | error e => exact error (h e)
  | ok a => exact ok a

/-- Steps for each member of a list fail with an error of one of them. -/
lemma mapM {as : List α} (h : ∀ a ∈ as, FailsOnly p (f a)) : FailsOnly p (as.mapM f) := by
  induction as with
  | nil => exact ok []
  | cons a as ih =>
    rw [List.mapM_cons]
    refine bind (h a List.mem_cons_self) fun b _ => ?_
    exact bind (ih fun a ha => h a (List.mem_cons_of_mem _ ha)) fun bs _ => pure _

end FailsOnly

end KeyedVM
