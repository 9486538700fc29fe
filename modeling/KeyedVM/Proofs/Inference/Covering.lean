import KeyedVM.Proofs.Outcome
import KeyedVM.State
import Mathlib.Data.List.Forall2

set_option relaxedAutoImplicit false
set_option autoImplicit false

/-!
# Covering of states

A stored state covers the states that were merged into it: it has the same open regions and the
same depth, and every slot and every register of it knows at least the producers that they know.
Merging two states gives a state that covers both.

## Main definitions

* `KeyedVM.State.Covers` — a state knows everything that another one knows.

## Main results

* `KeyedVM.State.Covers.refl`, `KeyedVM.State.Covers.trans` — covering is a preorder;
* `KeyedVM.State.merge_eq_ok_iff` — when states can be merged, and what comes out;
* `KeyedVM.State.merge_covers_stored`, `merge_covers_incoming` — a merge covers both its parts;
* `KeyedVM.State.merge_eq_stored` — a merge that changes nothing gives the stored state.
-/

namespace KeyedVM

namespace Provenance

/-- Every provenance is a part of itself. -/
lemma isSubset_refl (a : Provenance) : a.isSubset a = true :=
  isSubset_eq_true_iff.2 fun _ hx => hx

/-- A part of a part is a part. -/
lemma isSubset_trans {a b c : Provenance} (hab : a.isSubset b = true)
    (hbc : b.isSubset c = true) : a.isSubset c = true := by
  rw [isSubset_eq_true_iff] at hab hbc ⊢
  exact fun x hx => hbc x (hab x hx)

/-- The left part of a union. -/
lemma isSubset_union_left (a b : Provenance) : a.isSubset (a ∪ b) = true :=
  isSubset_eq_true_iff.2 fun _ hx => Std.ExtTreeSet.mem_union_iff.2 (Or.inl hx)

/-- The right part of a union. -/
lemma isSubset_union_right (a b : Provenance) : b.isSubset (a ∪ b) = true :=
  isSubset_eq_true_iff.2 fun _ hx => Std.ExtTreeSet.mem_union_iff.2 (Or.inr hx)

/-- A union that does not grow is the stored set. -/
lemma union_eq_of_grows_eq_false {stored incoming : Provenance}
    (h : stored.grows incoming = false) : stored ∪ incoming = stored := by
  by_contra hne
  rw [grows_eq_true_iff.2 hne] at h
  exact absurd h (by decide)

end Provenance

namespace State

/-- A state covers another one if it has the same open regions and the same depth, and each of its
slots and registers knows at least the producers that the other one knows. -/
structure Covers (stored state : State) : Prop where
  regions : stored.regions = state.regions
  stack : List.Forall₂ (fun slot value => value.isSubset slot = true) stored.stack state.stack
  registers : ∀ r, (state.registers.get r).isSubset (stored.registers.get r) = true

namespace Covers

/-- Every state covers itself. -/
lemma refl (state : State) : state.Covers state where
  regions := rfl
  stack := List.forall₂_same.2 fun slot _ => slot.isSubset_refl
  registers r := (state.registers.get r).isSubset_refl

/-- Covering is transitive. -/
lemma trans {a b c : State} (hab : a.Covers b) (hbc : b.Covers c) : a.Covers c where
  regions := hab.regions.trans hbc.regions
  stack := by
    have hstack : ∀ {as bs cs : List Provenance},
        List.Forall₂ (fun slot value => value.isSubset slot = true) as bs →
        List.Forall₂ (fun slot value => value.isSubset slot = true) bs cs →
        List.Forall₂ (fun slot value => value.isSubset slot = true) as cs := by
      intro as bs cs h₁ h₂
      induction h₁ generalizing cs with
      | nil => exact h₂
      | cons h _ ih =>
        cases h₂ with
        | cons h' hrest => exact .cons (Provenance.isSubset_trans h' h) (ih hrest)
    exact hstack hab.stack hbc.stack
  registers r := Provenance.isSubset_trans (hbc.registers r) (hab.registers r)

/-- A covering state has the same depth. -/
lemma depth_eq {a b : State} (h : a.Covers b) : a.depth = b.depth := h.stack.length_eq

end Covers

/-! ## Merging -/

/-- States can be merged exactly if their open regions and their depths agree.  The result has the
place, the key and the regions of the stored state and the united slots and registers. -/
lemma merge_eq_ok_iff {stored incoming : State} {merged : Merged} :
    stored.merge incoming = .ok merged ↔
      stored.regions = incoming.regions ∧ stored.stack.length = incoming.stack.length ∧
      merged.state = { stored with
        stack := stored.stack.zipWith (· ∪ ·) incoming.stack
        registers := stored.registers.zipWith (· ∪ ·) incoming.registers } ∧
      merged.changed = ((stored.stack.zipWith Provenance.grows incoming.stack).any id ||
        (stored.registers.zipWith Provenance.grows incoming.registers).any id) ∧
      merged.keyDiverged = (stored.key != incoming.key) := by
  rcases merged with ⟨state, changed, keyDiverged⟩
  by_cases hregions : stored.regions = incoming.regions
  · by_cases hdepth : stored.stack.length = incoming.stack.length
    · simp [merge, mergeStacks, mergeRegisters, hregions, hdepth, eq_comm]
    · simp [merge, mergeStacks, hregions, hdepth]
  · simp [merge, hregions]

/-- The slots of two stacks of the same depth are parts of the united slots. -/
lemma forall₂_zipWith_union {as bs : List Provenance} (h : as.length = bs.length) :
    List.Forall₂ (fun slot value => value.isSubset slot = true)
        (as.zipWith (· ∪ ·) bs) as ∧
      List.Forall₂ (fun slot value => value.isSubset slot = true)
        (as.zipWith (· ∪ ·) bs) bs := by
  induction as generalizing bs with
  | nil =>
    obtain rfl := List.length_eq_zero_iff.1 h.symm
    exact ⟨.nil, .nil⟩
  | cons a as ih =>
    obtain ⟨b, bs, rfl⟩ := List.exists_cons_of_length_eq_add_one h.symm
    obtain ⟨hleft, hright⟩ := ih (by simpa using h)
    exact ⟨.cons (a.isSubset_union_left b) hleft, .cons (a.isSubset_union_right b) hright⟩

/-- The result of a merge covers the stored state. -/
lemma merge_covers_stored {stored incoming : State} {merged : Merged}
    (h : stored.merge incoming = .ok merged) : merged.state.Covers stored := by
  obtain ⟨-, hdepth, hstate, -⟩ := merge_eq_ok_iff.1 h
  rw [hstate]
  refine ⟨rfl, (forall₂_zipWith_union hdepth).1, ?_⟩
  intro r
  rw [RegisterFile.get_zipWith]
  exact Provenance.isSubset_union_left _ _

/-- The result of a merge covers the incoming state. -/
lemma merge_covers_incoming {stored incoming : State} {merged : Merged}
    (h : stored.merge incoming = .ok merged) : merged.state.Covers incoming := by
  obtain ⟨hregions, hdepth, hstate, -⟩ := merge_eq_ok_iff.1 h
  rw [hstate]
  refine ⟨hregions, (forall₂_zipWith_union hdepth).2, ?_⟩
  intro r
  rw [RegisterFile.get_zipWith]
  exact Provenance.isSubset_union_right _ _

/-- A merge stays at the place of the stored state. -/
lemma merge_ip {stored incoming : State} {merged : Merged}
    (h : stored.merge incoming = .ok merged) : merged.state.ip = stored.ip := by
  obtain ⟨-, -, hstate, -⟩ := merge_eq_ok_iff.1 h
  rw [hstate]

/-- A merge keeps the key of the stored state. -/
lemma merge_key {stored incoming : State} {merged : Merged}
    (h : stored.merge incoming = .ok merged) : merged.state.key = stored.key := by
  obtain ⟨-, -, hstate, -⟩ := merge_eq_ok_iff.1 h
  rw [hstate]

/-- Slots that do not grow stay as they are. -/
lemma zipWith_union_eq {as bs : List Provenance} (hlength : as.length = bs.length)
    (h : (as.zipWith Provenance.grows bs).any id = false) : as.zipWith (· ∪ ·) bs = as := by
  induction as generalizing bs with
  | nil => rfl
  | cons a as ih =>
    obtain ⟨b, bs, rfl⟩ := List.exists_cons_of_length_eq_add_one hlength.symm
    simp only [List.zipWith_cons_cons, List.any_cons, id_eq, Bool.or_eq_false_iff] at h
    rw [List.zipWith_cons_cons, Provenance.union_eq_of_grows_eq_false h.1,
      ih (by simpa using hlength) h.2]

/-- A merge that changes nothing gives the stored state. -/
lemma merge_eq_stored {stored incoming : State} {merged : Merged}
    (h : stored.merge incoming = .ok merged) (hchanged : merged.changed = false) :
    merged.state = stored := by
  obtain ⟨-, hdepth, hstate, hgrown, -⟩ := merge_eq_ok_iff.1 h
  rw [hchanged, eq_comm, Bool.or_eq_false_iff] at hgrown
  have hregisters : stored.registers.zipWith (· ∪ ·) incoming.registers = stored.registers := by
    apply RegisterFile.ext_get
    intro r
    rw [RegisterFile.get_zipWith]
    apply Provenance.union_eq_of_grows_eq_false
    by_contra hr
    rw [Bool.not_eq_false] at hr
    have hany := RegisterFile.any_eq_true.2
      ⟨r, show id ((stored.registers.zipWith Provenance.grows incoming.registers).get r) = true
        by rw [RegisterFile.get_zipWith]; exact hr⟩
    rw [hgrown.2] at hany
    exact absurd hany (by decide)
  rw [hstate, zipWith_union_eq hdepth hgrown.1, hregisters]

end State

end KeyedVM
