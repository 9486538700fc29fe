import KeyedVM.Proofs.Inference.Runs
import Mathlib.Algebra.BigOperators.Group.Finset.Basic
import Mathlib.Algebra.GroupWithZero.Nat
import Mathlib.Algebra.Order.BigOperators.Group.Finset
import Mathlib.Data.FinEnum
import Mathlib.Data.Prod.Lex

set_option relaxedAutoImplicit false
set_option autoImplicit false

/-!
# What an analysis uses up

There are finitely many offsets.  A state that is stored at a new offset leaves fewer of them
unexplored, and a stored state that grows leaves fewer offsets to be added to its slots and
registers.  Both cannot go on forever, in this order of importance: a new state may have any number
of slots.  A step that does neither takes a state off the worklist and changes nothing else that
matters.

## Main definitions

* `KeyedVM.Provenance.room`, `KeyedVM.State.room` — how much a provenance or a state can grow;
* `KeyedVM.Run.potential` — what is left to be explored and to grow, in lexicographic order;
* `KeyedVM.Run.Advances` — a run has used up potential, or knows the same as before.

## Main results

* `KeyedVM.State.room_merge_lt` — a merge that changes a state leaves less room;
* `KeyedVM.Run.step_advances` — a step uses up potential or shortens the worklist;
* `KeyedVM.Run.drainWithin_advances` — so it is with all steps until the worklist is empty.
-/

namespace KeyedVM

/-! ## Room to grow -/

/-- How much a provenance can grow: the number of offsets that are not in it. -/
def Provenance.room (value : Provenance) : ℕ :=
  (Finset.univ.filter fun offset : Offset => offset ∉ value).card

/-- What is not in a union is not in its left part. -/
lemma Provenance.filter_union_subset (a b : Provenance) :
    (Finset.univ.filter fun offset : Offset => offset ∉ a ∪ b)
      ⊆ Finset.univ.filter fun offset : Offset => offset ∉ a := by
  intro offset hoffset
  rw [Finset.mem_filter, Std.ExtTreeSet.mem_union_iff, not_or] at hoffset
  exact Finset.mem_filter.2 ⟨hoffset.1, hoffset.2.1⟩

/-- A union has less room to grow than its left part, or the same. -/
lemma Provenance.room_union_le (a b : Provenance) : (a ∪ b).room ≤ a.room :=
  Finset.card_le_card (filter_union_subset a b)

/-- A union that adds something leaves less room. -/
lemma Provenance.room_union_lt {a b : Provenance} (h : a.grows b = true) :
    (a ∪ b).room < a.room := by
  obtain ⟨offset, hb, ha⟩ : ∃ offset ∈ b, offset ∉ a := by
    by_contra hnone
    push Not at hnone
    rw [grows, Bool.not_eq_true', ← Bool.not_eq_true, isSubset_eq_true_iff] at h
    exact h hnone
  refine Finset.card_lt_card
    ((Finset.ssubset_iff_of_subset (filter_union_subset a b)).2 ⟨offset, ?_, ?_⟩)
  · exact Finset.mem_filter.2 ⟨Finset.mem_univ offset, ha⟩
  · rw [Finset.mem_filter, Std.ExtTreeSet.mem_union_iff]
    exact fun hmem => hmem.2 (Or.inr hb)

/-- Uniting slots leaves less room to grow, or the same. -/
lemma sum_room_zipWith_le (as bs : List Provenance) :
    ((as.zipWith (· ∪ ·) bs).map Provenance.room).sum ≤ (as.map Provenance.room).sum := by
  induction as generalizing bs with
  | nil => simp
  | cons a as ih =>
    cases bs with
    | nil => simp
    | cons b bs =>
      simp only [List.zipWith_cons_cons, List.map_cons, List.sum_cons]
      exact Nat.add_le_add (a.room_union_le b) (ih bs)

/-- Uniting slots leaves less room to grow if one of them grows. -/
lemma sum_room_zipWith_lt {as bs : List Provenance}
    (h : (as.zipWith Provenance.grows bs).any id = true) :
    ((as.zipWith (· ∪ ·) bs).map Provenance.room).sum < (as.map Provenance.room).sum := by
  induction as generalizing bs with
  | nil => simp at h
  | cons a as ih =>
    cases bs with
    | nil => simp at h
    | cons b bs =>
      simp only [List.zipWith_cons_cons, List.map_cons, List.sum_cons]
      simp only [List.zipWith_cons_cons, List.any_cons, id_eq, Bool.or_eq_true] at h
      rcases h with hgrows | hrest
      · exact Nat.add_lt_add_of_lt_of_le (Provenance.room_union_lt hgrows)
          (sum_room_zipWith_le as bs)
      · exact Nat.add_lt_add_of_le_of_lt (a.room_union_le b) (ih hrest)

namespace State

/-- The provenances of a state: those of its stack slots and of its registers. -/
def slots (state : State) : List Provenance :=
  state.stack ++ Register.all.map state.registers.get

/-- How much a state can grow. -/
def room (state : State) : ℕ := (state.slots.map Provenance.room).sum

/-- A merge unites the slots, and it changes the state if one of them grows. -/
lemma slots_merge {stored incoming : State} {merged : Merged}
    (h : stored.merge incoming = .ok merged) :
    merged.state.slots = stored.slots.zipWith (· ∪ ·) incoming.slots ∧
      (stored.slots.zipWith Provenance.grows incoming.slots).any id = merged.changed := by
  obtain ⟨-, hdepth, hstate, hchanged, -⟩ := merge_eq_ok_iff.1 h
  have hregisters : ∀ {β : Type} (f : Provenance → Provenance → β),
      (Register.all.map stored.registers.get).zipWith f (Register.all.map incoming.registers.get)
        = Register.all.map (stored.registers.zipWith f incoming.registers).get := by
    intro β f
    rw [List.zipWith_map, List.zipWith_self]
    exact List.map_congr_left fun register _ => (RegisterFile.get_zipWith f _ _ register).symm
  constructor
  · rw [hstate, slots, slots, slots, List.zipWith_append hdepth, hregisters]
  · rw [slots, slots, List.zipWith_append hdepth, hregisters, List.any_append, List.any_map,
      hchanged]
    rfl

/-- **A merge that changes a state leaves less room.** -/
theorem room_merge_lt {stored incoming : State} {merged : Merged}
    (h : stored.merge incoming = .ok merged) (hchanged : merged.changed = true) :
    merged.state.room < stored.room := by
  obtain ⟨hslots, hgrows⟩ := slots_merge h
  rw [room, hslots, room]
  exact sum_room_zipWith_lt (hgrows.trans hchanged)

end State

/-! ## The potential of a run -/

/-- Storing again what is stored changes nothing. -/
lemma insert_eq_of_getElem? {states : Std.ExtTreeMap Offset State} {offset : Offset} {state : State}
    (h : states[offset]? = some state) : states.insert offset state = states := by
  refine Std.ExtTreeMap.ext_getElem? fun other => ?_
  rw [Std.ExtTreeMap.getElem?_insert]
  split
  · next heq => rw [← Std.LawfulEqOrd.eq_of_compare heq, h]
  · rfl

namespace Run

variable {context : Context} {run next last : Run}

/-- The number of offsets where no state is stored. -/
def unexplored (run : Run) : ℕ :=
  (Finset.univ.filter fun offset : Offset => offset ∉ run.states).card

/-- How much the stored states can grow. -/
def room (run : Run) : ℕ :=
  ∑ offset : Offset, (run.states[offset]?.map State.room).getD 0

/-- What is left to be explored, and then what is left to grow. -/
def potential (run : Run) : ℕ ×ₗ ℕ := toLex (run.unexplored, run.room)

/-- The potential depends on the stored states only. -/
lemma potential_congr (h : next.states = run.states) : next.potential = run.potential := by
  rw [potential, potential, unexplored, unexplored, room, room, h]

/-- Storing a state at a new offset uses up potential. -/
lemma potential_store {offset : Offset} {state : State} (hnew : run.states[offset]? = none)
    (hnext : next.states = run.states.insert offset state) : next.potential < run.potential := by
  have hunknown : offset ∉ run.states := by
    rw [Std.ExtTreeMap.mem_iff_isSome_getElem?, hnew]
    exact Bool.false_ne_true
  refine Prod.Lex.left _ _ (Finset.card_lt_card ((Finset.ssubset_iff_of_subset ?_).2
    ⟨offset, ?_, ?_⟩))
  · intro other hother
    rw [Finset.mem_filter, hnext, Std.ExtTreeMap.mem_insert, not_or] at hother
    exact Finset.mem_filter.2 ⟨hother.1, hother.2.2⟩
  · exact Finset.mem_filter.2 ⟨Finset.mem_univ offset, hunknown⟩
  · rw [Finset.mem_filter, hnext]
    exact fun hmem => hmem.2 Std.ExtTreeMap.mem_insert_self

/-- A stored state that has grown uses up potential. -/
lemma potential_grow {offset : Offset} {stored state : State}
    (hstored : run.states[offset]? = some stored) (hroom : state.room < stored.room)
    (hnext : next.states = run.states.insert offset state) : next.potential < run.potential := by
  have hknown : offset ∈ run.states := by
    rw [Std.ExtTreeMap.mem_iff_isSome_getElem?, hstored]
    rfl
  have hsame : next.unexplored = run.unexplored := by
    refine congrArg Finset.card (Finset.filter_congr fun other _ => ?_)
    rw [hnext, Std.ExtTreeMap.mem_insert, not_iff_not]
    refine ⟨fun hor => hor.elim (fun heq => ?_) id, Or.inr⟩
    exact Std.LawfulEqOrd.eq_of_compare heq ▸ hknown
  have hless : next.room < run.room := by
    refine Finset.sum_lt_sum (fun other _ => ?_) ⟨offset, Finset.mem_univ offset, ?_⟩
    · rw [hnext, Std.ExtTreeMap.getElem?_insert]
      split
      · next heq =>
        rw [← Std.LawfulEqOrd.eq_of_compare heq, hstored]
        exact Nat.le_of_lt hroom
      · exact Nat.le_refl _
    · rw [hnext, Std.ExtTreeMap.getElem?_insert_self, hstored]
      exact hroom
  rw [potential, potential, hsame]
  exact Prod.Lex.right _ hless

/-- A run has used up potential, or it knows the same as before. -/
def Advances (run next : Run) : Prop :=
  next.potential < run.potential ∨ next.states = run.states ∧ next.findings = run.findings

/-- A run has advanced, at least not at all, from itself. -/
lemma Advances.refl (run : Run) : run.Advances run := Or.inr ⟨rfl, rfl⟩

/-- Advances add up. -/
lemma Advances.trans (h : run.Advances next) (h' : next.Advances last) : run.Advances last := by
  rcases h' with hlt' | ⟨hstates', hfindings'⟩
  · rcases h with hlt | ⟨hstates, -⟩
    · exact Or.inl (hlt'.trans hlt)
    · rw [potential_congr hstates] at hlt'
      exact Or.inl hlt'
  · rcases h with hlt | ⟨hstates, hfindings⟩
    · rw [← potential_congr hstates'] at hlt
      exact Or.inl hlt
    · exact Or.inr ⟨hstates'.trans hstates, hfindings'.trans hfindings⟩

/-! ## Steps -/

/-- Visiting a state leaves the stored states alone. -/
lemma visit_states {state : State} (h : run.visit context state = .ok next) :
    next.states = run.states := by
  obtain ⟨finding, effects, -, hcommit⟩ := visit_eq_ok_iff.1 h
  obtain ⟨-, rfl⟩ := commit_eq_ok_iff.1 hcommit
  exact absorb_states finding effects

/-- **A step uses up potential, or it shortens the worklist** and leaves the states and the findings
alone. -/
theorem step_advances (h : run.step context = .ok (some next)) :
    next.potential < run.potential ∨ next.states = run.states ∧ next.findings = run.findings ∧
      next.queue.length < run.queue.length := by
  obtain ⟨incoming, rest, hqueue, -, harrive⟩ := step_cases h
  obtain ⟨hnew, hnext⟩ | ⟨stored, merged, hstored, hmerge, hchanged, rfl⟩ |
    ⟨stored, merged, hstored, hmerge, hchanged, hnext⟩ := arrive_cases harrive
  · exact Or.inl (potential_store hnew (visit_states hnext))
  · refine Or.inr ⟨?_, joined_findings incoming merged, ?_⟩
    · rw [joined_states, State.merge_eq_stored hmerge hchanged]
      exact insert_eq_of_getElem? hstored
    · rw [joined_queue, hqueue, List.length_cons]
      exact Nat.lt_succ_self _
  · refine Or.inl (potential_grow hstored (State.room_merge_lt hmerge hchanged) ?_)
    rw [visit_states hnext, joined_states]

/-- **Working until the worklist is empty uses up potential**, or it changes neither the states nor
the findings. -/
theorem drainWithin_advances {rounds : Nat} (h : run.drainWithin context rounds = .ok next) :
    run.Advances next := by
  induction rounds generalizing run with
  | zero => cases h
  | succ rounds ih =>
    simp only [drainWithin, bind_eq_ok_iff] at h
    obtain ⟨step?, hstep, h⟩ := h
    cases step? with
    | none =>
      rw [pure_eq_ok_iff.1 h]
      exact .refl next
    | some middle =>
      refine Advances.trans ?_ (ih h)
      rcases step_advances hstep with hless | ⟨hstates, hfindings, -⟩
      · exact Or.inl hless
      · exact Or.inr ⟨hstates, hfindings⟩

end Run

end KeyedVM
