import KeyedVM.Proofs.Inference.Agreement
import KeyedVM.Proofs.Inference.Fixpoint
import KeyedVM.Proofs.Inference.Potential

set_option relaxedAutoImplicit false
set_option autoImplicit false

/-!
# Revalidation settles

Executing every stored state once more may change meanings, but nothing that an evaluation looks at.
So whatever is executed during a revalidation would come out the same at its end: afterwards all
stored states are settled.  If the worklist is then emptied and no potential is used up, they stay
settled, and the next revalidation changes nothing.  A meaning can therefore not change back and
forth: after a revalidation that changes one, either potential is used up or the analysis ends.

## Main definitions

* `KeyedVM.Run.work` — what is left to be done: the potential, and then whether all is settled.

## Main results

* `KeyedVM.Run.revalidate_settles` — after a revalidation all stored states are settled;
* `KeyedVM.Run.round_descends` — a round of the outer loop that is not the last leaves less to be
  done.
-/

namespace KeyedVM

namespace Run

variable {context : Context} {log : Log} {run drained next : Run}

/-! ## Revalidation -/

/-- Executing a stored state once more leaves the stored states alone. -/
lemma recheck_states {offset : Offset} {changed : Bool}
    (h : run.recheck context offset = .ok (changed, next)) : next.states = run.states := by
  obtain ⟨-, rfl, -⟩ | ⟨-, _, finding, effects, -, -, hcommit⟩ := recheck_cases h
  · rfl
  · obtain ⟨-, rfl⟩ := commit_eq_ok_iff.1 hcommit
    exact absorb_states finding effects

/-- A state stays settled if nothing changes that an evaluation looks at, nor the meaning at its
offset. -/
lemma SettledAt.mono {offset : Offset} (h : run.SettledAt context offset)
    (hstates : next.states = run.states) (hfindings : run.findings.Agree next.findings)
    (hoffset : next.findings[offset]? = run.findings[offset]?) :
    next.SettledAt context offset := by
  intro state hstate
  rw [hstates] at hstate
  obtain ⟨finding, effects, hexecute, hmeaning⟩ := h state hstate
  rw [Context.execute_congr hfindings] at hexecute
  exact ⟨finding, effects, hexecute, hoffset ▸ hmeaning⟩

/-- **Executing a stored state once more settles it**, and leaves settled what is settled, because
it changes nothing that an evaluation looks at. -/
lemma recheck_settles {offset other : Offset} {changed : Bool} (hrun : Reachable context log run)
    (h : run.recheck context offset = .ok (changed, next))
    (hor : other = offset ∨ run.SettledAt context other) : next.SettledAt context other := by
  obtain ⟨-, rfl, hsettled⟩ | ⟨-, state, finding, effects, hstate, hexecute, hcommit⟩ :=
    recheck_cases h
  · rcases hor with rfl | hother
    · exact hsettled
    · exact hother
  · obtain ⟨-, rfl⟩ := commit_eq_ok_iff.1 hcommit
    obtain ⟨rfl, earlier, known, _, hknown, hearlier, -⟩ :=
      (hrun.traced.offsets offset).executed state hstate
    have hoffset := offset_of_execute hexecute
    -- what was recorded before came from the same state, on other findings
    have hagree : run.findings.Agree (run.findings.insert finding.offset finding) :=
      .insert (hoffset ▸ hknown) (Context.execute_agrees hearlier hexecute)
    by_cases hhere : other = state.ip
    · subst hhere
      intro state' hstate'
      rw [absorb_states] at hstate'
      obtain rfl : state = state' := Option.some.inj (hstate.symm.trans hstate')
      refine ⟨finding, effects, ?_, ?_⟩
      · rw [absorb_findings, ← hexecute]
        exact (Context.execute_congr hagree state).symm
      · rw [absorb_findings, hoffset, Std.ExtTreeMap.getElem?_insert_self]
        rfl
    · refine (hor.resolve_left hhere).mono (absorb_states _ _) ?_ ?_
      · rw [absorb_findings]
        exact hagree
      · rw [absorb_findings, Std.ExtTreeMap.getElem?_insert, hoffset, if_neg]
        exact fun heq => hhere (Std.LawfulEqOrd.eq_of_compare heq).symm

/-- Executing the states at some offsets once more settles these offsets and unsettles no other
one. -/
lemma recheckAll_settles {offsets : List Offset} {changed changed' : Bool}
    (hrun : Reachable context log run)
    (h : run.recheckAll context changed offsets = .ok (changed', next)) :
    next.states = run.states ∧
      ∀ other, other ∈ offsets ∨ run.SettledAt context other → next.SettledAt context other := by
  induction offsets generalizing run changed with
  | nil =>
    obtain ⟨-, rfl⟩ := Prod.mk.inj (Except.ok.inj h)
    exact ⟨rfl, fun other hor => hor.resolve_left List.not_mem_nil⟩
  | cons offset rest ih =>
    simp only [recheckAll, bind_eq_ok_iff, Prod.exists] at h
    obtain ⟨stale, middle, hstale, h⟩ := h
    obtain ⟨hstates, hrest⟩ := ih (hrun.recheck hstale) h
    refine ⟨hstates.trans (recheck_states hstale), fun other hor => hrest other ?_⟩
    rw [List.mem_cons, or_assoc] at hor
    rcases hor with hhere | hlater | hsettled
    · exact Or.inr (recheck_settles hrun hstale (Or.inl hhere))
    · exact Or.inl hlater
    · exact Or.inr (recheck_settles hrun hstale (Or.inr hsettled))

/-- **After a revalidation all stored states are settled.** -/
theorem revalidate_settles {changed : Bool} (hrun : Reachable context log run)
    (h : run.revalidate context = .ok (changed, next)) :
    next.states = run.states ∧ next.Settled context := by
  obtain ⟨hstates, hsettles⟩ := recheckAll_settles hrun h
  refine ⟨hstates, fun offset => hsettles offset ?_⟩
  by_cases hmem : offset ∈ run.states
  · exact Or.inl (Std.ExtTreeMap.mem_keys.2 hmem)
  · refine Or.inr fun state hstate => absurd ?_ hmem
    rw [Std.ExtTreeMap.mem_iff_isSome_getElem?, hstate]
    rfl

/-- Executing a settled state once more changes nothing but the number of iterations. -/
lemma recheck_of_settledAt {offset : Offset} {changed : Bool}
    (hsettled : run.SettledAt context offset)
    (h : run.recheck context offset = .ok (changed, next)) :
    changed = false ∧ next = { run with iterations := run.iterations + 1 } := by
  simp only [recheck, bind_eq_ok_iff, tick_eq_ok_iff] at h
  obtain ⟨_, ⟨-, rfl⟩, h⟩ := h
  split at h
  · obtain ⟨rfl, rfl⟩ := Prod.mk.inj (pure_eq_ok_iff.1 h)
    exact ⟨rfl, rfl⟩
  · next state hstate =>
    obtain ⟨finding, effects, hexecute, hmeaning⟩ := hsettled state hstate
    simp only [bind_eq_ok_iff, attempt_eq_ok_iff, Prod.exists] at h
    obtain ⟨finding', effects', hexecute', h⟩ := h
    obtain ⟨rfl, rfl⟩ := Prod.mk.inj (Except.ok.inj (hexecute.symm.trans hexecute'))
    rw [if_neg (not_not_intro hmeaning)] at h
    obtain ⟨rfl, rfl⟩ := Prod.mk.inj (pure_eq_ok_iff.1 h)
    exact ⟨rfl, rfl⟩

/-- Executing settled states once more changes no meaning. -/
lemma recheckAll_of_settled {offsets : List Offset} {changed changed' : Bool}
    (hsettled : run.Settled context)
    (h : run.recheckAll context changed offsets = .ok (changed', next)) : changed' = changed := by
  induction offsets generalizing run changed with
  | nil => exact (Prod.mk.inj (Except.ok.inj h)).1.symm
  | cons offset rest ih =>
    simp only [recheckAll, bind_eq_ok_iff, Prod.exists] at h
    obtain ⟨stale, middle, hstale, h⟩ := h
    obtain ⟨rfl, rfl⟩ := recheck_of_settledAt (hsettled offset) hstale
    have hticked : Settled context { run with iterations := run.iterations + 1 } := hsettled
    rw [ih hticked h, Bool.or_false]

/-! ## Rounds of the outer loop -/

open Classical in
/-- What is left to be done: the potential, and then whether a state is unsettled. -/
noncomputable def work (context : Context) (run : Run) : (ℕ ×ₗ ℕ) ×ₗ ℕ :=
  toLex (run.potential, if run.Settled context then 0 else 1)

/-- **A round of the outer loop that is not the last leaves less to be done.**

**Proof sketch.** If emptying the worklist uses up potential, this is so because revalidation leaves
the stored states alone.  Otherwise the revalidation finds the run as it was, and since it changes a
meaning the run was not settled; but it is at the end. -/
theorem round_descends (hrun : Reachable context log run)
    (hdrain : run.drain context = .ok drained)
    (hcheck : drained.revalidate context = .ok (true, next)) :
    next.work context < run.work context := by
  obtain ⟨hdrained, -⟩ := drainWithin_eq_ok hrun hdrain
  obtain ⟨hstates, hsettled⟩ := revalidate_settles hdrained hcheck
  have hpotential : next.potential = drained.potential := potential_congr hstates
  rcases drainWithin_advances hdrain with hless | ⟨hsame, hfindings⟩
  · rw [← hpotential] at hless
    exact Prod.Lex.left _ _ hless
  · have hunsettled : ¬ run.Settled context := by
      intro hrest
      have hrest' : drained.Settled context := fun offset =>
        (hrest offset).mono hsame (hfindings ▸ .refl _) (by rw [hfindings])
      exact absurd (recheckAll_of_settled hrest' hcheck) (by decide)
    rw [work, work, hpotential, potential_congr hsame, if_pos hsettled, if_neg hunsettled]
    exact Prod.Lex.right _ Nat.zero_lt_one

end Run

end KeyedVM
