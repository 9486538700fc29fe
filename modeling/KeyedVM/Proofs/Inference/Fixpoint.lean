import KeyedVM.Proofs.ByteTable.Sequential
import KeyedVM.Proofs.Decoding
import KeyedVM.Proofs.Inference.Logging

set_option relaxedAutoImplicit false
set_option autoImplicit false

/-!
# The result of an analysis is a fixpoint

An analysis ends with findings that reproduce themselves: executing a stored state once more finds
the same instruction with the same meaning, and every state it leads to is covered by the state
stored where it leads.  The key stored there is that of the arriving state, unless a divergence
was reported.

The invariant of a run is that every recorded instruction was obtained by executing its stored
state on some earlier findings, and that each of the states it led to is still on the worklist or
has arrived.  At the end the worklist is empty, and since executing the stored states once more
finds the recorded meanings, the earlier findings can be replaced by the final ones.

## Main definitions

* `KeyedVM.Context.divergence` — the report about a path that arrives with another key;
* `KeyedVM.Run.Awaited` — a state is on the worklist or has arrived;
* `KeyedVM.Run.Traced` — the invariant of a run.

## Main results

* `KeyedVM.Run.Reachable.traced` — the invariant holds along every analysis;
* `KeyedVM.Context.infer_isFixpoint` — the result of an analysis is a fixpoint.
-/

namespace KeyedVM

/-- The report about a path that arrives at an offset with another key than the stored one. -/
def Context.divergence (context : Context) (offset : Offset) (incoming stored : Key) :
    Diagnostic where
  severity := .warning
  topic := .inference
  notice := .keyDiverged incoming stored
  exportId? := some context.subject.id
  offset? := some offset

/-- A report is in the log if its severity is kept at all. -/
def Log.Keeps (log : Log) (diagnostic : Diagnostic) : Prop :=
  log.enabled diagnostic.severity = true → diagnostic ∈ log.entries

/-- A log that extends another one keeps what that one keeps. -/
lemma Log.Extends.keeps {later earlier : Log} {diagnostic : Diagnostic}
    (h : later.Extends earlier) (hkeeps : earlier.Keeps diagnostic) : later.Keeps diagnostic := by
  intro henabled
  rw [enabled, h.threshold] at henabled
  exact h.entries _ (hkeeps henabled)

namespace Run

variable {context : Context} {log : Log} {run next base : Run}

/-! ## The invariant -/

/-- A state has arrived: the state stored at its offset covers it, and its key is the stored one
unless the divergence was reported. -/
def Arrived (context : Context) (run : Run) (state : State) : Prop :=
  ∃ stored, run.states[state.ip]? = some stored ∧ stored.Covers state ∧
    (stored.key = state.key ∨
      run.log.Keeps (context.divergence state.ip state.key stored.key))

/-- A state is still on the worklist or has arrived. -/
def Awaited (context : Context) (run : Run) (state : State) : Prop :=
  state ∈ run.queue ∨ run.Arrived context state

/-- What is known at one offset fits together: a state is stored where an instruction is recorded
and the other way round, and the instruction is the outcome of executing the state, on earlier
findings, where every state this led to is awaited. -/
structure TracedAt (context : Context) (run : Run) (offset : Offset) : Prop where
  stored : ∀ finding, run.findings[offset]? = some finding →
    ∃ state, run.states[offset]? = some state
  executed : ∀ state, run.states[offset]? = some state → state.ip = offset ∧
    ∃ findings finding effects, run.findings[offset]? = some finding ∧
      context.execute findings state = .ok (finding, effects) ∧
      ∀ successor ∈ effects.successors, run.Awaited context successor

/-- The invariant of a run. -/
structure Traced (context : Context) (run : Run) : Prop where
  entry : run.Awaited context (.initial context.subject.offset context.entryKey)
  offsets : ∀ offset, run.TracedAt context offset

/-- What is known at an offset still fits together if only other offsets change and no state is
lost. -/
lemma TracedAt.mono {offset : Offset} (h : run.TracedAt context offset)
    (hstates : next.states[offset]? = run.states[offset]?)
    (hfindings : next.findings[offset]? = run.findings[offset]?)
    (hawaited : ∀ state, run.Awaited context state → next.Awaited context state) :
    next.TracedAt context offset := by
  refine ⟨fun finding hf => ?_, fun state hs => ?_⟩
  · rw [hstates]
    exact h.stored finding (hfindings ▸ hf)
  · obtain ⟨hip, findings, finding, effects, hf, hexecute, hsucc⟩ :=
      h.executed state (hstates ▸ hs)
    exact ⟨hip, findings, finding, effects, hfindings ▸ hf, hexecute,
      fun successor hmem => hawaited successor (hsucc successor hmem)⟩

/-! ## One step keeps the invariant -/

/-- Executing a state records the instruction at the place of the state. -/
lemma offset_of_execute {findings : Findings} {state : State} {finding : Finding}
    {effects : Effects} (h : context.execute findings state = .ok (finding, effects)) :
    finding.offset = state.ip := by
  obtain ⟨instruction, key, hdecode, -, rfl⟩ := Context.execute_eq_ok_iff.1 h
  exact offset_of_decodeAt hdecode

/-- The instruction that an execution finds is decoded at the place of the state, with its key. -/
lemma decodeAt_of_execute {findings : Findings} {state : State} {finding : Finding}
    {effects : Effects} (h : context.execute findings state = .ok (finding, effects)) :
    ∃ key, decodeAt context.image.table context.image.blob state.ip state.key
      = .ok (finding.toInstruction, key) := by
  obtain ⟨instruction, key, hdecode, -, rfl⟩ := Context.execute_eq_ok_iff.1 h
  exact ⟨key, hdecode⟩

/-- Executing a state records the state. -/
lemma state_of_execute {findings : Findings} {state : State} {finding : Finding}
    {effects : Effects} (h : context.execute findings state = .ok (finding, effects)) :
    finding.state = state := by
  obtain ⟨_, _, -, -, rfl⟩ := Context.execute_eq_ok_iff.1 h
  rfl

/-- Taking over an execution loses no state. -/
lemma Awaited.absorb {state : State} (h : run.Awaited context state) (finding : Finding)
    (effects : Effects) : (run.absorb context finding effects).Awaited context state := by
  rcases h with hqueue | ⟨stored, hstored, hcovers, hkey⟩
  · exact Or.inl (by rw [absorb_queue]; exact List.mem_append_left _ hqueue)
  · refine Or.inr ⟨stored, by rw [absorb_states]; exact hstored, hcovers, ?_⟩
    exact hkey.imp id (absorb_extends finding effects).keeps

/-- Executing the state stored at an offset and taking over the result makes what is known there
fit together, and leaves the other offsets alone. -/
lemma tracedAt_absorb {state : State} {finding : Finding} {effects : Effects}
    (hstate : base.states[state.ip]? = some state)
    (hexecute : context.execute base.findings state = .ok (finding, effects))
    (hothers : ∀ offset, offset ≠ state.ip → base.TracedAt context offset) (offset : Offset) :
    (base.absorb context finding effects).TracedAt context offset := by
  have hoffset := offset_of_execute hexecute
  by_cases ho : offset = state.ip
  · subst ho
    refine ⟨fun _ _ => ⟨state, by rw [absorb_states]; exact hstate⟩, fun state' hs => ?_⟩
    rw [absorb_states, hstate, Option.some.injEq] at hs
    subst hs
    refine ⟨rfl, base.findings, finding, effects, ?_, hexecute, fun successor hmem => ?_⟩
    · rw [absorb_findings, hoffset, Std.ExtTreeMap.getElem?_insert_self]
    · exact Or.inl (by rw [absorb_queue]; exact List.mem_append_right _ hmem)
  · refine (hothers offset ho).mono (by rw [absorb_states]) ?_ fun state h => h.absorb _ _
    rw [absorb_findings, hoffset, Std.ExtTreeMap.getElem?_insert, if_neg]
    simpa using fun h => ho h.symm

/-- Storing a state that covers the first one of the worklist and the one stored before loses no
state.

**Proof sketch.** The first state of the worklist has now arrived.  The other states of the
worklist are still there.  A state that had arrived before is covered by the state that was stored
there, hence by the new one. -/
lemma Awaited.store {incoming kept state : State} {rest : List State}
    (h : run.Awaited context state) (hqueue : run.queue = incoming :: rest)
    (hbase : base.queue = rest) (hstates : base.states = run.states.insert incoming.ip kept)
    (hlog : base.log.Extends run.log) (hincoming : kept.Covers incoming)
    (hkey : kept.key = incoming.key ∨
      base.log.Keeps (context.divergence incoming.ip incoming.key kept.key))
    (hstored : ∀ stored, run.states[incoming.ip]? = some stored →
      kept.Covers stored ∧ kept.key = stored.key) :
    base.Awaited context state := by
  have hkept : base.states[incoming.ip]? = some kept := by
    rw [hstates, Std.ExtTreeMap.getElem?_insert_self]
  rcases h with hmem | ⟨stored, hs, hcovers, hk⟩
  · rw [hqueue, List.mem_cons] at hmem
    rcases hmem with rfl | hmem
    · exact Or.inr ⟨kept, hkept, hincoming, hkey⟩
    · exact Or.inl (hbase ▸ hmem)
  · by_cases hip : state.ip = incoming.ip
    · rw [hip] at hs hk
      obtain ⟨hcovers', hkey'⟩ := hstored stored hs
      refine Or.inr ⟨kept, by rw [hip]; exact hkept, hcovers'.trans hcovers, ?_⟩
      rw [hip, hkey']
      exact hk.imp id hlog.keeps
    · refine Or.inr ⟨stored, ?_, hcovers, hk.imp id hlog.keeps⟩
      rw [hstates, Std.ExtTreeMap.getElem?_insert, if_neg]
      · exact hs
      · simpa using fun h => hip h.symm

/-- Visiting the state stored at an offset restores the invariant, if it holds elsewhere. -/
lemma traced_visit {state : State} (hstate : base.states[state.ip]? = some state)
    (hentry : base.Awaited context (.initial context.subject.offset context.entryKey))
    (hothers : ∀ offset, offset ≠ state.ip → base.TracedAt context offset)
    (h : base.visit context state = .ok next) : next.Traced context := by
  obtain ⟨finding, effects, hexecute, hcommit⟩ := visit_eq_ok_iff.1 h
  obtain ⟨-, rfl⟩ := commit_eq_ok_iff.1 hcommit
  exact ⟨hentry.absorb finding effects, tracedAt_absorb hstate hexecute hothers⟩

/-- After a merge the key is that of the incoming state, or the divergence was reported. -/
lemma joined_keeps {stored incoming : State} {merged : State.Merged}
    (h : stored.merge incoming = .ok merged) : merged.state.key = incoming.key ∨
      (run.joined context incoming merged).log.Keeps
        (context.divergence incoming.ip incoming.key merged.state.key) := by
  obtain ⟨-, -, -, -, hdiverged⟩ := State.merge_eq_ok_iff.1 h
  rw [State.merge_key h]
  by_cases hkey : stored.key = incoming.key
  · exact Or.inl hkey
  · apply Or.inr
    intro henabled
    have hjoined : (run.joined context incoming merged).log = run.log.push
        (context.divergence incoming.ip incoming.key stored.key) := by
      rw [joined, hdiverged, if_pos (bne_iff_ne.2 hkey), State.merge_key h]
      rfl
    rw [hjoined] at henabled ⊢
    rw [Log.enabled, (run.log.push_extends _).threshold] at henabled
    exact Log.mem_push henabled

/-- Letting the first state of the worklist arrive keeps the invariant. -/
lemma Traced.arrive {incoming : State} {rest : List State} {iterations : Nat}
    (h : run.Traced context) (hqueue : run.queue = incoming :: rest)
    (harrive : { run with queue := rest, iterations }.arrive context incoming = .ok next) :
    next.Traced context := by
  rcases arrive_cases harrive with ⟨hnew, hvisit⟩ | ⟨stored, merged, hstored, hmerge, hsame, rfl⟩ |
    ⟨stored, merged, hstored, hmerge, -, hvisit⟩
  · -- the first state at its offset
    have hawaited : ∀ state, run.Awaited context state →
        { run with queue := rest, iterations, states := run.states.insert incoming.ip incoming
          }.Awaited context state := fun state hstate =>
      hstate.store hqueue rfl rfl (Log.Extends.refl _) (.refl incoming) (Or.inl rfl)
        fun stored hs => absurd (hnew.symm.trans hs) (by simp)
    refine traced_visit Std.ExtTreeMap.getElem?_insert_self (hawaited _ h.entry)
      (fun offset ho => (h.offsets offset).mono ?_ rfl hawaited) hvisit
    rw [Std.ExtTreeMap.getElem?_insert, if_neg]
    simpa using fun h => ho h.symm
  all_goals
    have hawaited : ∀ state, run.Awaited context state →
        ({ run with queue := rest, iterations }.joined context incoming merged).Awaited context
          state := by
      intro state hstate
      refine hstate.store hqueue (by rw [joined_queue]) (by rw [joined_states])
        (joined_extends incoming merged) (State.merge_covers_incoming hmerge)
        (joined_keeps hmerge) fun stored' hs => ?_
      obtain rfl : stored = stored' := Option.some.inj (hstored.symm.trans hs)
      exact ⟨State.merge_covers_stored hmerge, State.merge_key hmerge⟩
  · -- nothing has grown, so the stored state stays
    refine ⟨hawaited _ h.entry, fun offset => (h.offsets offset).mono ?_
      (by rw [joined_findings]) hawaited⟩
    rw [joined_states, State.merge_eq_stored hmerge hsame, Std.ExtTreeMap.getElem?_insert]
    split
    · next heq => rw [← Std.LawfulEqOrd.eq_of_compare heq]; exact hstored.symm
    · rfl
  · have hip : merged.state.ip = incoming.ip := by
      rw [State.merge_ip hmerge]
      exact ((h.offsets incoming.ip).executed stored hstored).1
    refine traced_visit (by rw [hip, joined_states, Std.ExtTreeMap.getElem?_insert_self])
      (hawaited _ h.entry)
      (fun offset ho => (h.offsets offset).mono ?_ (by rw [joined_findings]) hawaited) hvisit
    rw [hip] at ho
    rw [joined_states, Std.ExtTreeMap.getElem?_insert, if_neg]
    simpa using fun h => ho h.symm

/-- Executing a stored state once more keeps the invariant. -/
lemma Traced.recheck {offset : Offset} {changed : Bool} (h : run.Traced context)
    (hrecheck : run.recheck context offset = .ok (changed, next)) : next.Traced context := by
  -- counting an iteration changes nothing that the invariant speaks about
  have hticked : { run with iterations := run.iterations + 1 }.Traced context :=
    ⟨h.entry, fun offset => (h.offsets offset).mono rfl rfl fun _ hstate => hstate⟩
  obtain ⟨-, rfl, -⟩ | ⟨-, state, finding, effects, hstate, hexecute, hcommit⟩ :=
    recheck_cases hrecheck
  · exact hticked
  · obtain ⟨-, rfl⟩ := commit_eq_ok_iff.1 hcommit
    have hip := ((h.offsets offset).executed state hstate).1
    exact ⟨hticked.entry.absorb finding effects, tracedAt_absorb (hip ▸ hstate) hexecute
      fun offset _ => hticked.offsets offset⟩

/-- **The invariant holds along every analysis.** -/
theorem Reachable.traced (h : Reachable context log run) : run.Traced context := by
  induction h with
  | seed =>
    refine ⟨Or.inl (by simp [Run.seed]), fun offset => ⟨fun finding hf => ?_, fun state hs => ?_⟩⟩
    · simp [Run.seed] at hf
    · simp [Run.seed] at hs
  | step _ hstep ih =>
    obtain ⟨incoming, rest, hqueue, -, harrive⟩ := step_cases hstep
    exact ih.arrive hqueue harrive
  | recheck _ hrecheck ih => exact ih.recheck hrecheck

/-! ## The end of an analysis -/

/-- A recorded instruction was obtained by executing the state that is stored at its offset, on some
findings, and every state this led to is awaited. -/
lemma Traced.exists_execution (h : run.Traced context) {offset : Offset} {finding : Finding}
    (hfinding : run.findings[offset]? = some finding) : finding.state.ip = offset ∧
      run.states[offset]? = some finding.state ∧ ∃ findings effects,
        context.execute findings finding.state = .ok (finding, effects) ∧
        ∀ successor ∈ effects.successors, run.Awaited context successor := by
  obtain ⟨state, hstate⟩ := (h.offsets offset).stored finding hfinding
  obtain ⟨hip, findings, finding', effects, hfinding', hexecute, hsuccessors⟩ :=
    (h.offsets offset).executed state hstate
  obtain rfl : finding = finding' := Option.some.inj (hfinding.symm.trans hfinding')
  obtain rfl := state_of_execute hexecute
  exact ⟨hip, hstate, findings, effects, hexecute, hsuccessors⟩

/-- Where a state has arrived an instruction is recorded, and its state covers the arrived one. -/
lemma Traced.exists_finding (h : run.Traced context) {state : State}
    (harrived : run.Arrived context state) : ∃ target,
      run.findings[state.ip]? = some target ∧ target.state.Covers state ∧
      (target.state.key = state.key ∨
        run.log.Keeps (context.divergence state.ip state.key target.state.key)) := by
  obtain ⟨stored, hstored, hcovers, hkey⟩ := harrived
  obtain ⟨-, _, target, _, htarget, hexecute, -⟩ :=
    (h.offsets state.ip).executed stored hstored
  obtain ⟨_, _, -, -, rfl⟩ := Context.execute_eq_ok_iff.1 hexecute
  exact ⟨_, htarget, hcovers, hkey⟩

/-- At the end of an analysis, what was recorded on earlier findings holds on the final ones.

**Proof sketch.** The stored state was executed on earlier findings and on the final ones, with
the same meaning.  Since it does not open a protected region, both executions are the same
(`Context.execute_unique`). -/
lemma Traced.execute_eq_ok (h : run.Traced context) (hqueue : run.queue = [])
    (hsettled : run.Settled context) {offset : Offset} {finding : Finding}
    (hfinding : run.findings[offset]? = some finding) (hopcode : finding.opcode ≠ .enter) :
    ∃ effects, context.execute run.findings finding.state = .ok (finding, effects) ∧
      ∀ successor ∈ effects.successors, run.Arrived context successor := by
  obtain ⟨-, hstate, findings, effects, hexecute, hsuccessors⟩ := h.exists_execution hfinding
  obtain ⟨last, effects', hlast, hmeaning⟩ := hsettled offset finding.state hstate
  rw [hfinding, Option.map_some, Option.some.injEq] at hmeaning
  obtain ⟨rfl, rfl⟩ := Context.execute_unique hexecute hlast hmeaning hopcode
  refine ⟨effects, hlast, ?_⟩
  intro successor hmem
  apply (hsuccessors successor hmem).resolve_left
  rw [hqueue]
  exact List.not_mem_nil

end Run

namespace Context

variable {context : Context} {log : Log} {inference : Inference}

/-- A log that keeps everything has every report that the run has made. -/
lemma mem_reports {run : Run} {diagnostic : Diagnostic}
    (hreachable : Run.Reachable context (context.announce (.withThreshold .debug)
      (.started context.subject.id context.subject.offset context.entryKey)) run)
    (hlog : (context.infer (.withThreshold .debug)).1.Extends run.log)
    (h : run.log.Keeps diagnostic) : diagnostic ∈ context.reports := by
  have hthreshold : run.log.threshold = .debug :=
    hreachable.log_extends.threshold.trans (Log.push_extends _ _).threshold
  refine Array.mem_toList_iff.2 (hlog.entries _ (h ?_))
  rw [Log.enabled, hthreshold]
  cases diagnostic.severity <;> decide

/-- The result of an analysis covers the entry. -/
lemma exists_entry (h : (context.infer log).2 = .ok inference) :
    ∃ finding, inference.findings[context.subject.offset]? = some finding ∧
      finding.state.Covers (.initial context.subject.offset context.entryKey) := by
  obtain ⟨run, rfl, hreachable, hqueue, -, -⟩ := infer_eq_ok h
  have hentry := hreachable.traced.entry
  rw [Run.Awaited, hqueue] at hentry
  have harrived := hentry.resolve_left List.not_mem_nil
  obtain ⟨finding, hfinding, hcovers, -⟩ := hreachable.traced.exists_finding harrived
  exact ⟨finding, hfinding, hcovers⟩

/-- What follows an instruction of a result is covered.

**Proof sketch.** The result does not depend on the log, so let the log keep everything.  The end
of the analysis is reachable, so the invariant `Run.Traced` holds; its worklist is empty, so
whatever was awaited has arrived; and it is settled, so the executions can be repeated on the
final findings (`Run.Traced.execute_eq_ok`). -/
lemma exists_effects (h : (context.infer log).2 = .ok inference) {offset : Offset}
    {finding : Finding} (hfinding : inference.findings[offset]? = some finding)
    (hopcode : finding.opcode ≠ .enter) :
    ∃ effects, context.execute inference.findings finding.state = .ok (finding, effects) ∧
      ∀ successor ∈ effects.successors, ∃ target,
        inference.findings[successor.ip]? = some target ∧
        target.state.Covers successor ∧
        (target.state.key = successor.key ∨
          context.divergence successor.ip successor.key target.state.key ∈ context.reports) := by
  rw [infer_log context log (.withThreshold .debug)] at h
  obtain ⟨run, rfl, hreachable, hqueue, hsettled, hlog⟩ := infer_eq_ok h
  have htraced := hreachable.traced
  obtain ⟨effects, hexecute, harrived⟩ :=
    htraced.execute_eq_ok hqueue hsettled hfinding hopcode
  refine ⟨effects, hexecute, ?_⟩
  intro successor hmem
  obtain ⟨target, htarget, hcovers, hkey⟩ := htraced.exists_finding (harrived successor hmem)
  exact ⟨target, htarget, hcovers, hkey.imp_right (mem_reports hreachable hlog)⟩

/-- **The result of an analysis is a fixpoint.**  There is an instruction at the entry.  Executing
the state of any instruction once more on the final findings gives that instruction again, with
its meaning and the values it consumes, unless it opens a protected region.  Every state this
leads to is covered by the state of an instruction of the result, whose key is that of the
arriving state unless the divergence was reported. -/
theorem infer_isFixpoint (h : (context.infer log).2 = .ok inference) :
    (∃ finding, inference.findings[context.subject.offset]? = some finding) ∧
    ∀ (offset : Offset) finding, inference.findings[offset]? = some finding →
      finding.opcode ≠ .enter →
      ∃ effects, context.execute inference.findings finding.state = .ok (finding, effects) ∧
        ∀ successor ∈ effects.successors, ∃ target,
          inference.findings[successor.ip]? = some target ∧
          target.state.Covers successor ∧
          (target.state.key = successor.key ∨
            context.divergence successor.ip successor.key target.state.key
              ∈ context.reports) := by
  constructor
  · obtain ⟨finding, hfinding, -⟩ := exists_entry h
    exact ⟨finding, hfinding⟩
  · intro offset finding hfinding hopcode
    exact exists_effects h hfinding hopcode

/-- The jump to a sum is analysed, and its jump reproduces itself. -/
theorem infer_isFixpoint_jumpToSum :
    ∃ inference finding effects, (jumpToSum.infer {}).2 = .ok inference ∧
      inference.findings[(14 : Offset)]? = some finding ∧ finding.targets = [16] ∧
      jumpToSum.execute inference.findings finding.state = .ok (finding, effects) := by
  obtain ⟨inference, hinfer, hjump⟩ : ∃ inference, (jumpToSum.infer {}).2 = .ok inference ∧
      (inference.findings[(14 : Offset)]?.map fun f => (f.opcode, f.targets))
        = some (.jmp, [16]) :=
    exists_eq_ok (by decide +kernel)
  obtain ⟨finding, hfinding, hview⟩ := Option.map_eq_some_iff.1 hjump
  rw [Prod.mk.injEq] at hview
  obtain ⟨effects, hexecute, -⟩ := (infer_isFixpoint hinfer).2 14 finding hfinding
    (by rw [hview.1]; decide)
  exact ⟨inference, finding, effects, hinfer, hfinding, hview.2, hexecute⟩

end Context

end KeyedVM
