import KeyedVM.Proofs.Inference.Fixpoint
import KeyedVM.Proofs.Inference.Outline

set_option relaxedAutoImplicit false
set_option autoImplicit false

/-!
# Every target is followed

A step of an analysis does two things, one after the other: it takes something in, which changes the
stored states, the worklist and the log, and it takes over what an execution has led to.  What each
of these keeps holds along every analysis.

Along every analysis, the targets of jumps and the filters and handlers of protected regions are
noted as starts of blocks, and each of them is on the worklist or has been reached.  So in the
result an instruction is recorded at each of these places.

## Main definitions

* `KeyedVM.Run.Intake` — what a run can take in;
* `KeyedVM.Run.TakesOver` — the execution of a stored state is taken over;
* `KeyedVM.Run.Proceeds` — one move of an analysis;
* `KeyedVM.Run.Visited` — a place is on the worklist or has been reached;
* `KeyedVM.Run.Charted` — the invariant of a run.

## Main results

* `KeyedVM.Run.Reachable.proceeds_cases` — what one move of an analysis can do;
* `KeyedVM.Run.Reachable.induct` — what holds at the start and is kept by taking in and by taking
  over holds along every analysis;
* `KeyedVM.Run.Reachable.charted` — the invariant holds along every analysis;
* `KeyedVM.Context.charted_of_infer` — in the result, every target is an instruction.
-/

namespace KeyedVM

namespace Run

variable {context : Context} {log : Log} {run base next : Run}

/-! ## Taking in and taking over -/

/-- What a run can take in before something is executed: nothing but an iteration, the first state
of the worklist at a new place, or the first state of the worklist at a known one. -/
inductive Intake (run : Run) : Run → Prop
  | tick : Intake run { run with iterations := run.iterations + 1 }
  | store {incoming : State} {rest : List State} : run.queue = incoming :: rest →
      run.states[incoming.ip]? = none →
      Intake run { run with
        queue := rest
        iterations := run.iterations + 1
        states := run.states.insert incoming.ip incoming }
  | merge {incoming stored : State} {rest : List State} {merged : State.Merged} {log : Log} :
      run.queue = incoming :: rest → run.states[incoming.ip]? = some stored →
      stored.merge incoming = .ok merged → log.Extends run.log →
      Intake run { run with
        queue := rest
        iterations := run.iterations + 1
        states := run.states.insert incoming.ip merged.state
        log }

/-- Taking something in changes the stored states, the worklist, the iterations and the log. -/
lemma Intake.eq (h : run.Intake base) : base = { run with
    states := base.states
    queue := base.queue
    iterations := base.iterations
    log := base.log } := by
  cases h with
  | tick => rfl
  | store => rfl
  | merge => rfl

/-- Taking a state from the worklist only adds to the log. -/
lemma Intake.log_extends (h : run.Intake base) : base.log.Extends run.log := by
  cases h with
  | tick => exact .refl _
  | store => exact .refl _
  | merge _ _ _ hlog => exact hlog

/-- The run after a merge is one that has taken in the merged state. -/
lemma intake_joined {incoming stored : State} {rest : List State} {merged : State.Merged}
    (hqueue : run.queue = incoming :: rest) (hstored : run.states[incoming.ip]? = some stored)
    (hmerge : stored.merge incoming = .ok merged) :
    run.Intake ({ run with queue := rest, iterations := run.iterations + 1 }.joined context incoming
      merged) := by
  rw [joined_eq]
  exact .merge hqueue hstored hmerge (joined_extends incoming merged)

/-- One move of an analysis: a step of the worklist, or one more execution of a stored state. -/
inductive Proceeds (context : Context) (run : Run) : Run → Prop
  | step {next : Run} : run.step context = .ok (some next) → Proceeds context run next
  | recheck {next : Run} {offset : Offset} {changed : Bool} :
      run.recheck context offset = .ok (changed, next) → Proceeds context run next

/-- A run that is reached stays reached when it proceeds. -/
lemma Reachable.proceed (h : Reachable context log run) (hproceeds : run.Proceeds context next) :
    Reachable context log next := by
  cases hproceeds with
  | step hstep => exact h.step hstep
  | recheck hrecheck => exact h.recheck hrecheck

/-- The execution of a stored state is taken over. -/
def TakesOver (context : Context) (base next : Run) : Prop :=
  ∃ state finding effects, base.states[state.ip]? = some state ∧
    context.execute base.findings state = .ok (finding, effects) ∧
    (∀ known, base.findings[finding.offset]? = some known →
      known.opcode = finding.opcode ∧ known.operand = finding.operand) ∧
    next = base.absorb context finding effects

/-- A visit of a stored state that succeeds takes its execution over. -/
lemma takesOver_of_visit {state : State} (hstate : base.states[state.ip]? = some state)
    (h : base.visit context state = .ok next) : base.TakesOver context next := by
  obtain ⟨finding, effects, hexecute, hcommit⟩ := visit_eq_ok_iff.1 h
  obtain ⟨hknown, rfl⟩ := commit_eq_ok_iff.1 hcommit
  exact ⟨state, finding, effects, hstate, hexecute, hknown, rfl⟩

/-- A merged state stands where the stored one stood. -/
lemma Reachable.ip_of_merge {incoming stored : State} {merged : State.Merged}
    (h : Reachable context log run) (hstored : run.states[incoming.ip]? = some stored)
    (hmerge : stored.merge incoming = .ok merged) : merged.state.ip = incoming.ip := by
  rw [State.merge_ip hmerge]
  exact ((h.traced.offsets incoming.ip).executed stored hstored).1

/-- **What one move of an analysis can do.**  It takes something in, and that is all; or the
execution of a stored state is taken over as well. -/
theorem Reachable.proceeds_cases (h : Reachable context log run)
    (hproceeds : run.Proceeds context next) :
    ∃ base, run.Intake base ∧ (next = base ∨ base.TakesOver context next) := by
  cases hproceeds with
  | step hstep =>
    obtain ⟨incoming, rest, hqueue, -, harrive⟩ := step_cases hstep
    obtain ⟨hnew, hvisit⟩ | ⟨stored, merged, hstored, hmerge, -, rfl⟩ |
      ⟨stored, merged, hstored, hmerge, -, hvisit⟩ := arrive_cases harrive
    · exact ⟨_, .store hqueue hnew,
        Or.inr (takesOver_of_visit Std.ExtTreeMap.getElem?_insert_self hvisit)⟩
    · exact ⟨_, intake_joined hqueue hstored hmerge, Or.inl rfl⟩
    · refine ⟨_, intake_joined hqueue hstored hmerge, Or.inr (takesOver_of_visit ?_ hvisit)⟩
      rw [h.ip_of_merge hstored hmerge, joined_states, Std.ExtTreeMap.getElem?_insert_self]
  | @recheck offset changed hrecheck =>
    obtain ⟨-, rfl, -⟩ | ⟨-, state, finding, effects, hstate, hexecute, hcommit⟩ :=
      recheck_cases hrecheck
    · exact ⟨_, .tick, Or.inl rfl⟩
    · obtain ⟨hknown, rfl⟩ := commit_eq_ok_iff.1 hcommit
      have hip := ((h.traced.offsets offset).executed state hstate).1
      exact ⟨_, .tick, Or.inr ⟨state, finding, effects, hip ▸ hstate, hexecute, hknown, rfl⟩⟩

/-- What holds at the start and is kept by every move holds along every analysis. -/
lemma Reachable.induct_proceeds {P : Run → Prop}
    (hseed : P (Run.seed context.subject.offset context.entryKey log))
    (hproceed : ∀ run next : Run, Reachable context log run → run.Proceeds context next → P run →
      P next) (h : Reachable context log run) : P run := by
  induction h with
  | seed => exact hseed
  | step hrun hstep ih => exact hproceed _ _ hrun (.step hstep) ih
  | recheck hrun hrecheck ih => exact hproceed _ _ hrun (.recheck hrecheck) ih

/-- **What holds along every analysis.**  It holds at the start, it is kept by whatever can be taken
in, and it is kept when the execution of a stored state is taken over. -/
theorem Reachable.induct {P : Run → Prop}
    (hseed : P (Run.seed context.subject.offset context.entryKey log))
    (hintake : ∀ run base : Run, P run → run.Intake base → P base)
    (habsorb : ∀ (base : Run) (state : State) (finding : Finding) (effects : Effects), P base →
      base.states[state.ip]? = some state →
      context.execute base.findings state = .ok (finding, effects) →
      (∀ known, base.findings[finding.offset]? = some known →
        known.opcode = finding.opcode ∧ known.operand = finding.operand) →
      P (base.absorb context finding effects))
    (h : Reachable context log run) : P run := by
  refine h.induct_proceeds hseed fun run next hrun hproceeds ih => ?_
  obtain ⟨base, hbase, rfl | ⟨state, finding, effects, hstate, hexecute, hknown, rfl⟩⟩ :=
    hrun.proceeds_cases hproceeds
  · exact hintake run _ ih hbase
  · exact habsorb base state finding effects (hintake run base ih hbase) hstate hexecute hknown

/-- Taking over effects adds their headers. -/
@[simp] lemma absorb_headers (finding : Finding) (effects : Effects) :
    (run.absorb context finding effects).headers = run.headers.insertMany effects.headers := by
  rw [absorb_eq]

/-- Taking over effects adds the region that they open, if they do. -/
@[simp] lemma absorb_regions (finding : Finding) (effects : Effects) :
    (run.absorb context finding effects).regions
      = run.regions.insertMany effects.region?.toList := by
  rw [absorb_eq]

/-! ## Places that are followed -/

/-- A place is on the worklist or has been reached. -/
def Visited (run : Run) (offset : Offset) : Prop :=
  offset ∈ run.states ∨ ∃ state ∈ run.queue, state.ip = offset

/-- No place gets lost when something is taken in: the state that leaves the worklist is stored. -/
lemma Visited.intake {offset : Offset} (h : run.Visited offset) (hintake : run.Intake base) :
    base.Visited offset := by
  have hstore : ∀ {incoming kept : State} {rest : List State}, run.queue = incoming :: rest →
      offset ∈ run.states.insert incoming.ip kept ∨ ∃ state ∈ rest, state.ip = offset := by
    intro incoming kept rest hqueue
    rcases h with hmem | ⟨state, hmem, hip⟩
    · exact Or.inl (Std.ExtTreeMap.mem_insert.2 (Or.inr hmem))
    · rw [hqueue] at hmem
      rcases List.mem_cons.1 hmem with rfl | hmem
      · exact Or.inl (hip ▸ Std.ExtTreeMap.mem_insert_self)
      · exact Or.inr ⟨state, hmem, hip⟩
  cases hintake with
  | tick => exact h
  | store hqueue _ => exact hstore hqueue
  | merge hqueue _ _ _ => exact hstore hqueue

/-- Taking over effects keeps the places that are visited. -/
lemma Visited.absorb {offset : Offset} (h : run.Visited offset) (finding : Finding)
    (effects : Effects) : (run.absorb context finding effects).Visited offset := by
  rw [Visited, absorb_states, absorb_queue]
  exact h.imp_right fun ⟨state, hmem, hip⟩ => ⟨state, List.mem_append_left _ hmem, hip⟩

/-- A place is noted as the start of a block, and it is followed. -/
def Follows (run : Run) (offset : Offset) : Prop := offset ∈ run.headers ∧ run.Visited offset

/-- Taking a state from the worklist keeps a place followed. -/
lemma Follows.intake {offset : Offset} (h : run.Follows offset) (hintake : run.Intake base) :
    base.Follows offset := by
  refine ⟨?_, h.2.intake hintake⟩
  rw [hintake.eq]
  exact h.1

/-- Taking over effects keeps a place followed. -/
lemma Follows.absorb {offset : Offset} (h : run.Follows offset) (finding : Finding)
    (effects : Effects) : (run.absorb context finding effects).Follows offset := by
  refine ⟨?_, h.2.absorb finding effects⟩
  rw [absorb_headers, Std.ExtTreeSet.mem_insertMany_list]
  exact Or.inl h.1

/-- What an execution enters is followed once the execution is taken over. -/
lemma follows_of_enters {offset : Offset} {finding : Finding} {effects : Effects}
    (h : effects.Enters offset) : (run.absorb context finding effects).Follows offset := by
  obtain ⟨hheader, successor, hmem, hip⟩ := h
  constructor
  · rw [absorb_headers, Std.ExtTreeSet.mem_insertMany_list]
    exact Or.inr (List.contains_iff_mem.2 hheader)
  · refine Or.inr ⟨successor, ?_, hip⟩
    rw [absorb_queue]
    exact List.mem_append_right _ hmem

/-- The invariant of a run: the entry, the targets of jumps and the filters and handlers of
protected regions are followed, and every protected region was opened by a recorded
instruction. -/
structure Charted (context : Context) (run : Run) : Prop where
  entry : run.Follows context.subject.offset
  targets : ∀ (offset : Offset) (finding : Finding), run.findings[offset]? = some finding →
    ∀ target ∈ finding.targets, run.Follows target
  regions : ∀ region ∈ run.regions, region.opener ∈ run.findings ∧
    ∀ entry ∈ region.entries, run.Follows entry

/-- Taking a state from the worklist keeps the invariant. -/
lemma Charted.intake (h : run.Charted context) (hintake : run.Intake base) :
    base.Charted context := by
  have hfindings : base.findings = run.findings := by rw [hintake.eq]
  have hregions : base.regions = run.regions := by rw [hintake.eq]
  refine ⟨h.entry.intake hintake, ?_, ?_⟩
  · intro offset finding hfinding target htarget
    exact (h.targets offset finding (hfindings ▸ hfinding) target htarget).intake hintake
  · intro region hregion
    obtain ⟨hopener, hentries⟩ := h.regions region (hregions ▸ hregion)
    exact ⟨hfindings ▸ hopener, fun entry hentry => (hentries entry hentry).intake hintake⟩

/-- Taking over an execution keeps the invariant, because the effects of every execution hang
together. -/
lemma Charted.absorb {state : State} {finding : Finding} {effects : Effects}
    (h : run.Charted context)
    (hexecute : context.execute run.findings state = .ok (finding, effects)) :
    (run.absorb context finding effects).Charted context := by
  obtain ⟨houtline, hsame⟩ := Context.execute_outlined hexecute
  refine ⟨h.entry.absorb finding effects, ?_, ?_⟩
  · intro offset known hknown target htarget
    rw [absorb_findings, Std.ExtTreeMap.getElem?_insert] at hknown
    split at hknown
    · obtain rfl := Option.some.inj hknown
      exact follows_of_enters (houtline.targets target (hsame ▸ htarget))
    · exact (h.targets offset known hknown target htarget).absorb finding effects
  · intro region hregion
    rw [absorb_regions, Std.ExtTreeSet.mem_insertMany_list] at hregion
    rw [absorb_findings]
    rcases hregion with hold | hnew
    · obtain ⟨hopener, hentries⟩ := h.regions region hold
      exact ⟨Std.ExtTreeMap.mem_insert.2 (Or.inr hopener),
        fun entry hentry => (hentries entry hentry).absorb finding effects⟩
    · obtain ⟨hopener, hentries⟩ :=
        houtline.region region (Option.mem_toList.1 (List.contains_iff_mem.1 hnew))
      exact ⟨hopener ▸ Std.ExtTreeMap.mem_insert_self,
        fun entry hentry => follows_of_enters (hentries entry hentry)⟩

/-- **The invariant holds along every analysis.** -/
theorem Reachable.charted (h : Reachable context log run) : run.Charted context := by
  refine h.induct ?_ (fun _ _ hrun hintake => hrun.intake hintake)
    fun _ _ _ _ hbase _ hexecute _ => hbase.absorb hexecute
  refine ⟨⟨?_, Or.inr ⟨_, List.mem_singleton_self _, rfl⟩⟩, ?_, ?_⟩
  · simp [Run.seed]
  · intro offset finding hfinding
    simp [Run.seed] at hfinding
  · intro region hregion
    simp [Run.seed] at hregion

/-- At the end of an analysis an instruction is recorded at every place that is followed. -/
lemma Traced.mem_findings (h : run.Traced context) (hqueue : run.queue = []) {offset : Offset}
    (hvisited : run.Visited offset) : offset ∈ run.findings := by
  rcases hvisited with hmem | ⟨state, hmem, -⟩
  · obtain ⟨state, hstate⟩ := Option.isSome_iff_exists.1
      (Std.ExtTreeMap.mem_iff_isSome_getElem?.1 hmem)
    obtain ⟨-, _, finding, _, hfinding, -⟩ := (h.offsets offset).executed state hstate
    rw [Std.ExtTreeMap.mem_iff_isSome_getElem?, hfinding]
    rfl
  · rw [hqueue] at hmem
    exact absurd hmem List.not_mem_nil

end Run

namespace Context

/-- **In the result of an analysis every target is an instruction**: the entry, the targets of
jumps, and the filters and handlers of protected regions are starts of blocks at which an
instruction is recorded; and every protected region is opened by a recorded instruction. -/
theorem charted_of_infer {context : Context} {log : Log} {inference : Inference}
    (h : (context.infer log).2 = .ok inference) :
    (inference.entry ∈ inference.headers ∧ inference.entry ∈ inference.findings) ∧
    (∀ (offset : Offset) (finding : Finding), inference.findings[offset]? = some finding →
      ∀ target ∈ finding.targets, target ∈ inference.headers ∧ target ∈ inference.findings) ∧
    ∀ region ∈ inference.regions, region.opener ∈ inference.findings ∧
      ∀ entry ∈ region.entries, entry ∈ inference.headers ∧ entry ∈ inference.findings := by
  obtain ⟨run, rfl, hreachable, hqueue, -, -⟩ := infer_eq_ok h
  have hcharted := hreachable.charted
  have hfollows : ∀ offset, run.Follows offset → offset ∈ run.headers ∧ offset ∈ run.findings :=
    fun offset hoffset => ⟨hoffset.1, hreachable.traced.mem_findings hqueue hoffset.2⟩
  refine ⟨hfollows _ hcharted.entry, ?_, ?_⟩
  · intro offset finding hfinding target htarget
    exact hfollows target (hcharted.targets offset finding hfinding target htarget)
  · intro region hregion
    obtain ⟨hopener, hentries⟩ := hcharted.regions region hregion
    exact ⟨hopener, fun entry hentry => hfollows entry (hentries entry hentry)⟩

end Context

end KeyedVM
