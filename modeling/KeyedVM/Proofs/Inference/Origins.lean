import KeyedVM.Proofs.Dependency.Closure
import KeyedVM.Proofs.Inference.Growth
import KeyedVM.Proofs.Inference.Succession

set_option relaxedAutoImplicit false
set_option autoImplicit false

/-!
# Where values come from

In every run, a slot of the stack has a producer, every producer of a slot was once found to push a
value, and every producer of a register is an instruction that writes it.  This holds for stored
states and for states on the worklist.

An instruction that once pushed a value need not push one any more: the number of a helper may be
evaluated anew, and then another helper is called.  Stored states never lose producers, so the call
stays a producer.

Since every producer is recorded, no evaluation misses one.

## Main definitions

* `KeyedVM.State.Grounded` — slots have producers, and all producers are of certain kinds;
* `KeyedVM.Run.HasPushed` — an instruction was found to push a value, now or earlier;
* `KeyedVM.Error.IsOrigin` — the origin of a value is missing.

## Main results

* `KeyedVM.Run.Reachable.sourced` — along every analysis, states are grounded;
* `KeyedVM.Findings.closure_fails` — on grounded findings, no closure misses a producer;
* `KeyedVM.Run.provenance_sound` — producers are what they should be, and no origin is missing;
* `KeyedVM.Run.source_outlives_push` — a producer need not push a value any more.
-/

namespace KeyedVM

/-! ## Grounded states -/

/-- Every slot of a state has a producer, every producer of a slot is of one kind, and every
producer of a register is of a kind that the register allows. -/
structure State.Grounded (pushed : Offset → Prop) (writes : Register → Offset → Prop)
    (state : State) : Prop where
  slots : ∀ slot ∈ state.stack, slot ≠ .unknown ∧ ∀ source ∈ slot, pushed source
  registers : ∀ register, ∀ source ∈ state.registers.get register, writes register source

namespace State.Grounded

variable {pushed pushed' : Offset → Prop} {writes writes' : Register → Offset → Prop}
  {state stored incoming : State}

/-- A state that is grounded stays so when more counts as pushed or written. -/
lemma mono (h : state.Grounded pushed writes) (hpushed : ∀ source, pushed source → pushed' source)
    (hwrites : ∀ register source, writes register source → writes' register source) :
    state.Grounded pushed' writes' where
  slots slot hslot := ⟨(h.slots slot hslot).1,
    fun source hsource => hpushed source ((h.slots slot hslot).2 source hsource)⟩
  registers register source hsource :=
    hwrites register source (h.registers register source hsource)

/-- At the start of a path nothing has a producer. -/
lemma initial (ip : Offset) (key : Key) : (State.initial ip key).Grounded pushed writes where
  slots _ hslot := absurd hslot List.not_mem_nil
  registers register source hsource := by
    simp only [State.initial, RegisterFile.get_fill] at hsource
    exact absurd hsource (Provenance.not_mem_unknown source)

/-- A merge unites producers. -/
lemma merge {merged : Merged} (hstored : stored.Grounded pushed writes)
    (hincoming : incoming.Grounded pushed writes) (h : stored.merge incoming = .ok merged) :
    merged.state.Grounded pushed writes := by
  obtain ⟨-, -, hstate, -⟩ := merge_eq_ok_iff.1 h
  rw [hstate]
  constructor
  · intro slot hslot
    obtain ⟨i, hi, rfl⟩ := List.mem_iff_getElem.1 hslot
    rw [List.length_zipWith] at hi
    rw [List.getElem_zipWith]
    obtain ⟨hknown, hleft⟩ :=
      hstored.slots _ (List.getElem_mem (show i < stored.stack.length by omega))
    obtain ⟨-, hright⟩ :=
      hincoming.slots _ (List.getElem_mem (show i < incoming.stack.length by omega))
    refine ⟨fun hunknown => hknown ?_, fun source hsource => ?_⟩
    · refine Std.ExtTreeSet.ext_mem fun source => ⟨fun hsource => ?_, fun hsource =>
        absurd hsource (Provenance.not_mem_unknown source)⟩
      rw [← hunknown]
      exact Std.ExtTreeSet.mem_union_iff.2 (Or.inl hsource)
    · exact (Std.ExtTreeSet.mem_union_iff.1 hsource).elim (hleft source) (hright source)
  · intro register source hsource
    simp only [RegisterFile.get_zipWith, Std.ExtTreeSet.mem_union_iff] at hsource
    exact hsource.elim (hstored.registers register source) (hincoming.registers register source)

end State.Grounded

/-! ## Grounded runs -/

namespace Run

variable {context : Context} {log : Log} {run base next earlier : Run}
  {pushed : Offset → Prop} {writes : Register → Offset → Prop}

/-- Every state that is known is grounded. -/
def Grounded (pushed : Offset → Prop) (writes : Register → Offset → Prop) (run : Run) : Prop :=
  ∀ state, run.Knows state → state.Grounded pushed writes

/-- Taking a state from the worklist keeps all states grounded. -/
lemma Grounded.intake (h : run.Grounded pushed writes) (hintake : run.Intake base) :
    base.Grounded pushed writes := by
  intro state hstate
  obtain hknown | ⟨stored, incoming, merged, hstored, hincoming, hmerge, rfl⟩ :=
    hintake.knows_cases hstate
  · exact h state hknown
  · exact (h stored hstored).merge (h incoming hincoming) hmerge

/-- The states behind an instruction are grounded if the one before it is, and if the instruction
itself may be a producer of what it pushes and writes. -/
lemma Grounded.absorb {state : State} {finding : Finding} {effects : Effects}
    (h : base.Grounded pushed writes) (hstate : base.states[state.ip]? = some state)
    (hexecute : context.execute base.findings state = .ok (finding, effects))
    (hpushed : finding.pushes ≠ 0 → pushed finding.offset)
    (hwrites : ∀ register, finding.Writes context.settings register →
      writes register finding.offset) :
    (base.absorb context finding effects).Grounded pushed writes := by
  have hgrounded := h state (Or.inr ⟨_, hstate⟩)
  obtain rfl := state_of_execute hexecute
  have hderived := Context.execute_derived hexecute
  rintro successor (hmem | ⟨offset, hstored⟩)
  · rw [absorb_queue, List.mem_append] at hmem
    rcases hmem with hmem | hmem
    · exact h successor (Or.inl hmem)
    · constructor
      · intro slot hslot
        obtain ⟨rest, hrest, hstack⟩ := hderived.stack successor hmem
        rw [hstack, List.mem_append, List.mem_replicate] at hslot
        rcases hslot with ⟨hpushes, rfl⟩ | hslot
        · refine ⟨Provenance.of_ne_unknown _, fun source hsource => ?_⟩
          rw [Provenance.mem_of.1 hsource]
          exact hpushed hpushes
        · exact hgrounded.slots slot (hrest.subset hslot)
      · intro register source hsource
        obtain hsame | ⟨hwritten, hof⟩ := hderived.registers successor hmem register
        · exact hgrounded.registers register source (hsame ▸ hsource)
        · rw [hof] at hsource
          rw [Provenance.mem_of.1 hsource]
          exact hwrites register hwritten
  · rw [absorb_states] at hstored
    exact h successor (Or.inr ⟨offset, hstored⟩)

/-! ## Producers along an analysis -/

/-- The instruction at an offset was found to push a value, in this run or in one that the analysis
has passed through before. -/
def HasPushed (context : Context) (log : Log) (run : Run) (offset : Offset) : Prop :=
  ∃ earlier finding, Reachable context log earlier ∧
    Relation.ReflTransGen (Proceeds context) earlier run ∧
    earlier.findings[offset]? = some finding ∧ finding.pushes ≠ 0

/-- An instruction that writes a register is recorded at an offset. -/
def HasWriter (context : Context) (run : Run) (register : Register) (offset : Offset) : Prop :=
  ∃ finding, run.findings[offset]? = some finding ∧ finding.Writes context.settings register

/-- What was pushed once was pushed for every later run. -/
lemma HasPushed.proceed {offset : Offset} (h : run.HasPushed context log offset)
    (hproceeds : run.Proceeds context next) : next.HasPushed context log offset := by
  obtain ⟨earlier, finding, hearlier, hpath, hfinding, hpushes⟩ := h
  exact ⟨earlier, finding, hearlier, hpath.tail hproceeds, hfinding, hpushes⟩

/-- A writer stays recorded while the run grows. -/
lemma HasWriter.grow {register : Register} {offset : Offset}
    (h : run.HasWriter context register offset) (hgrows : run.Grows next) :
    next.HasWriter context register offset := by
  obtain ⟨finding, hfinding, hwrites⟩ := h
  obtain ⟨known, hknown, hsame⟩ := hgrows.findings offset finding hfinding
  exact ⟨known, hknown, hsame ▸ hwrites⟩

/-- **Along every analysis, states are grounded**: what was once found to push is the producer of
slots, and what writes a register is the producer of its value. -/
theorem Reachable.sourced (h : Reachable context log run) :
    run.Grounded (run.HasPushed context log) (run.HasWriter context) := by
  refine h.induct_proceeds (P := fun run => run.Grounded (run.HasPushed context log)
    (run.HasWriter context)) ?_ fun run next hrun hproceeds ih => ?_
  · rintro state (hmem | ⟨offset, hstored⟩)
    · obtain rfl := List.mem_singleton.1 hmem
      exact .initial _ _
    · simp [Run.seed] at hstored
  · have hgrown : run.Grounded (next.HasPushed context log) (next.HasWriter context) :=
      fun state hstate => (ih state hstate).mono (fun _ hpushed => hpushed.proceed hproceeds)
        fun _ _ hwriter => hwriter.grow (hrun.grows_of_proceeds hproceeds)
    have hnext := hrun.proceed hproceeds
    obtain ⟨base, hintake, rfl | ⟨state, finding, effects, hstate, hexecute, -, rfl⟩⟩ :=
      hrun.proceeds_cases hproceeds
    · exact hgrown.intake hintake
    · -- the instruction that was executed is recorded now
      have hfinding : (base.absorb context finding effects).findings[finding.offset]?
          = some finding := by
        rw [absorb_findings, Std.ExtTreeMap.getElem?_insert_self]
      exact (hgrown.intake hintake).absorb hstate hexecute
        (fun hpushes => ⟨_, finding, hnext, .refl, hfinding, hpushes⟩)
        fun _ hwrites => ⟨finding, hfinding, hwrites⟩

/-- What was once found to push is recorded, as the same instruction. -/
lemma HasPushed.exists_finding {offset : Offset} (h : run.HasPushed context log offset) :
    ∃ finding, run.findings[offset]? = some finding ∧
      (finding.pushes ≠ 0 ∨ finding.opcode = .vcall) := by
  obtain ⟨earlier, known, hearlier, hpath, hknown, hpushes⟩ := h
  obtain ⟨finding, hfinding, hsame⟩ := (hearlier.grows hpath).2.findings offset known hknown
  refine ⟨finding, hfinding, ?_⟩
  obtain ⟨-, -, _, _, hexecute, -⟩ := hearlier.traced.exists_execution hknown
  have hopcode : finding.opcode = known.opcode := congrArg Instruction.opcode hsame
  by_cases hfixed : known.pushes = known.opcode.pushes
  · refine Or.inl fun hnone => hpushes ?_
    rw [hfixed, ← hopcode]
    exact Nat.eq_zero_of_add_eq_zero_right hnone
  · exact Or.inr (hopcode.trans (Context.opcode_eq_vcall hexecute hfixed))

end Run

/-! ## No origin is missing -/

/-- The origin of a value is missing: nothing produces it, or what does was never decoded. -/
def ResolveFault.isOrigin : ResolveFault → Bool
  | .noProvenance | .neverDecoded _ | .unknownOrigin _ _ => true
  | _ => false

/-- An error says that the origin of a value is missing. -/
def Error.IsOrigin (error : Error) : Prop :=
  ∃ offset fault, error = .unresolvable offset fault ∧ fault.isOrigin = true

/-- Neither a replay that cannot go on nor an operand that is of no use has to do with origins. -/
lemma ResolveFault.isOrigin_eq_false {fault : ResolveFault}
    (h : fault.isReplay = true ∨ fault.isOperand = true) : fault.isOrigin = false := by
  cases fault <;> simp_all [isReplay, isOperand, isOrigin]

/-- The producers of consumed values are recorded, and only a register that is pushed may have
none. -/
def Findings.Grounded (findings : Findings) : Prop :=
  ∀ (offset : Offset) (finding : Finding), findings[offset]? = some finding →
    ∀ value ∈ finding.consumed, (value ≠ .unknown ∨ finding.opcode.readsRegister = true) ∧
      ∀ source ∈ value, source ∈ findings

/-- The search for a producer does not fail for want of an origin, if the value has one or may lack
it. -/
lemma Finding.producer_fails {finding : Finding} {value : Provenance}
    (h : value ≠ .unknown ∨ finding.opcode.readsRegister = true) :
    FailsOnly (·.isOrigin = false) (finding.producer value) := by
  unfold producer
  split
  · exact .ok _
  · split
    · next hempty =>
      have hunknown : value = .unknown := Std.ExtTreeSet.isEmpty_iff.1 hempty
      rw [if_pos (h.resolve_left (absurd hunknown))]
      exact .ok _
    · exact .error rfl

/-- The search for all producers does not fail for want of an origin, if every value has one or may
lack it. -/
lemma Finding.producers_fails {finding : Finding} (h : ∀ value ∈ finding.consumed,
      value ≠ .unknown ∨ finding.opcode.readsRegister = true) :
    FailsOnly (·.isOrigin = false) finding.producers := by
  have hall : FailsOnly (·.isOrigin = false) (finding.consumed.mapM finding.producer) :=
    .mapM fun value hvalue => producer_fails (h value hvalue)
  unfold producers
  cases hproducers : finding.consumed.mapM finding.producer with
  | ok => exact .ok _
  | error fault => exact .error (hall fault hproducers)

namespace Findings

variable {findings : Findings}

/-- A recorded instruction is not kept from a closure for want of an origin. -/
lemma accept_fails (h : findings.Grounded) {offset : Offset} (hoffset : offset ∈ findings) :
    FailsOnly (·.isOrigin = false) (findings.accept offset) := by
  unfold accept
  split
  · next hnone =>
    rw [Std.ExtTreeMap.mem_iff_isSome_getElem?, hnone] at hoffset
    cases hoffset
  · next finding hfinding =>
    split
    · exact Finding.producers_fails fun value hvalue => (h offset finding hfinding value hvalue).1
    · exact .error rfl

/-- A worklist of recorded instructions stays one, because their producers are recorded. -/
lemma expand_fails (h : findings.Grounded) {limit room : Nat} {closure : Provenance}
    {pending : List Offset} (hpending : ∀ offset ∈ pending, offset ∈ findings) :
    FailsOnly (·.isOrigin = false) (findings.expand limit room closure pending) := by
  induction room generalizing closure pending with
  | zero =>
    unfold expand
    split
    · exact .ok _
    · exact .error rfl
  | succ room ih =>
    unfold expand
    split
    · exact .ok _
    next offset rest hcons =>
    obtain ⟨-, hoffset, hrest⟩ := not_mem_of_dropWhile hcons
    refine (accept_fails h (hpending offset hoffset)).bind fun producers hproducers => ih ?_
    intro other hother
    rcases List.mem_append.1 hother with hmem | hmem
    · obtain ⟨finding, hfinding, value, hvalue, hsource⟩ :=
        (mem_of_accept hproducers).1 (List.mem_reverse.1 hmem)
      exact (h offset finding hfinding value hvalue).2 other hsource
    · exact hpending other (hrest other hmem)

/-- **On grounded findings, no closure misses a producer.** -/
theorem closure_fails (h : findings.Grounded) {source : Offset} (hsource : source ∈ findings)
    (limit : Nat) : FailsOnly (·.isOrigin = false) (findings.closure limit source) := by
  refine expand_fails h fun offset hoffset => ?_
  rwa [List.mem_singleton.1 hoffset]

end Findings

namespace Run

variable {context : Context} {log : Log} {run base : Run}

/-- What was pushed is recorded. -/
lemma HasPushed.mem_findings {offset : Offset} (h : run.HasPushed context log offset) :
    offset ∈ run.findings := by
  obtain ⟨finding, hfinding, -⟩ := h.exists_finding
  rw [Std.ExtTreeMap.mem_iff_isSome_getElem?, hfinding]
  rfl

/-- What writes a register is recorded. -/
lemma HasWriter.mem_findings {register : Register} {offset : Offset}
    (h : run.HasWriter context register offset) : offset ∈ run.findings := by
  obtain ⟨finding, hfinding, -⟩ := h
  rw [Std.ExtTreeMap.mem_iff_isSome_getElem?, hfinding]
  rfl

/-- Along every analysis the findings are grounded, because what an instruction consumes is taken
from the state that is stored at its offset. -/
lemma Reachable.findings_grounded (h : Reachable context log run) : run.findings.Grounded := by
  intro offset finding hfinding value hvalue
  obtain ⟨-, hstate, _, effects, hexecute, -⟩ := h.traced.exists_execution hfinding
  have hgrounded := h.sourced finding.state (Or.inr ⟨offset, hstate⟩)
  have hconsumed : finding.consumed = effects.consumed := by
    obtain ⟨_, _, -, -, hsame⟩ := Context.execute_eq_ok_iff.1 hexecute
    rw [hsame]
  obtain hslot | ⟨hreads, register, rfl⟩ :=
    (Context.execute_derived hexecute).consumed value (hconsumed ▸ hvalue)
  · obtain ⟨hknown, hpushed⟩ := hgrounded.slots value hslot
    exact ⟨Or.inl hknown, fun source hsource => (hpushed source hsource).mem_findings⟩
  · exact ⟨Or.inr hreads, fun source hsource =>
      (hgrounded.registers register source hsource).mem_findings⟩

/-- **No move of an analysis misses an origin.**

**Proof sketch.** Only an evaluation can.  It is about a slot of the state that is executed, so the
slot has a producer and all its producers are recorded; and the findings are grounded, so the
closures miss nothing either. -/
theorem Reachable.not_isOrigin (h : Reachable context log run) {error : Error}
    (hraises : run.Raises context error) : ¬ error.IsOrigin := by
  rintro ⟨offset, fault, rfl, horigin⟩
  cases hraises with
  | @merge incoming stored error _ _ hmerge =>
    refine State.merge_failsOnly (p := fun error => ∀ offset fault,
      error ≠ .unresolvable offset fault) ?_ ?_ incoming _ hmerge _ _ rfl
    · exact fun _ _ _ _ => Error.noConfusion
    · exact fun _ _ _ _ => Error.noConfusion
  | @execution base state error hintake hstate hexecute =>
    have hgrounded := h.sourced.intake hintake state (Or.inr ⟨_, hstate⟩)
    have hfindings : base.findings = run.findings := by rw [hintake.eq]
    cases context.execute_arises _ _ _ hexecute with
    | operand hoperand =>
      rw [ResolveFault.isOrigin_eq_false (Or.inr hoperand)] at horigin
      cases horigin
    | evaluation hslot hresolve =>
      obtain ⟨_, fault', herror, hfault⟩ := Evaluator.resolve_fails _ _ _ _ hresolve
      obtain ⟨-, rfl⟩ := Error.unresolvable.inj herror
      obtain ⟨hknown, hpushed⟩ := hgrounded.slots _ hslot
      cases hfault with
      | noProvenance hempty => exact hknown (Std.ExtTreeSet.isEmpty_iff.1 hempty)
      | closure hsource hclosure =>
        rw [hfindings] at hclosure
        have hfalse := Findings.closure_fails h.findings_grounded
          (hpushed _ hsource).mem_findings _ _ hclosure
        rw [hfalse] at horigin
        cases horigin
      | replay hreplay =>
        rw [ResolveFault.isOrigin_eq_false (Or.inl hreplay)] at horigin
        cases horigin
      | noValue => cases horigin

/-- **Producers are what they should be, and no origin is missing.**  In every run that an analysis
passes through, take any state that is stored or on the worklist.  Each of its slots has a producer.
Every producer of a slot is a recorded instruction that pushes a value, or a helper call that has
pushed one at an earlier point of the analysis.  Every producer of a register is a recorded
instruction that writes it.  And neither the next step nor the next revalidation nor the analysis as
a whole fails because the origin of a value is missing. -/
theorem provenance_sound (h : Reachable context log run) :
    (∀ state, run.Knows state →
      (∀ slot ∈ state.stack, slot ≠ .unknown ∧ ∀ source ∈ slot, ∃ finding,
        run.findings[source]? = some finding ∧
        (finding.pushes ≠ 0 ∨ finding.opcode = .vcall ∧ run.HasPushed context log source)) ∧
      ∀ register, ∀ source ∈ state.registers.get register, ∃ finding,
        run.findings[source]? = some finding ∧ finding.Writes context.settings register) ∧
    FailsOnly (¬ ·.error.IsOrigin) (run.step context) ∧
    FailsOnly (¬ ·.error.IsOrigin) (run.revalidate context) ∧
    FailsOnly (¬ ·.IsOrigin) (context.infer log).2 := by
  refine ⟨fun state hstate => ⟨fun slot hslot => ?_, ?_⟩, ?_, ?_, ?_⟩
  · obtain ⟨hknown, hpushed⟩ := (h.sourced state hstate).slots slot hslot
    refine ⟨hknown, fun source hsource => ?_⟩
    have hsource := hpushed source hsource
    obtain ⟨finding, hfinding, hor⟩ := hsource.exists_finding
    exact ⟨finding, hfinding, hor.imp_right fun hopcode => ⟨hopcode, hsource⟩⟩
  · exact (h.sourced state hstate).registers
  · exact h.step_raises.mono fun _ => h.not_isOrigin
  · exact h.revalidate_raises.mono fun _ ⟨_, hlater, hraises⟩ => hlater.not_isOrigin hraises
  · exact (context.infer_raises log).mono fun _ ⟨_, _, hlater, hraises⟩ =>
      hlater.not_isOrigin hraises

/-- When the worklist of the wavering helper call is empty, the call at 53 is known not to push
anything, but it is a producer of the slot that the return at 55 takes. -/
lemma exists_wavering : ∃ run state slot finding, Reachable .wavering {} run ∧
    run.Knows state ∧ slot ∈ state.stack ∧ slot.toList = [36, 53] ∧
    run.findings[(53 : Offset)]? = some finding ∧ finding.pushes = 0 := by
  obtain ⟨run, hdrain, hstate, hfinding⟩ : ∃ run : Run,
      (seed 0 0 {}).drain .wavering = .ok run ∧
      (run.states[(55 : Offset)]?.map fun state => state.stack.map (·.toList)) = some [[36, 53]] ∧
      run.findings[(53 : Offset)]?.map (·.pushes) = some 0 :=
    exists_eq_ok (by decide +kernel)
  obtain ⟨state, hstate, hstack⟩ := Option.map_eq_some_iff.1 hstate
  obtain ⟨finding, hfinding, hpushes⟩ := Option.map_eq_some_iff.1 hfinding
  obtain ⟨slot, hslot, hsources⟩ : ∃ slot ∈ state.stack, slot.toList = [36, 53] := by
    rw [← List.mem_map, hstack]
    exact List.mem_cons_self
  exact ⟨run, state, slot, finding, (drainWithin_eq_ok .seed hdrain).1, Or.inr ⟨55, hstate⟩, hslot,
    hsources, hfinding, hpushes⟩

/-- In the wavering helper call, the call at 53 has pushed a value at an earlier point of the
analysis. -/
theorem provenance_sound_wavering : ∃ run state slot, Reachable .wavering {} run ∧
    run.Knows state ∧ slot ∈ state.stack ∧ slot.toList = [36, 53] ∧
    (∃ finding, run.findings[(53 : Offset)]? = some finding ∧ finding.opcode = .vcall) ∧
    run.HasPushed .wavering {} 53 := by
  obtain ⟨run, state, slot, finding, hrun, hstate, hslot, hsources, hfinding, hpushes⟩ :=
    exists_wavering
  have hmem : 53 ∈ slot := Std.ExtTreeSet.mem_toList.1 (by simp [hsources])
  obtain ⟨found, hfound, hor⟩ := (((provenance_sound hrun).1 state hstate).1 slot hslot).2 53 hmem
  obtain rfl : finding = found := Option.some.inj (hfinding.symm.trans hfound)
  obtain ⟨hopcode, hpushed⟩ := hor.resolve_left (absurd hpushes)
  exact ⟨run, state, slot, hrun, hstate, hslot, hsources, ⟨finding, hfinding, hopcode⟩, hpushed⟩

/-- **A producer need not push a value any more**: the helper call at 53 is a producer of a slot,
but the helper that it is now known to call pushes nothing. -/
theorem source_outlives_push : ∃ run state slot source finding, Reachable .wavering {} run ∧
    run.Knows state ∧ slot ∈ state.stack ∧ source ∈ slot ∧
    run.findings[source]? = some finding ∧ finding.pushes = 0 := by
  obtain ⟨run, state, slot, finding, hrun, hstate, hslot, hsources, hfinding, hpushes⟩ :=
    exists_wavering
  exact ⟨run, state, slot, 53, finding, hrun, hstate, hslot,
    Std.ExtTreeSet.mem_toList.1 (by simp [hsources]), hfinding, hpushes⟩

end Run

end KeyedVM
