import KeyedVM.Proofs.Inference.Growth
import KeyedVM.Proofs.Inference.Soundness

set_option relaxedAutoImplicit false
set_option autoImplicit false

/-!
# Where an analysis fails

An error of an analysis names the instruction that was being looked at when the analysis failed.
For most errors this is plain.  An operand that cannot be evaluated is found to be so while other
instructions are replayed, and a replay blames the replayed instruction if that is malformed.  But
whatever is replayed was decoded, so it has the operand that its opcode takes, and it was accepted
into the closure, so it can be replayed.  What is left to go wrong is blamed on the consumer.

An analysis goes through stages, one after the other: it takes the first state off the worklist, or
it executes the next of the stored states once more.  If it fails, it fails at one of these stages,
with the state that this stage has in hand.

## Main definitions

* `KeyedVM.Error.OfAnalysis` — the kinds of errors with which an analysis can fail;
* `KeyedVM.Run.Stage`, `KeyedVM.Run.Stage.Next` — where an analysis stands, and how it goes on;
* `KeyedVM.Run.Stage.Fails` — a stage fails with the state that it has in hand.

## Main results

* `KeyedVM.Evaluator.resolve_blames` — an evaluation on decoded instructions blames the consumer;
* `KeyedVM.Run.Reachable.execute_located` — an execution fails at the place of its state;
* `KeyedVM.Run.Stage.Reached.settleWithin_traced` — an analysis that fails has come to a stage that
  fails;
* `KeyedVM.Image.infer_located` — the kinds and the places of the errors of an analysis.
-/

namespace KeyedVM

/-! ## Evaluation -/

/-- An error blames the instruction at `consumer` for an operand that cannot be resolved. -/
def Error.Blames (consumer : Offset) (error : Error) : Prop :=
  ∃ fault, error = .unresolvable consumer fault

namespace Replay

variable (consumer : Offset) (replay : Replay) {instruction : Instruction}

/-- Popping blames the instruction for which the replay is made. -/
lemma pop_blames : FailsOnly (Error.Blames consumer) (replay.pop consumer) := by
  unfold pop
  split
  · exact .error ⟨_, rfl⟩
  · exact .ok _

/-- Reading a register blames the instruction for which the replay is made. -/
lemma read_blames (instruction : Instruction) (register : Register) :
    FailsOnly (Error.Blames consumer) (replay.read consumer instruction register) := by
  unfold read
  split
  · exact .ok _
  · exact .error ⟨_, rfl⟩

/-- The register of an instruction that takes one is found. -/
lemma registerOf_blames (hform : instruction.WellFormed)
    (hkind : instruction.opcode.operandKind = .register) :
    FailsOnly (Error.Blames consumer) (registerOf instruction) := by
  obtain ⟨register, hregister⟩ := hform.exists_register hkind
  rw [registerOf, hregister]
  exact .ok register

/-- Performing the action of a well-formed instruction goes wrong only if a word is missing. -/
lemma perform_blames {action : Action} (hform : instruction.WellFormed)
    (haction : instruction.opcode.action? = some action) :
    FailsOnly (Error.Blames consumer) (replay.perform consumer instruction action) := by
  have hhas := Opcode.has_of_action? haction
  cases action with
  | pushImmediate =>
    obtain ⟨width, hwidth⟩ := hhas
    obtain ⟨value, hvalue⟩ := hform.exists_immediate hwidth
    rw [perform, hvalue]
    exact .ok _
  | pushRegister mask =>
    obtain ⟨part, hpart, -⟩ := hhas
    exact (registerOf_blames consumer hform (by rw [hpart]; rfl)).bind fun register _ =>
      (read_blames consumer replay instruction register).bind fun _ _ => .pure _
  | popRegister =>
    have hpop : instruction.opcode = .pop := hhas
    exact (registerOf_blames consumer hform (by rw [hpop]; rfl)).bind fun _ _ =>
      (pop_blames consumer replay).bind fun _ _ => .pure _
  | binary f =>
    exact (pop_blames consumer replay).bind fun popped _ =>
      (pop_blames consumer popped.2).bind fun _ _ => .pure _
  | unary f => exact (pop_blames consumer replay).bind fun _ _ => .pure _
  | skip => exact .ok _

/-- A replay of instructions that were decoded and accepted blames the consumer. -/
lemma run_blames (instructions : List Instruction)
    (hform : ∀ instruction ∈ instructions, instruction.WellFormed)
    (hreplayable : ∀ instruction ∈ instructions, instruction.opcode.isReplayable = true) :
    FailsOnly (Error.Blames consumer) (replay.run consumer instructions) := by
  induction instructions generalizing replay with
  | nil => exact .ok _
  | cons instruction rest ih =>
    obtain ⟨action, haction⟩ :=
      Option.isSome_iff_exists.1 (hreplayable instruction List.mem_cons_self)
    refine FailsOnly.bind ?_ fun replay _ => ih replay
      (fun other hmem => hform other (List.mem_cons_of_mem _ hmem))
      fun other hmem => hreplayable other (List.mem_cons_of_mem _ hmem)
    rw [step, haction]
    exact perform_blames consumer replay (hform instruction List.mem_cons_self) haction

end Replay

namespace Evaluator

variable {evaluator : Evaluator}

/-- The findings that an evaluator looks at have the operands that their opcodes take. -/
def IsDecoded (evaluator : Evaluator) : Prop :=
  ∀ (offset : Offset) (finding : Finding), evaluator.findings[offset]? = some finding →
    finding.WellFormed

/-- On decoded findings, an evaluation blames the instruction for which it is made. -/
lemma evaluate_blames (h : evaluator.IsDecoded) (source consumer : Offset) :
    FailsOnly (Error.Blames consumer) (evaluator.evaluate source consumer) := by
  refine FailsOnly.bind (.mapError fun fault => ⟨fault, rfl⟩) fun closure hclosure => ?_
  obtain ⟨-, haccepts, -⟩ := Findings.mem_closure_iff (mapError_eq_ok_iff.1 hclosure)
  have hmember : ∀ instruction ∈ closure.toList.filterMap fun offset =>
      evaluator.findings[offset]?.map (·.toInstruction),
      instruction.WellFormed ∧ instruction.opcode.isReplayable = true := by
    intro instruction hmem
    obtain ⟨offset, hoffset, hfound⟩ := List.mem_filterMap.1 hmem
    obtain ⟨finding, hfinding, hreplayable, -⟩ :=
      haccepts offset (Std.ExtTreeSet.mem_toList.1 hoffset)
    rw [hfinding, Option.map_some, Option.some.injEq] at hfound
    exact hfound ▸ ⟨h offset finding hfinding, hreplayable⟩
  refine (Replay.run_blames consumer _ _ (fun i hi => (hmember i hi).1)
    fun i hi => (hmember i hi).2).bind fun replay _ => ?_
  split
  · exact .pure _
  · exact .throw ⟨_, rfl⟩

/-- **An evaluation on decoded instructions blames the consumer**, wherever in the chain of
producers the cause lies. -/
theorem resolve_blames (h : evaluator.IsDecoded) (value : Provenance) (consumer : Offset) :
    FailsOnly (Error.Blames consumer) (evaluator.resolve value consumer) := by
  unfold resolve
  split
  · exact .error ⟨_, rfl⟩
  · exact (FailsOnly.mapM fun source _ => evaluate_blames h source consumer).bind fun _ _ => .pure _

end Evaluator

/-! ## Executions and merges -/

/-- What goes wrong when an instruction is executed goes wrong at the instruction, if what was found
before was decoded. -/
lemma Error.Arises.offset? {evaluator : Evaluator} {offset : Offset} {stack : List Provenance}
    {error : Error} (h : error.Arises evaluator offset stack) (hdecoded : evaluator.IsDecoded) :
    error.offset? = some offset := by
  cases h with
  | evaluation _ hresolve =>
    obtain ⟨fault, rfl⟩ := Evaluator.resolve_blames hdecoded _ _ _ hresolve
    rfl
  | decode | underflow | operand | reference | noRegion | wrongHandler => rfl

/-- States that cannot be merged are at odds at the place of the stored one. -/
lemma State.merge_offset? (stored incoming : State) :
    FailsOnly (·.offset? = some stored.ip) (stored.merge incoming) :=
  merge_failsOnly (fun _ _ => rfl) (fun _ _ => rfl) incoming

namespace Run

variable {context : Context} {log : Log} {run base next : Run}

/-- What an analysis has found was decoded. -/
lemma Reachable.isDecoded (h : Reachable context log run) (settings : Settings) :
    Evaluator.IsDecoded ⟨run.findings, settings⟩ := by
  intro offset finding hfinding
  obtain ⟨-, -, _, _, hexecute, -⟩ := h.traced.exists_execution hfinding
  obtain ⟨key, hdecode⟩ := decodeAt_of_execute hexecute
  exact wellFormed_of_decodeAt hdecode

/-- **An execution fails at the place of its state.** -/
theorem Reachable.execute_located (h : Reachable context log run) (hintake : run.Intake base)
    (state : State) :
    FailsOnly (·.offset? = some state.ip) (context.execute base.findings state) := by
  intro error herror
  have hfindings : base.findings = run.findings := by rw [hintake.eq]
  rw [hfindings] at herror
  exact (context.execute_arises _ _ _ herror).offset? (h.isDecoded _)

/-- **A step fails at the place of the first state of the worklist**, unless the iterations are used
up. -/
theorem Reachable.step_located (h : Reachable context log run) {incoming : State}
    {rest : List State} (hqueue : run.queue = incoming :: rest) :
    FailsOnly (fun aborted => aborted.error = .iterationLimit context.settings.maxIterations ∨
      aborted.error.offset? = some incoming.ip) (run.step context) := by
  refine h.step_failsOnly (p := fun error =>
    error = .iterationLimit context.settings.maxIterations ∨ error.offset? = some incoming.ip)
    (Or.inl rfl) ?_ ?_
  · intro first rest' stored error hqueue' hstored hmerge
    obtain ⟨rfl, -⟩ := List.cons.inj (hqueue.symm.trans hqueue')
    have hip := ((h.traced.offsets incoming.ip).executed stored hstored).1
    exact Or.inr (hip ▸ stored.merge_offset? incoming error hmerge)
  · intro first rest' base state error hqueue' hintake hip _ hexecute
    obtain ⟨rfl, -⟩ := List.cons.inj (hqueue.symm.trans hqueue')
    exact Or.inr (hip ▸ h.execute_located hintake state error hexecute)

/-- **One more execution fails at the place of the stored state**, unless the iterations are used
up. -/
theorem Reachable.recheck_located (h : Reachable context log run) (offset : Offset) :
    FailsOnly (fun aborted => aborted.error = .iterationLimit context.settings.maxIterations ∨
      ∃ state, run.states[offset]? = some state ∧ aborted.error.offset? = some state.ip)
      (run.recheck context offset) := by
  refine h.recheck_failsOnly (p := fun error =>
    error = .iterationLimit context.settings.maxIterations ∨
      ∃ state, run.states[offset]? = some state ∧ error.offset? = some state.ip) offset
    (Or.inl rfl) ?_
  intro state error _ hstate hexecute
  exact Or.inr ⟨state, hstate, h.execute_located .tick state error hexecute⟩

/-! ## Stages -/

/-- Where an analysis stands: it works off the worklist, or it executes the states at some offsets
once more, after which it is known whether a meaning has changed. -/
inductive Stage where
  | working (run : Run)
  | checking (changed : Bool) (run : Run) (rest : List Offset)

namespace Stage

/-- What is known at a stage. -/
def known : Stage → Run
  | working run => run
  | checking _ run _ => run

/-- How an analysis goes on from a stage to the next one. -/
inductive Next (context : Context) : Stage → Stage → Prop
  | step {run next : Run} : run.step context = .ok (some next) →
      Next context (.working run) (.working next)
  /-- When the worklist is empty, all stored states are executed once more. -/
  | check {run : Run} : run.queue = [] →
      Next context (.working run) (.checking false run run.states.keys)
  | recheck {run next : Run} {changed stale : Bool} {offset : Offset} {rest : List Offset} :
      run.recheck context offset = .ok (stale, next) →
      Next context (.checking changed run (offset :: rest)) (.checking (changed || stale) next rest)
  /-- When a meaning has changed, the new paths are followed. -/
  | again {run : Run} : Next context (.checking true run []) (.working run)

/-- A stage fails with the state that it has in hand: the first state of the worklist, or the state
that is stored at the next offset. -/
inductive Fails (context : Context) : Stage → State → Error → Prop
  | step {run : Run} {incoming : State} {rest : List State} {aborted : Aborted} :
      run.queue = incoming :: rest → run.step context = .error aborted →
      Fails context (.working run) incoming aborted.error
  | recheck {run : Run} {changed : Bool} {offset : Offset} {rest : List Offset} {state : State}
      {aborted : Aborted} : run.states[offset]? = some state →
      run.recheck context offset = .error aborted →
      Fails context (.checking changed run (offset :: rest)) state aborted.error

/-- The stages that an analysis comes to. -/
def Reached (context : Context) (log : Log) : Stage → Prop :=
  Relation.ReflTransGen (Next context)
    (.working (seed context.subject.offset context.entryKey log))

variable {stage : Stage}

/-- What is known at the stages of an analysis are the runs that it passes through. -/
lemma Reached.reachable (h : Reached context log stage) : Reachable context log stage.known := by
  induction h with
  | refl => exact .seed
  | tail _ hnext ih =>
    cases hnext with
    | step hstep => exact ih.step hstep
    | check _ => exact ih
    | recheck hrecheck => exact ih.recheck hrecheck
    | again => exact ih

end Stage

/-- An error says that the iterations are used up, or the analysis has come to a stage that fails
with it, at the place of the state that the stage has in hand. -/
def IsTraced (context : Context) (log : Log) (error : Error) : Prop :=
  error = .iterationLimit context.settings.maxIterations ∨
    ∃ stage state, Stage.Reached context log stage ∧ stage.Fails context state error ∧
      error.offset? = some state.ip

namespace Stage.Reached

/-- A step of the worklist fails at the place of the state that it has in hand. -/
lemma step_traced (h : Reached context log (.working run)) :
    FailsOnly (IsTraced context log ·.error) (run.step context) := by
  intro aborted herror
  cases hqueue : run.queue with
  | nil =>
    rw [step_eq_none_iff.2 hqueue] at herror
    cases herror
  | cons incoming rest =>
    refine (h.reachable.step_located hqueue aborted herror).imp_right fun hoffset => ?_
    exact ⟨_, incoming, h, .step hqueue herror, hoffset⟩

/-- One more execution fails at the place of the state that it has in hand. -/
lemma recheck_traced {changed : Bool} {offset : Offset} {rest : List Offset}
    (h : Reached context log (.checking changed run (offset :: rest))) :
    FailsOnly (IsTraced context log ·.error) (run.recheck context offset) := by
  intro aborted herror
  refine (h.reachable.recheck_located offset aborted herror).imp_right ?_
  rintro ⟨state, hstate, hoffset⟩
  exact ⟨_, state, h, .recheck hstate herror, hoffset⟩

/-- Executing stored states once more fails at one of them, or comes to the last one. -/
lemma recheckAll_traced {changed : Bool} {offsets : List Offset}
    (h : Reached context log (.checking changed run offsets)) :
    FailsOnly (IsTraced context log ·.error) (run.recheckAll context changed offsets) ∧
      ∀ changed' last, run.recheckAll context changed offsets = .ok (changed', last) →
        Reached context log (.checking changed' last []) := by
  induction offsets generalizing run changed with
  | nil =>
    refine ⟨.ok _, fun changed' last hlast => ?_⟩
    obtain ⟨rfl, rfl⟩ := Prod.mk.inj (Except.ok.inj hlast)
    exact h
  | cons offset rest ih =>
    refine ⟨h.recheck_traced.bind fun (stale, next) hnext => ?_, fun changed' last hlast => ?_⟩
    · exact (ih (h.tail (.recheck hnext))).1
    · simp only [recheckAll, bind_eq_ok_iff, Prod.exists] at hlast
      obtain ⟨stale, next, hnext, hlast⟩ := hlast
      exact (ih (h.tail (.recheck hnext))).2 changed' last hlast

/-- Working until the worklist is empty fails at a step, or comes to an empty worklist. -/
lemma drainWithin_traced (h : Reached context log (.working run)) (rounds : Nat) :
    FailsOnly (IsTraced context log ·.error) (run.drainWithin context rounds) ∧
      ∀ last, run.drainWithin context rounds = .ok last →
        Reached context log (.working last) ∧ last.queue = [] := by
  induction rounds generalizing run with
  | zero => exact ⟨.error (Or.inl rfl), fun _ hlast => by cases hlast⟩
  | succ rounds ih =>
    refine ⟨h.step_traced.bind fun next? hnext => ?_, fun last hlast => ?_⟩
    · cases next? with
      | none => exact .pure _
      | some next => exact (ih (h.tail (.step hnext))).1
    · obtain ⟨next?, hnext, hlast⟩ := bind_eq_ok_iff.1 hlast
      cases next? with
      | none =>
        obtain rfl := pure_eq_ok_iff.1 hlast
        exact ⟨h, step_eq_none_iff.1 hnext⟩
      | some next => exact (ih (h.tail (.step hnext))).2 last hlast

/-- **An analysis that fails has come to a stage that fails.**

**Proof sketch.** Induction on the rounds.  Each of them goes from stage to stage: it empties the
worklist, executes all stored states once more, and starts again if a meaning has changed. -/
theorem settleWithin_traced (h : Reached context log (.working run)) (rounds : Nat) :
    FailsOnly (IsTraced context log ·.error) (run.settleWithin context rounds) := by
  induction rounds generalizing run with
  | zero => exact .error (Or.inl rfl)
  | succ rounds ih =>
    obtain ⟨hfails, hdrained⟩ := h.drainWithin_traced (context.settings.maxIterations
      - run.iterations + 1)
    refine hfails.bind fun drained hdrain => ?_
    obtain ⟨hreached, hqueue⟩ := hdrained drained hdrain
    have hchecking : Reached context log (.checking false drained drained.states.keys) :=
      hreached.tail (.check hqueue)
    obtain ⟨hfails, hchecked⟩ := hchecking.recheckAll_traced
    refine hfails.bind fun (changed, checked) hcheck => ?_
    have hlast := hchecked changed checked hcheck
    cases changed with
    | false => exact .pure _
    | true => exact ih (hlast.tail .again)

end Stage.Reached

end Run

/-! ## The analysis of a function -/

/-- The kinds of errors with which the analysis of a function can fail. -/
inductive Error.OfAnalysis : Error → Prop
  | decode (offset : Offset) (fault : DecodeFault) : OfAnalysis (.decode offset fault)
  | unresolvable (offset : Offset) (fault : ResolveFault) : OfAnalysis (.unresolvable offset fault)
  | stackUnderflow (offset : Offset) : OfAnalysis (.stackUnderflow offset)
  | referenceNotFound (id : ReferenceId) (offset : Offset) :
      OfAnalysis (.referenceNotFound id offset)
  | inconsistent (offset : Offset) (fault : ConsistencyFault) :
      OfAnalysis (.inconsistent offset fault)
  | iterationLimit (limit : Nat) : OfAnalysis (.iterationLimit limit)

/-- An error that names an instruction is of one of these kinds. -/
lemma Error.OfAnalysis.of_offset? {error : Error} {offset : Offset}
    (h : error.offset? = some offset) : error.OfAnalysis := by
  cases error with
  | decode | unresolvable | stackUnderflow | inconsistent | referenceNotFound => constructor
  | malformed | outOfBounds | file | other | incompleteTable | iterationLimit | exportNotFound
  | graph => cases h

/-- **The errors of an analysis are traced to the stage that fails.** -/
theorem Context.infer_traced (context : Context) (log : Log) :
    FailsOnly (Run.IsTraced context (context.announce log (.started context.subject.id
      context.subject.offset context.entryKey))) (context.infer log).2 := by
  intro error herror
  unfold infer at herror
  dsimp only at herror
  split at herror
  · next aborted haborted =>
    obtain rfl := Except.error.inj herror
    exact Run.Stage.Reached.settleWithin_traced .refl _ aborted haborted
  · cases herror

/-- **The kinds and the places of the errors of an analysis.**  The analysis of a function that is
not in the table fails because it is not found.  If the analysis of any other function fails, then
with an error of one of the kinds above.  Either the iterations are used up; or the analysis has
come from its start to a stage at which a state was being merged or executed, this has failed with
the error, and the error names the place of that state. -/
theorem Image.infer_located (image : Image) (settings : Settings) (log : Log) (id : ExportId) :
    (image.exports.entries[id]? = none →
      (image.infer settings log id).2 = .error (.exportNotFound id)) ∧
    ∀ subject, image.exports.entries[id]? = some subject → ∀ error,
      (image.infer settings log id).2 = .error error →
      let context : Context := { image, settings, subject }
      let opened := context.announce log (.started subject.id subject.offset context.entryKey)
      error.OfAnalysis ∧
      (error = .iterationLimit settings.maxIterations ∨
        ∃ stage state, Run.Stage.Reached context opened stage ∧
          stage.Fails context state error ∧ error.offset? = some state.ip) := by
  constructor
  · intro hnone
    simp only [infer, ExportTable.find, hnone]
  · intro subject hsubject error herror context opened
    simp only [infer, ExportTable.find, hsubject] at herror
    have htraced : Run.IsTraced context opened error := context.infer_traced log error herror
    refine ⟨?_, htraced⟩
    rcases htraced with rfl | ⟨_, _, -, -, hoffset⟩
    · exact .iterationLimit _
    · exact .of_offset? hoffset

/-- A function that jumps to a sum of which one summand is a register without a value: `PUSHR R1`,
`PUSHI 6`, `ADD`, `JMP`. -/
def Image.unsetJump : Image where
  blob := .ofBlocks .sequential [(0, [(.pushr .qword, .register .r1), (.pushi .dword, .dword 6),
    (.add .dword, .none), (.jmp, .none)])]
  table := .sequential
  exports := .ofList [{ id := 1, offset := 0, entryKey? := some 0 }]
  references := ∅

/-- The jump at 11 is blamed, although it is the instruction at 0 that cannot be replayed. -/
theorem Image.infer_located_unsetJump :
    (unsetJump.infer {} {} 2).2 = .error (.exportNotFound 2) ∧
    ∃ error subject log stage state, (unsetJump.infer {} {} 1).2 = .error error ∧
      error = .unresolvable 11 (.unsetRegister (.pushr .qword) 0 .r1) ∧
      Run.Stage.Reached ⟨unsetJump, {}, subject⟩ log stage ∧
      stage.Fails ⟨unsetJump, {}, subject⟩ state error ∧ state.ip = 11 := by
  have hmissing : unsetJump.exports.entries[(2 : ExportId)]? = none := by decide +kernel
  have hsubject : unsetJump.exports.entries[(1 : ExportId)]?
      = some { id := 1, offset := 0, entryKey? := some 0 } := by decide +kernel
  have herror : (unsetJump.infer {} {} 1).2
      = .error (.unresolvable 11 (.unsetRegister (.pushr .qword) 0 .r1)) :=
    eq_error_of_failsWith (by decide +kernel)
  refine ⟨(infer_located unsetJump {} {} 2).1 hmissing, ?_⟩
  obtain ⟨-, hlimit | ⟨stage, state, hreached, hfails, hoffset⟩⟩ :=
    (infer_located unsetJump {} {} 1).2 _ hsubject _ herror
  · cases hlimit
  · exact ⟨_, _, _, stage, state, herror, rfl, hreached, hfails, (Option.some.inj hoffset).symm⟩

end KeyedVM
