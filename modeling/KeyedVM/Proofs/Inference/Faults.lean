import KeyedVM.Proofs.Decoding
import KeyedVM.Proofs.Inference.Runs

set_option relaxedAutoImplicit false
set_option autoImplicit false

/-!
# How an analysis fails

Decoding, executing and merging fail with errors that name the instruction they are about.  An
analysis runs nothing else, so it fails with such an error or because the iterations are used up.

## Main definitions

* `KeyedVM.Error.IsLocated` — an error names the instruction it is about;
* `KeyedVM.Error.IsLimit` — an error says that the iterations are used up;
* `KeyedVM.Evaluator.Fault` — why a consumed value cannot be evaluated;
* `KeyedVM.Error.Arises` — what can go wrong when an instruction is executed.

## Main results

* `KeyedVM.Evaluator.resolve_fails` — an evaluation fails for no other reason;
* `KeyedVM.Context.execute_arises` — nothing else goes wrong in an execution, so that what does is
  located (`KeyedVM.Context.execute_located`);
* `KeyedVM.Run.arrive_located` — so is what goes wrong when a state arrives;
* `KeyedVM.Context.infer_failsOnly` — what goes wrong in an analysis goes wrong in one of its steps;
* `KeyedVM.Context.infer_fails` — an analysis fails with a located error or runs out of iterations.
-/

namespace KeyedVM

/-- An error names the instruction it is about. -/
def Error.IsLocated (error : Error) : Prop := error.offset?.isSome = true

/-- An error says that the iterations are used up. -/
def Error.IsLimit (error : Error) : Prop := ∃ limit, error = .iterationLimit limit

/-- An error that names an instruction is not about the number of iterations. -/
lemma Error.IsLocated.not_isLimit {error : Error} (h : error.IsLocated) : ¬ error.IsLimit := by
  rintro ⟨limit, rfl⟩
  exact Bool.false_ne_true h

/-! ## Evaluation -/

/-- A replay cannot go on. -/
def ResolveFault.isReplay : ResolveFault → Bool
  | .unsetRegister _ _ _ | .chainUnderflow | .noRegister _ | .noImmediate
  | .unsupportedInChain _ => true
  | _ => false

/-- An error says that a replay cannot go on. -/
def Error.IsReplay (error : Error) : Prop :=
  ∃ offset fault, error = .unresolvable offset fault ∧ fault.isReplay = true

namespace Replay

/-- A replay that pops from an empty stack cannot go on. -/
lemma pop_fails (consumer : Offset) (replay : Replay) :
    FailsOnly Error.IsReplay (replay.pop consumer) := by
  unfold pop
  split
  · exact .error ⟨_, _, rfl, rfl⟩
  · exact .ok _

/-- A replay of an instruction without its register cannot go on. -/
lemma registerOf_fails (instruction : Instruction) :
    FailsOnly Error.IsReplay (registerOf instruction) := by
  unfold registerOf
  split
  · exact .ok _
  · exact .error ⟨_, _, rfl, rfl⟩

/-- A replay that reads a register without a value cannot go on. -/
lemma read_fails (consumer : Offset) (replay : Replay) (instruction : Instruction)
    (register : Register) :
    FailsOnly Error.IsReplay (replay.read consumer instruction register) := by
  unfold read
  split
  · exact .ok _
  · exact .error ⟨_, _, rfl, rfl⟩

/-- An action fails only where the replay cannot go on. -/
lemma perform_fails (consumer : Offset) (replay : Replay) (instruction : Instruction)
    (action : Action) : FailsOnly Error.IsReplay (replay.perform consumer instruction action) := by
  cases action with
  | pushImmediate =>
    rw [perform]
    split
    · exact .ok _
    · exact .error ⟨_, _, rfl, rfl⟩
  | pushRegister mask =>
    exact (registerOf_fails instruction).bind fun register _ =>
      (read_fails consumer replay instruction register).bind fun _ _ => .pure _
  | popRegister =>
    exact (registerOf_fails instruction).bind fun _ _ =>
      (pop_fails consumer replay).bind fun _ _ => .pure _
  | binary f =>
    exact (pop_fails consumer replay).bind fun (_, replay) _ =>
      (pop_fails consumer replay).bind fun _ _ => .pure _
  | unary f => exact (pop_fails consumer replay).bind fun _ _ => .pure _
  | skip => exact .ok _

/-- A step of a replay fails only where the replay cannot go on. -/
lemma step_fails (consumer : Offset) (replay : Replay) (instruction : Instruction) :
    FailsOnly Error.IsReplay (replay.step consumer instruction) := by
  unfold step
  split
  · exact perform_fails consumer replay instruction _
  · exact .error ⟨_, _, rfl, rfl⟩

/-- A replay fails only where it cannot go on. -/
lemma run_fails (consumer : Offset) (replay : Replay) (instructions : List Instruction) :
    FailsOnly Error.IsReplay (replay.run consumer instructions) := by
  induction instructions generalizing replay with
  | nil => exact .ok _
  | cons instruction rest ih =>
    exact (step_fails consumer replay instruction).bind fun replay _ => ih replay

end Replay

namespace Evaluator

/-- Why a consumed value cannot be evaluated. -/
inductive Fault (evaluator : Evaluator) (value : Provenance) : ResolveFault → Prop
  | noProvenance : value.isEmpty = true → Fault evaluator value .noProvenance
  /-- The closure of a producer is not found. -/
  | closure {source : Offset} {fault : ResolveFault} : source ∈ value →
      evaluator.findings.closure evaluator.settings.maxClosure source = .error fault →
      Fault evaluator value fault
  | replay {fault : ResolveFault} : fault.isReplay = true → Fault evaluator value fault
  | noValue : Fault evaluator value .noValue

/-- An error says that a consumed value cannot be evaluated. -/
def Fails (evaluator : Evaluator) (value : Provenance) (error : Error) : Prop :=
  ∃ offset fault, error = .unresolvable offset fault ∧ evaluator.Fault value fault

variable (evaluator : Evaluator) {value : Provenance}

/-- The evaluation of a producer fails only if the value that it produces cannot be evaluated. -/
lemma evaluate_fails {source : Offset} (hsource : source ∈ value) (consumer : Offset) :
    FailsOnly (evaluator.Fails value) (evaluator.evaluate source consumer) := by
  refine FailsOnly.bind ?_ fun closure _ => ?_
  · cases hclosure : evaluator.findings.closure evaluator.settings.maxClosure source with
    | ok closure => exact .ok closure
    | error fault => exact .error ⟨consumer, fault, rfl, .closure hsource hclosure⟩
  · refine ((Replay.run_fails consumer _ _).mono ?_).bind fun replay _ => ?_
    · rintro error ⟨offset, fault, rfl, hfault⟩
      exact ⟨offset, fault, rfl, .replay hfault⟩
    · split
      · exact .pure _
      · exact .throw ⟨consumer, _, rfl, .noValue⟩

/-- The numbers of a value are not found only if it cannot be evaluated. -/
lemma resolve_fails (value : Provenance) (consumer : Offset) :
    FailsOnly (evaluator.Fails value) (evaluator.resolve value consumer) := by
  unfold resolve
  split
  · next hempty => exact .error ⟨consumer, _, rfl, .noProvenance hempty⟩
  · refine (FailsOnly.mapM fun source hsource => ?_).bind fun _ _ => .pure _
    exact evaluator.evaluate_fails (Std.ExtTreeSet.mem_toList.1 hsource) consumer

end Evaluator

/-! ## Transfers -/

/-- A computed operand has a value, but the instruction cannot use it. -/
def ResolveFault.isOperand : ResolveFault → Bool
  | .ambiguous _ _ | .switchOutside _ | .switchAddress _ | .switchArm _ | .unknownHandlerKind _
  | .caughtTypeRange _ | .unknownHelper _ | .unknownFlavour _ | .notAMethod _
  | .referenceRange _ => true
  | _ => false

/-- What can go wrong when the instruction at `offset` is executed on a stack. -/
inductive Error.Arises (evaluator : Evaluator) (offset : Offset) (stack : List Provenance) :
    Error → Prop
  | decode (fault : DecodeFault) : Arises evaluator offset stack (.decode offset fault)
  | underflow : Arises evaluator offset stack (.stackUnderflow offset)
  /-- A slot of the stack cannot be evaluated. -/
  | evaluation {value : Provenance} {error : Error} : value ∈ stack →
      evaluator.resolve value offset = .error error → Arises evaluator offset stack error
  | operand {fault : ResolveFault} : fault.isOperand = true →
      Arises evaluator offset stack (.unresolvable offset fault)
  | reference (id : ReferenceId) : Arises evaluator offset stack (.referenceNotFound id offset)
  | noRegion : Arises evaluator offset stack (.inconsistent offset .noRegion)
  | wrongHandler (handler : Offset) (region : Region) :
      Arises evaluator offset stack (.inconsistent offset (.wrongHandler handler region))

/-- Whatever goes wrong in an execution names an instruction. -/
lemma Error.Arises.isLocated {evaluator : Evaluator} {offset : Offset} {stack : List Provenance}
    {error : Error} (h : error.Arises evaluator offset stack) : error.IsLocated := by
  cases h with
  | evaluation _ hresolve =>
    obtain ⟨_, _, rfl, -⟩ := evaluator.resolve_fails _ _ _ hresolve
    rfl
  | decode | underflow | operand | reference | noRegion | wrongHandler => rfl

section Transfers

variable {evaluator : Evaluator} {offset : Offset} {stack : List Provenance} {t u : Transfer}

namespace Transfer

/-- A transfer of the instruction at `offset` that has only slots of `stack` left to pop. -/
structure Within (offset : Offset) (stack : List Provenance) (t : Transfer) : Prop where
  offset : t.offset = offset
  stack : ∀ value ∈ t.post.stack, value ∈ stack

/-- What is popped was a slot of the stack, and only slots of the stack are left. -/
lemma Within.pop (h : t.Within offset stack) {value : Provenance} (hpop : t.pop = .ok (value, u)) :
    value ∈ stack ∧ u.Within offset stack := by
  obtain ⟨rest, hstack, rfl⟩ := pop_eq_ok_iff.1 hpop
  have hslots := h.stack
  rw [hstack] at hslots
  exact ⟨hslots value List.mem_cons_self,
    h.offset, fun other hmem => hslots other (List.mem_cons_of_mem _ hmem)⟩

/-- Resolving an argument leaves only slots of the stack. -/
lemma Within.resolveArgument (h : t.Within offset stack) {role : String} {number : UInt64}
    (hresolve : t.resolveArgument evaluator role = .ok (number, u)) : u.Within offset stack := by
  obtain ⟨value, hpop, -⟩ := resolveArgument_eq_ok_iff.1 hresolve
  exact (h.pop hpop).2

/-- Popping an empty stack is an underflow. -/
lemma pop_arises (h : t.Within offset stack) :
    FailsOnly (Error.Arises evaluator offset stack) t.pop := by
  refine FailsOnly.bind ?_ fun _ _ => .pure _
  unfold State.pop
  split
  · exact .error (h.offset ▸ .underflow)
  · exact .ok _

/-- Popping too many slots is an underflow. -/
lemma popMany_arises (h : t.Within offset stack) (n : Nat) :
    FailsOnly (Error.Arises evaluator offset stack) (t.popMany n) := by
  induction n generalizing t with
  | zero => exact .ok _
  | succ n ih => exact (pop_arises h).bind fun (_, u) hpop => ih (h.pop hpop).2

/-- A slot that is no single number either cannot be evaluated or is ambiguous. -/
lemma resolveSingle_arises {value : Provenance} (hvalue : value ∈ stack) (role : String) :
    FailsOnly (Error.Arises evaluator offset stack)
      (evaluator.resolveSingle value offset role) := by
  refine FailsOnly.bind (fun _ herror => .evaluation hvalue herror) fun numbers _ => ?_
  split
  · exact .pure _
  · exact .throw (.operand rfl)

/-- An argument that is not resolved was missing, or its slot is no single number. -/
lemma resolveArgument_arises (h : t.Within offset stack) (role : String) :
    FailsOnly (Error.Arises evaluator offset stack) (t.resolveArgument evaluator role) := by
  refine (pop_arises h).bind fun (value, u) hpop => ?_
  obtain ⟨hvalue, hu⟩ := h.pop hpop
  dsimp only
  rw [hu.offset]
  exact (resolveSingle_arises hvalue role).bind fun _ _ => .pure _

/-- A name that is not found has a number out of range, or no reference. -/
lemma named_arises (references : ReferenceTable) (h : t.Within offset stack) (raw : UInt64) :
    FailsOnly (Error.Arises evaluator offset stack) (references.named t.offset raw) := by
  rw [h.offset]
  unfold ReferenceTable.named
  split
  · exact .error (.operand rfl)
  · split
    · exact .error (.reference _)
    · exact .ok _

/-- A call of an external method fails in one of the listed ways. -/
lemma external_arises (image : Image) (h : t.Within offset stack) :
    FailsOnly (Error.Arises evaluator offset stack) (t.external image evaluator) := by
  refine (resolveArgument_arises h _).bind fun (raw, u) hu => ?_
  have hu := h.resolveArgument hu
  have hrest : ∀ {u : Transfer} (n : Nat) (f : Transfer → Meaning × Transfer),
      u.Within offset stack → FailsOnly (Error.Arises evaluator offset stack) (do
        let u ← u.popMany n
        return f u) :=
    fun n _ hu => (popMany_arises hu n).bind fun _ _ => .pure _
  dsimp only
  split
  · exact .throw (hu.offset ▸ .operand rfl)
  · refine (named_arises _ hu _).bind fun named _ => ?_
    split
    · exact .throw (hu.offset ▸ .operand rfl)
    · split
      · exact (resolveArgument_arises hu _).bind fun (raw, v) hv =>
          (named_arises _ (hu.resolveArgument hv) _).bind fun _ _ =>
            hrest _ _ (hu.resolveArgument hv)
      · exact hrest _ _ hu

/-- A helper of any form fails in one of the listed ways. -/
lemma helperForm_arises (image : Image) (call : HelperCall) (form : HelperForm)
    (h : t.Within offset stack) :
    FailsOnly (Error.Arises evaluator offset stack) (t.helperForm image evaluator call form) := by
  cases form with
  | external => exact external_arises image h
  | naming role flagged pops pushes =>
    refine (resolveArgument_arises h role).bind fun (raw, u) hu => ?_
    have hu := h.resolveArgument hu
    exact (named_arises _ hu _).bind fun _ _ => (popMany_arises hu pops).bind fun _ _ => .pure _
  | plain pops pushes => exact (popMany_arises h pops).bind fun _ _ => .pure _
  | throwing =>
    exact (resolveArgument_arises h _).bind fun (_, u) hu =>
      (popMany_arises (h.resolveArgument hu) _).bind fun _ _ => .pure _

/-- A helper call fails in one of the listed ways. -/
lemma helperCall_arises (image : Image) (h : t.Within offset stack) :
    FailsOnly (Error.Arises evaluator offset stack) (t.helperCall image evaluator) := by
  refine (resolveArgument_arises h _).bind fun (id, u) hu => ?_
  have hu := h.resolveArgument hu
  dsimp only
  split
  · exact .throw (hu.offset ▸ .operand rfl)
  · exact (helperForm_arises image _ _ hu).bind fun _ _ => .pure _

end Transfer

/-! ## Executions -/

/-- What cannot be read of a switch table is an operand of no use. -/
lemma Image.switchTargets_fails (image : Image) (offset address base : Offset) :
    FailsOnly (fun error => ∃ fault, error = .unresolvable offset fault ∧ fault.isOperand = true)
      (image.switchTargets offset address base) := by
  unfold Image.switchTargets
  split
  · exact .error ⟨_, rfl, rfl⟩
  · refine FailsOnly.bind (.mapError fun _ => ⟨_, rfl, rfl⟩) fun count _ => ?_
    refine FailsOnly.mapM fun arm _ => ?_
    refine FailsOnly.bind (.mapError fun _ => ⟨_, rfl, rfl⟩) fun relative _ => ?_
    dsimp only
    split
    · exact .pure _
    · exact .throw ⟨_, rfl, rfl⟩

/-- A switch table fails where its address, an entry or a target is out of range. -/
lemma Image.switchTargets_arises (image : Image) (address base : Offset) :
    FailsOnly (Error.Arises evaluator offset stack) (image.switchTargets offset address base) := by
  refine (image.switchTargets_fails offset address base).mono ?_
  rintro _ ⟨fault, rfl, hfault⟩
  exact .operand hfault

namespace Context

variable (context : Context)

open Transfer

/-- An instruction without effect on control flow fails by underflow only. -/
lemma sequential_arises (instruction : Instruction) (h : t.Within offset stack) :
    FailsOnly (Error.Arises evaluator offset stack) (sequential instruction t) :=
  (popMany_arises h _).bind fun _ _ => .pure _

/-- A jump evaluates the slot that it has popped. -/
lemma resolve_arises {value : Provenance} (hvalue : value ∈ stack) (h : u.Within offset stack) :
    FailsOnly (Error.Arises evaluator offset stack) (evaluator.resolve value u.offset) := by
  rw [h.offset]
  exact fun _ herror => .evaluation hvalue herror

/-- A jump fails where its target is not found. -/
lemma jump_arises (h : t.Within offset stack) :
    FailsOnly (Error.Arises evaluator offset stack) (jump evaluator t) := by
  refine (pop_arises h).bind fun (target, u) hpop => ?_
  obtain ⟨htarget, hu⟩ := h.pop hpop
  exact (resolve_arises htarget hu).bind fun _ _ => .pure _

/-- A conditional jump fails where its target or its condition is not found. -/
lemma conditionalJump_arises (h : t.Within offset stack) :
    FailsOnly (Error.Arises evaluator offset stack) (conditionalJump evaluator t) := by
  refine (pop_arises h).bind fun (target, u) hpop => ?_
  obtain ⟨htarget, hu⟩ := h.pop hpop
  refine (pop_arises hu).bind fun (_, v) hpop => ?_
  exact (resolve_arises htarget (hu.pop hpop).2).bind fun _ _ => .pure _

/-- A switch fails where its operands or its table are not found. -/
lemma switch_arises (image : Image) (h : t.Within offset stack) :
    FailsOnly (Error.Arises evaluator offset stack) (switch image evaluator t) := by
  refine (pop_arises h).bind fun (address, u) hpop => ?_
  obtain ⟨haddress, hu⟩ := h.pop hpop
  refine (pop_arises hu).bind fun (_, v) hpop => ?_
  dsimp only
  rw [(hu.pop hpop).2.offset]
  exact (resolveSingle_arises haddress _).bind fun _ _ =>
    (image.switchTargets_arises _ _).bind fun _ _ => .pure _

/-- A call fails where its target is not found, or with an underflow. -/
lemma call_arises (h : t.Within offset stack) :
    FailsOnly (Error.Arises evaluator offset stack) (context.call evaluator t) := by
  refine (resolveArgument_arises h _).bind fun (address, u) hu => ?_
  dsimp only
  split
  · exact .pure _
  · exact (popMany_arises (h.resolveArgument hu) _).bind fun _ _ => .pure _

/-- A return fails by underflow only. -/
lemma ret_arises (state : State) (h : t.Within offset stack) :
    FailsOnly (Error.Arises evaluator offset stack) (ret state t) :=
  (pop_arises h).bind fun _ _ => .pure _

/-- What a handler takes fails to be found, or is out of range. -/
lemma handlerArguments_arises (kind : HandlerKind) (h : t.Within offset stack) :
    FailsOnly (Error.Arises evaluator offset stack) (handlerArguments evaluator kind t) := by
  cases kind with
  | typed =>
    refine (resolveArgument_arises h _).bind fun (raw, u) hu => ?_
    dsimp only
    split
    · exact .throw ((h.resolveArgument hu).offset ▸ .operand rfl)
    · exact .pure _
  | filtered => exact (resolveArgument_arises h _).bind fun _ _ => .pure _
  | fault => exact .ok _
  | cleanup => exact .ok _

/-- The arguments of a handler are taken from the stack. -/
lemma within_handlerArguments {kind : HandlerKind} {caught? : Option ReferenceId}
    {filter? : Option Offset} (h : t.Within offset stack)
    (harguments : handlerArguments evaluator kind t = .ok (caught?, filter?, u)) :
    u.Within offset stack := by
  rcases handlerArguments_cases harguments with ⟨_, _, _, hu⟩ | ⟨_, rfl⟩
  · exact h.resolveArgument hu
  · exact h

/-- The entry of a region fails where its kind, its handler or what that takes is not found. -/
lemma enter_arises (h : t.Within offset stack) :
    FailsOnly (Error.Arises evaluator offset stack) (context.enter evaluator t) := by
  refine (resolveArgument_arises h _).bind fun (raw, u) hu => ?_
  have hu := h.resolveArgument hu
  dsimp only
  split
  · exact .throw (hu.offset ▸ .operand rfl)
  · refine (handlerArguments_arises _ hu).bind fun (_, _, v) hv => ?_
    exact (resolveArgument_arises (within_handlerArguments hu hv) _).bind fun _ _ => .pure _

/-- The end of a region fails where no region is open, or another handler is named. -/
lemma leave_arises (h : t.Within offset stack) :
    FailsOnly (Error.Arises evaluator offset stack) (leave evaluator t) := by
  refine (resolveArgument_arises h _).bind fun (handler, u) hu => ?_
  have hoffset := (h.resolveArgument hu).offset
  dsimp only
  split
  · exact .throw (hoffset ▸ .noRegion)
  · split
    · exact .pure _
    · exact .throw (hoffset ▸ .wrongHandler _ _)

/-- An instruction that calls a helper fails as the helper does. -/
lemma helper_arises (image : Image) (h : t.Within offset stack) :
    FailsOnly (Error.Arises evaluator offset stack) (helper image evaluator t) :=
  (helperCall_arises image h).bind fun _ _ => .pure _

/-- **The effects of an instruction fail only in the listed ways**, for the stack before it. -/
lemma transfer_arises (findings : Findings) (instruction : Instruction) (state : State)
    (key : Key) :
    FailsOnly (Error.Arises ⟨findings, context.settings⟩ instruction.offset state.stack)
      (context.transfer findings instruction state key) := by
  have hwithin : Within instruction.offset state.stack
      { offset := instruction.offset, post := { state with ip := instruction.next, key } } :=
    ⟨rfl, fun _ hmem => hmem⟩
  unfold Context.transfer
  dsimp only
  split
  · exact sequential_arises instruction hwithin
  · exact jump_arises hwithin
  · exact conditionalJump_arises hwithin
  · exact switch_arises _ hwithin
  · exact context.call_arises hwithin
  · exact ret_arises _ hwithin
  · exact context.enter_arises hwithin
  · exact leave_arises hwithin
  · exact helper_arises _ hwithin

/-- **What can go wrong in an execution.**  The instruction cannot be decoded, the stack is too
short, a slot of the stack cannot be evaluated, its value is of no use, a reference is missing, or
the wrong region is left; and the error names the place of the state. -/
theorem execute_arises (findings : Findings) (state : State) :
    FailsOnly (Error.Arises ⟨findings, context.settings⟩ state.ip state.stack)
      (context.execute findings state) := by
  refine FailsOnly.bind ?_ fun (instruction, key) hdecode => ?_
  · unfold decodeAt
    split
    · exact .ok _
    · exact .error (.decode _)
  · rw [← offset_of_decodeAt hdecode]
    exact (context.transfer_arises findings instruction state key).bind fun _ _ => .pure _

/-- **What goes wrong in an execution is located.** -/
theorem execute_located (findings : Findings) (state : State) :
    FailsOnly Error.IsLocated (context.execute findings state) :=
  (context.execute_arises findings state).mono fun _ h => h.isLocated

end Context

end Transfers

/-! ## Runs -/

/-- A merge fails because of the open regions or because of the depths, at the place of the stored
state. -/
lemma State.merge_failsOnly {p : Error → Prop} {stored : State}
    (hregions : ∀ known arriving, p (.inconsistent stored.ip (.regionMismatch known arriving)))
    (hdepths : ∀ known arriving, p (.inconsistent stored.ip (.depthMismatch known arriving)))
    (incoming : State) : FailsOnly p (stored.merge incoming) := by
  unfold State.merge
  split
  · refine FailsOnly.bind ?_ fun _ _ => .pure _
    unfold mergeStacks
    split
    · exact .ok _
    · exact .error (hdepths _ _)
  · exact .error (hregions _ _)

/-- States that cannot be merged are at odds at a place that the error names. -/
lemma State.merge_located (stored incoming : State) :
    FailsOnly Error.IsLocated (stored.merge incoming) :=
  merge_failsOnly (fun _ _ => rfl) (fun _ _ => rfl) incoming

/-- The error with which an analysis ends is located. -/
def Aborted.IsLocated (aborted : Aborted) : Prop := aborted.error.IsLocated

/-- The error with which an analysis ends is located, or the iterations are used up. -/
def Aborted.IsExpected (aborted : Aborted) : Prop :=
  aborted.error.IsLocated ∨ aborted.error.IsLimit

namespace Run

variable {context : Context}

/-- What holds of the errors of a step holds of the errors that end the analysis with it. -/
lemma attempt_failsOnly {α : Type} {p : Error → Prop} (run : Run) {result : Except Error α}
    (h : FailsOnly p result) : FailsOnly (p ·.error) (run.attempt result) := by
  cases result with
  | ok a => exact .ok a
  | error error => exact .error (h error rfl)

/-- Where a step fails with located errors only, so does the analysis. -/
lemma attempt_located {α : Type} (run : Run) {result : Except Error α}
    (h : FailsOnly Error.IsLocated result) : FailsOnly Aborted.IsLocated (run.attempt result) :=
  run.attempt_failsOnly h

/-- An instruction that was decoded a second time differently is named. -/
lemma commit_located (run : Run) (finding : Finding) (effects : Effects) :
    FailsOnly Aborted.IsLocated (run.commit context finding effects) := by
  unfold commit
  split
  · split
    · exact .ok _
    · exact .error rfl
  · exact .ok _

/-- A visit fails with located errors only. -/
lemma visit_located (run : Run) (state : State) :
    FailsOnly Aborted.IsLocated (run.visit context state) :=
  (run.attempt_located (context.execute_located _ _)).bind fun _ _ => run.commit_located _ _

/-- **What goes wrong when a state arrives is located.** -/
theorem arrive_located (run : Run) (incoming : State) :
    FailsOnly Aborted.IsLocated (run.arrive context incoming) := by
  unfold arrive
  split
  · exact visit_located _ _
  · refine (run.attempt_located (State.merge_located _ _)).bind fun merged _ => ?_
    dsimp only
    split
    · exact visit_located _ _
    · exact .pure _

/-- A tick fails only where the iterations are used up. -/
lemma tick_failsOnly {p : Error → Prop} (run : Run)
    (h : p (.iterationLimit context.settings.maxIterations)) :
    FailsOnly (p ·.error) (run.tick context) := by
  unfold tick
  split
  · exact .ok _
  · exact .error h

/-- A tick fails as is to be expected. -/
lemma tick_expected (run : Run) : FailsOnly Aborted.IsExpected (run.tick context) :=
  run.tick_failsOnly (p := fun error => error.IsLocated ∨ error.IsLimit) (Or.inr ⟨_, rfl⟩)

/-- A step of the worklist fails as is to be expected. -/
lemma step_expected (run : Run) : FailsOnly Aborted.IsExpected (run.step context) := by
  unfold step
  split
  · exact .ok _
  · exact (tick_expected _).bind fun run _ =>
      ((run.arrive_located _).mono fun _ => Or.inl).bind fun _ _ => .pure _

/-- One more execution of a stored state fails as is to be expected. -/
lemma recheck_expected (run : Run) (offset : Offset) :
    FailsOnly Aborted.IsExpected (run.recheck context offset) := by
  refine (tick_expected run).bind fun run _ => ?_
  split
  · exact .pure _
  · refine ((run.attempt_located (context.execute_located _ _)).mono fun _ => Or.inl).bind
      fun (finding, effects) _ => ?_
    dsimp only
    split
    · exact ((run.commit_located finding effects).mono fun _ => Or.inl).bind fun _ _ => .pure _
    · exact .pure _

variable {log : Log} {p : Aborted → Prop}

/-- What goes wrong while stored states are executed once more goes wrong at one of them. -/
lemma recheckAll_failsOnly
    (hrecheck : ∀ run offset, Reachable context log run → FailsOnly p (run.recheck context offset))
    {run : Run} (hrun : Reachable context log run) (changed : Bool) (offsets : List Offset) :
    FailsOnly p (run.recheckAll context changed offsets) := by
  induction offsets generalizing run changed with
  | nil => exact .ok _
  | cons offset rest ih =>
    exact (hrecheck run offset hrun).bind fun (_, next) hnext => ih (hrun.recheck hnext) _

/-- What holds of every error of a step, and of the limit, holds of every error of the worklist. -/
lemma drainWithin_failsOnly
    (hlimit : ∀ log, p ⟨.iterationLimit context.settings.maxIterations, log⟩)
    (hstep : ∀ run, Reachable context log run → FailsOnly p (run.step context))
    {run : Run} (hrun : Reachable context log run) (rounds : Nat) :
    FailsOnly p (run.drainWithin context rounds) := by
  induction rounds generalizing run with
  | zero => exact .error (hlimit _)
  | succ rounds ih =>
    refine (hstep run hrun).bind fun next? hnext => ?_
    cases next? with
    | none => exact .pure _
    | some next => exact ih (hrun.step hnext)

/-- What holds of every error of a step or of one more execution, and of the limit, holds of every
error of the whole loop. -/
lemma settleWithin_failsOnly
    (hlimit : ∀ log, p ⟨.iterationLimit context.settings.maxIterations, log⟩)
    (hstep : ∀ run, Reachable context log run → FailsOnly p (run.step context))
    (hrecheck : ∀ run offset, Reachable context log run → FailsOnly p (run.recheck context offset))
    {run : Run} (hrun : Reachable context log run) (rounds : Nat) :
    FailsOnly p (run.settleWithin context rounds) := by
  induction rounds generalizing run with
  | zero => exact .error (hlimit _)
  | succ rounds ih =>
    refine (drainWithin_failsOnly hlimit hstep hrun _).bind fun drained hdrain => ?_
    have hdrained := (drainWithin_eq_ok hrun hdrain).1
    refine (recheckAll_failsOnly hrecheck hdrained _ _).bind fun (changed, checked) hcheck => ?_
    cases changed with
    | false => exact .pure _
    | true => exact ih (recheckAll_reachable hdrained hcheck)

end Run

namespace Context

/-- **What goes wrong in an analysis goes wrong in one of its steps**, or the iterations are used
up. -/
theorem infer_failsOnly {context : Context} {p : Error → Prop}
    (hlimit : p (.iterationLimit context.settings.maxIterations))
    (hstep : ∀ (log : Log) (run : Run), Run.Reachable context log run →
      FailsOnly (p ·.error) (run.step context))
    (hrecheck : ∀ (log : Log) (run : Run) (offset : Offset), Run.Reachable context log run →
      FailsOnly (p ·.error) (run.recheck context offset)) (log : Log) :
    FailsOnly p (context.infer log).2 := by
  intro error herror
  unfold infer at herror
  dsimp only at herror
  split at herror
  · next aborted haborted =>
    obtain rfl := Except.error.inj herror
    exact Run.settleWithin_failsOnly (fun _ => hlimit) (hstep _) (hrecheck _) .seed _ aborted
      haborted
  · cases herror

/-- **An analysis fails with a located error or runs out of iterations.** -/
theorem infer_fails (context : Context) (log : Log) :
    FailsOnly (fun error => error.IsLocated ∨ error.IsLimit) (context.infer log).2 :=
  infer_failsOnly (Or.inr ⟨_, rfl⟩) (fun _ run _ => run.step_expected)
    (fun _ run offset _ => run.recheck_expected offset) log

end Context

end KeyedVM
