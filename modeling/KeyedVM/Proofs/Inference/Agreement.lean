import KeyedVM.Proofs.Inference.Effects

set_option relaxedAutoImplicit false
set_option autoImplicit false

/-!
# What an execution looks at

An execution looks at the findings so far only to evaluate values, and an evaluation looks at
instructions and at what those of them consume that can be replayed.  So findings that agree on this
much, but perhaps not on meanings, let every execution come out the same.  What an instruction that
can be replayed consumes does not depend on findings at all.

## Main definitions

* `KeyedVM.Finding.Agrees`, `KeyedVM.Findings.Agree` — findings that no evaluation can tell apart.

## Main results

* `KeyedVM.Evaluator.resolve_congr` — evaluations on findings that agree come out the same;
* `KeyedVM.Context.execute_congr` — so do executions;
* `KeyedVM.Context.execute_agrees` — two executions of a state give findings that agree.
-/

namespace KeyedVM

/-- What can be replayed does not influence control flow. -/
lemma Opcode.flow_of_isReplayable {opcode : Opcode} (h : opcode.isReplayable = true) :
    opcode.flow = .sequential := by
  cases opcode <;> simp_all [isReplayable, action?, flow]

/-! ## Findings that agree -/

/-- Two findings that an evaluation cannot tell apart: they are about the same instruction, and they
consume the same if the instruction can be replayed. -/
structure Finding.Agrees (a b : Finding) : Prop where
  instruction : a.toInstruction = b.toInstruction
  consumed : a.opcode.isReplayable = true → a.consumed = b.consumed

/-- Every finding agrees with itself. -/
lemma Finding.Agrees.refl (finding : Finding) : finding.Agrees finding := ⟨rfl, fun _ => rfl⟩

/-- Findings that agree have the same opcode. -/
lemma Finding.Agrees.opcode {a b : Finding} (h : a.Agrees b) : a.opcode = b.opcode := by
  rw [h.instruction]

namespace Findings

/-- Findings at the same places that an evaluation cannot tell apart. -/
def Agree (a b : Findings) : Prop :=
  ∀ offset : Offset, Option.Rel Finding.Agrees a[offset]? b[offset]?

/-- Findings agree with themselves. -/
lemma Agree.refl (findings : Findings) : findings.Agree findings := by
  intro offset
  cases findings[offset]? with
  | none => exact .none
  | some finding => exact .some (.refl finding)

/-- Recording what an instruction agrees with changes nothing that an evaluation can tell. -/
lemma Agree.insert {findings : Findings} {known finding : Finding}
    (hknown : findings[finding.offset]? = some known) (h : known.Agrees finding) :
    findings.Agree (findings.insert finding.offset finding) := by
  intro offset
  rw [Std.ExtTreeMap.getElem?_insert]
  split
  · next heq =>
    rw [← Std.LawfulEqOrd.eq_of_compare heq, hknown]
    exact .some h
  · exact Agree.refl findings offset

variable {a b : Findings}

/-- Findings that agree have the same instructions. -/
lemma Agree.map_toInstruction (h : a.Agree b) (offset : Offset) :
    a[offset]?.map (·.toInstruction) = b[offset]?.map (·.toInstruction) := by
  have h := h offset
  generalize a[offset]? = x, b[offset]? = y at h ⊢
  cases h with
  | none => rfl
  | some h => rw [Option.map_some, Option.map_some, h.instruction]

/-- Whether an instruction takes part in a closure, and with which producers. -/
lemma accept_congr (h : a.Agree b) (offset : Offset) : a.accept offset = b.accept offset := by
  have h := h offset
  unfold accept
  generalize a[offset]? = x, b[offset]? = y at h ⊢
  cases h with
  | none => rfl
  | @some known finding h =>
    have hproducers : known.opcode.isReplayable = true → known.producers = finding.producers := by
      intro hreplayable
      obtain ⟨hinstruction, hconsumed⟩ := h
      have hconsumed := hconsumed hreplayable
      obtain ⟨instruction, state, meaning?, consumed⟩ := known
      subst hinstruction hconsumed
      rfl
    simp only [h.opcode] at hproducers ⊢
    split
    · next hreplayable => exact hproducers hreplayable
    · rfl

/-- The growth of a closure comes out the same on findings that agree. -/
lemma expand_congr (h : a.Agree b) (limit room : Nat) (members : Provenance)
    (pending : List Offset) :
    a.expand limit room members pending = b.expand limit room members pending := by
  induction room generalizing members pending with
  | zero =>
    unfold expand
    split
    · rfl
    · rfl
  | succ room ih =>
    unfold expand
    split
    · rfl
    · simp only [accept_congr h, ih]

end Findings

/-! ## Evaluations -/

namespace Evaluator

variable {a b : Evaluator}

/-- Evaluations on findings that agree come out the same. -/
lemma evaluate_congr {findings findings' : Findings} (h : findings.Agree findings')
    (settings : Settings) (source consumer : Offset) :
    Evaluator.evaluate ⟨findings, settings⟩ source consumer
      = Evaluator.evaluate ⟨findings', settings⟩ source consumer := by
  simp only [evaluate, Findings.closure, Findings.expand_congr h, h.map_toInstruction]

/-- **Evaluations on findings that agree come out the same.** -/
theorem resolve_congr {findings findings' : Findings} (h : findings.Agree findings')
    (settings : Settings) :
    Evaluator.resolve ⟨findings, settings⟩ = Evaluator.resolve ⟨findings', settings⟩ := by
  funext value consumer
  simp only [resolve, evaluate_congr h]

/-- Evaluators that resolve alike find the same single numbers. -/
lemma resolveSingle_congr (h : a.resolve = b.resolve) : a.resolveSingle = b.resolveSingle := by
  funext value consumer role
  simp only [resolveSingle, h]

end Evaluator

/-! ## Executions -/

section Executions

variable {a b : Evaluator} (h : a.resolve = b.resolve)

include h

namespace Transfer

/-- An argument that is resolved comes out the same for evaluators that resolve alike. -/
lemma resolveArgument_congr : resolveArgument a = resolveArgument b := by
  funext role transfer
  simp only [resolveArgument, Evaluator.resolveSingle_congr h]

/-- A call of an external method comes out the same for evaluators that resolve alike. -/
lemma external_congr (image : Image) : external image a = external image b := by
  funext transfer
  simp only [external, resolveArgument_congr h]

/-- A helper of any form comes out the same for evaluators that resolve alike. -/
lemma helperForm_congr (image : Image) : helperForm image a = helperForm image b := by
  funext call transfer form
  cases form <;> simp only [helperForm, external_congr h, resolveArgument_congr h]

/-- A helper call comes out the same for evaluators that resolve alike. -/
lemma helperCall_congr (image : Image) : helperCall image a = helperCall image b := by
  funext transfer
  simp only [helperCall, helperForm_congr h, resolveArgument_congr h]

end Transfer

namespace Context

/-- A jump comes out the same for evaluators that resolve alike. -/
lemma jump_congr : jump a = jump b := by
  funext transfer
  simp only [jump, h]

/-- A conditional jump comes out the same for evaluators that resolve alike. -/
lemma conditionalJump_congr : conditionalJump a = conditionalJump b := by
  funext transfer
  simp only [conditionalJump, h]

/-- A switch comes out the same for evaluators that resolve alike. -/
lemma switch_congr (image : Image) : switch image a = switch image b := by
  funext transfer
  simp only [switch, Evaluator.resolveSingle_congr h]

/-- A call comes out the same for evaluators that resolve alike. -/
lemma call_congr (context : Context) : context.call a = context.call b := by
  funext transfer
  simp only [call, Transfer.resolveArgument_congr h]

/-- What a handler takes comes out the same for evaluators that resolve alike. -/
lemma handlerArguments_congr : handlerArguments a = handlerArguments b := by
  funext kind transfer
  cases kind <;> simp only [handlerArguments, Transfer.resolveArgument_congr h]

/-- The entry of a region comes out the same for evaluators that resolve alike. -/
lemma enter_congr (context : Context) : context.enter a = context.enter b := by
  funext transfer
  simp only [enter, handlerArguments_congr h, Transfer.resolveArgument_congr h]

/-- The end of a region comes out the same for evaluators that resolve alike. -/
lemma leave_congr : leave a = leave b := by
  funext transfer
  simp only [leave, Transfer.resolveArgument_congr h]

/-- The effects of a helper call come out the same for evaluators that resolve alike. -/
lemma helper_congr (image : Image) : helper image a = helper image b := by
  funext transfer
  simp only [helper, Transfer.helperCall_congr h]

end Context

end Executions

namespace Context

variable {context : Context} {findings findings' : Findings}

/-- The effects of an instruction come out the same on findings that agree. -/
lemma transfer_congr (h : findings.Agree findings') (instruction : Instruction) (state : State)
    (key : Key) : context.transfer findings instruction state key
      = context.transfer findings' instruction state key := by
  have hresolve := Evaluator.resolve_congr h context.settings
  unfold transfer
  cases instruction.flow with
  | sequential => rfl
  | jump => simp only [jump_congr hresolve]
  | conditionalJump => simp only [conditionalJump_congr hresolve]
  | switch => simp only [switch_congr hresolve]
  | call => simp only [call_congr hresolve]
  | ret => rfl
  | enter => simp only [enter_congr hresolve]
  | leave => simp only [leave_congr hresolve]
  | helper => simp only [helper_congr hresolve]

/-- **Executions on findings that agree come out the same.** -/
theorem execute_congr (h : findings.Agree findings') (state : State) :
    context.execute findings state = context.execute findings' state := by
  simp only [execute, transfer_congr h]

/-- **Two executions of a state give findings that agree**, also if they were based on different
findings: what an instruction consumes can only depend on them if it cannot be replayed. -/
theorem execute_agrees {state : State} {finding finding' : Finding} {effects effects' : Effects}
    (h : context.execute findings state = .ok (finding, effects))
    (h' : context.execute findings' state = .ok (finding', effects')) :
    finding.Agrees finding' := by
  obtain ⟨instruction, key, hdecode, htransfer, rfl⟩ := execute_eq_ok_iff.1 h
  obtain ⟨instruction', key', hdecode', htransfer', rfl⟩ := execute_eq_ok_iff.1 h'
  obtain ⟨rfl, rfl⟩ : instruction = instruction' ∧ key = key' := by
    simpa using hdecode.symm.trans hdecode'
  refine ⟨rfl, fun hreplayable => ?_⟩
  have hflow : instruction.flow = .sequential := Opcode.flow_of_isReplayable hreplayable
  have hsame : context.transfer findings instruction state key
      = context.transfer findings' instruction state key := by
    simp only [transfer, hflow]
  rw [htransfer, htransfer'] at hsame
  rw [Except.ok.inj hsame]

end Context

end KeyedVM
