import KeyedVM.Proofs.Dependency.Evaluation
import KeyedVM.Proofs.Inference.Fixpoint

set_option relaxedAutoImplicit false
set_option autoImplicit false

/-!
# Evaluation on the result of an analysis

On the findings of an analysis, an evaluation that stands in order gives the value of its source in
the dependency graph.  Code that is laid out in another order than it is executed in shows that the
order matters: a register is then read before the `POP` that is recorded for it is replayed.  So do
flags, which arithmetic writes in the program but not in a replay, and loops, which a replay goes
through once.

## Main definitions

* `KeyedVM.Context.Misleads` — some evaluation gives another number than the value of its source;
* `KeyedVM.Context.Circles` — some evaluation gives a number for what depends on itself.

## Main results

* `KeyedVM.wellFormed_of_decodeAt` — what is decoded has the operand that its opcode takes;
* `KeyedVM.Context.decodeAt_of_infer` — every instruction of a result was decoded where it stands;
* `KeyedVM.Context.evaluate_hasValue` — an evaluation in order gives the value of the source;
* `KeyedVM.Context.evaluate_misleads` — other evaluations need not.
-/

namespace KeyedVM

/-! ## Decoded instructions -/

/-- **What is decoded has the operand that its opcode takes.** -/
theorem wellFormed_of_decodeAt {table : ByteTable} {blob : Blob} {position : Offset}
    {key key' : Key} {instruction : Instruction}
    (h : decodeAt table blob position key = .ok (instruction, key')) :
    instruction.WellFormed :=
  kind_of_decodeAt h

namespace Context

variable {context : Context} {log : Log} {inference : Inference}

/-- Every instruction of a result was decoded where it stands, with the key of its state. -/
theorem decodeAt_of_infer (h : (context.infer log).2 = .ok inference) {offset : Offset}
    {finding : Finding} (hfinding : inference.findings[offset]? = some finding) :
    finding.state.ip = offset ∧ finding.offset = offset ∧
      ∃ key, decodeAt context.image.table context.image.blob offset finding.state.key
        = .ok (finding.toInstruction, key) := by
  obtain ⟨run, rfl, hreachable, -⟩ := infer_eq_ok h
  obtain ⟨rfl, -, _, _, hexecute, -⟩ := hreachable.traced.exists_execution hfinding
  exact ⟨rfl, Run.offset_of_execute hexecute, Run.decodeAt_of_execute hexecute⟩

/-- Every instruction of a result has the operand that its opcode takes. -/
theorem wellFormed_of_infer (h : (context.infer log).2 = .ok inference) {offset : Offset}
    {finding : Finding} (hfinding : inference.findings[offset]? = some finding) :
    finding.WellFormed := by
  obtain ⟨-, -, key, hdecode⟩ := decodeAt_of_infer h hfinding
  exact wellFormed_of_decodeAt hdecode

/-! ## Evaluation in order and out of order -/

/-- **An evaluation in order gives the value of the source.**  On the findings of an analysis, take
a source whose closure stands in the order in which it was recorded.  If the evaluation gives a
number, then there is no cycle below the source, and the number is its value in the dependency
graph. -/
theorem evaluate_hasValue {source consumer : Offset} {members : List Finding} {value : UInt64}
    (hinfer : (context.infer log).2 = .ok inference)
    (horder : InOrder inference.findings context.settings.initialRegisters source members)
    (hevaluate : (⟨inference.findings, context.settings⟩ : Evaluator).evaluate source consumer
      = .ok value) :
    inference.findings.AcyclicFrom source ∧
      inference.findings.HasValue context.settings.initialRegisters source value := by
  have hform : ∀ finding ∈ members, finding.WellFormed := by
    intro finding hfinding
    exact wellFormed_of_infer hinfer (horder.stored finding hfinding)
  have hvalue := horder.hasValue hform hevaluate
  exact ⟨hvalue.acyclic, hvalue⟩

/-- What computes the sum of the jump to a sum stands in order. -/
lemma exists_inOrder_jumpToSum :
    ∃ inference members, (jumpToSum.infer {}).2 = .ok inference ∧
      InOrder inference.findings jumpToSum.settings.initialRegisters 12 members := by
  obtain ⟨inference, hinfer, hclosure, hstored, hrecorded, hflags⟩ : ∃ inference,
      (jumpToSum.infer {}).2 = .ok inference ∧
      let members := [0, 6, 12].filterMap fun offset : Offset => inference.findings[offset]?
      (inference.findings.closure 4096 12).toOption.map (·.toList)
        = some (members.map (·.offset)) ∧
      (∀ finding ∈ members, inference.findings[finding.offset]? = some finding) ∧
      (∃ last, Recorded {} members last) ∧
      (∀ finding ∈ members, ∀ writer ∈ members, ¬ finding.ReadsFlagsOf writer) :=
    exists_eq_ok (by decide +kernel)
  exact ⟨inference, _, hinfer, .of_closure hclosure hstored hrecorded hflags⟩

/-- The sum of the jump to a sum is evaluated in order. -/
theorem evaluate_jumpToSum :
    ∃ inference, (jumpToSum.infer {}).2 = .ok inference ∧
      inference.findings.HasValue jumpToSum.settings.initialRegisters 12 16 := by
  obtain ⟨inference, members, hinfer, horder⟩ := exists_inOrder_jumpToSum
  obtain ⟨inference', hinfer', hevaluate⟩ : ∃ inference, (jumpToSum.infer {}).2 = .ok inference ∧
      (⟨inference.findings, jumpToSum.settings⟩ : Evaluator).evaluate 12 14 = .ok 16 :=
    exists_eq_ok (by decide +kernel)
  obtain rfl := Except.ok.inj (hinfer.symm.trans hinfer')
  exact ⟨inference, hinfer, (evaluate_hasValue hinfer horder hevaluate).2⟩

/-- On the result of an analysis, some evaluation gives a number that is not the value of its
source. -/
def Misleads (context : Context) : Prop :=
  ∃ inference source consumer value, (context.infer {}).2 = .ok inference ∧
    (⟨inference.findings, context.settings⟩ : Evaluator).evaluate source consumer = .ok value ∧
    ¬ (inference.findings.AcyclicFrom source ∧
      inference.findings.HasValue context.settings.initialRegisters source value)

/-- In the relay, `BP` is pushed at 8 with the value 41 that was popped into it at 19.  But 8 comes
before 19, so the evaluation finds the entry value zero. -/
lemma relay_misleads : relay.Misleads := by
  obtain ⟨inference, hinfer, hevaluate, hviews⟩ : ∃ inference,
      (relay.infer {}).2 = .ok inference ∧
      (⟨inference.findings, relay.settings⟩ : Evaluator).evaluate 8 11 = .ok 0 ∧
      ([8, 19, 13].map fun offset : Offset => inference.findings[offset]?.map fun f =>
        (f.toInstruction, f.consumed)) =
      [some (⟨8, .pushr .qword, .register .bp⟩, [.of 19]),
        some (⟨19, .pop, .register .bp⟩, [.of 13]),
        some (⟨13, .pushi .dword, .dword 41⟩, [])] :=
    exists_eq_ok (by decide +kernel)
  simp only [List.map_cons, List.map_nil, List.cons.injEq, and_true] at hviews
  obtain ⟨hpush, hpop, himmediate⟩ := hviews
  obtain ⟨push, hpush, hpushView⟩ := Option.map_eq_some_iff.1 hpush
  obtain ⟨pop, hpop, hpopView⟩ := Option.map_eq_some_iff.1 hpop
  obtain ⟨immediate, himmediate, himmediateView⟩ := Option.map_eq_some_iff.1 himmediate
  simp only [Prod.mk.injEq] at hpushView hpopView himmediateView
  have hvalue : inference.findings.HasValue relay.settings.initialRegisters 8
      (41 &&& Part.mask .qword) :=
    .register hpush (by rw [hpushView.1]; rfl) hpushView.2 hpop (by rw [hpopView.1])
      (.popped hpop (by rw [hpopView.1]; rfl) hpopView.2
        (.immediate himmediate (by rw [himmediateView.1]; rfl)
          (by rw [himmediateView.1]; rfl) himmediateView.2))
  refine ⟨inference, 8, 11, 0, hinfer, hevaluate, ?_⟩
  intro h
  exact absurd (hvalue.unique h.2) (by decide)

/-- With stale flags, the flags are pushed at 54 as the addition at 52 has left them.  But the
evaluation finds what was popped into them at 36. -/
lemma staleFlags_misleads : staleFlags.Misleads := by
  obtain ⟨inference, hinfer, hevaluate, hviews⟩ : ∃ inference,
      (staleFlags.infer {}).2 = .ok inference ∧
      (⟨inference.findings, staleFlags.settings⟩ : Evaluator).evaluate 54 57 = .ok 59 ∧
      ([54, 52].map fun offset : Offset => inference.findings[offset]?.map fun f =>
        (f.toInstruction, f.consumed)) =
      [some (⟨54, .pushr .qword, .register .fl⟩, [.of 52]),
        some (⟨52, .add .qword, .none⟩, [.of 42, .of 39])] :=
    exists_eq_ok (by decide +kernel)
  simp only [List.map_cons, List.map_nil, List.cons.injEq, and_true] at hviews
  obtain ⟨hpush, hadd⟩ := hviews
  obtain ⟨push, hpush, hpushView⟩ := Option.map_eq_some_iff.1 hpush
  obtain ⟨add, hadd, haddView⟩ := Option.map_eq_some_iff.1 hadd
  simp only [Prod.mk.injEq] at hpushView haddView
  refine ⟨inference, 54, 57, 59, hinfer, hevaluate, fun ⟨_, hvalue⟩ => ?_⟩
  have haction : push.opcode.action? = some (.pushRegister (Part.mask .qword)) := by
    rw [hpushView.1]
    rfl
  rcases (Findings.hasValue_iff hpush haction).1 hvalue with
    ⟨_, _, -, hunknown, -⟩ | ⟨producer, writer, _, hof, hwriter, hpop, -⟩
  · rw [hpushView.2, List.cons.injEq] at hunknown
    exact Provenance.of_ne_unknown 52 hunknown.1
  · rw [hpushView.2, List.cons.injEq] at hof
    obtain rfl := Provenance.of_injective hof.1
    obtain rfl := Option.some.inj (hadd.symm.trans hwriter)
    rw [haddView.1] at hpop
    cases hpop

/-- On the result of an analysis, some evaluation gives a number although there is a cycle below its
source. -/
def Circles (context : Context) : Prop :=
  ∃ inference source consumer value, (context.infer {}).2 = .ok inference ∧
    (⟨inference.findings, context.settings⟩ : Evaluator).evaluate source consumer = .ok value ∧
    ¬ inference.findings.AcyclicFrom source

/-- In the counting loop, the only recorded producer of the counter that is pushed at 0 is the `POP`
at 11, which depends on that push.  But the evaluation of the counter behind the `POP` goes through
the loop once, and gives one. -/
lemma counting_circles : counting.Circles := by
  obtain ⟨inference, hinfer, hevaluate, hconsumed⟩ : ∃ inference,
      (counting.infer {}).2 = .ok inference ∧
      (⟨inference.findings, counting.settings⟩ : Evaluator).evaluate 14 23 = .ok 1 ∧
      ([14, 11, 9, 0].map fun offset : Offset => inference.findings[offset]?.map (·.consumed)) =
        [some [.of 11], some [.of 9], some [.of 3, .of 0], some [.of 11]] :=
    exists_eq_ok (by decide +kernel)
  simp only [List.map_cons, List.map_nil, List.cons.injEq, and_true] at hconsumed
  obtain ⟨hread, hpop, hadd, hpush⟩ := hconsumed
  refine ⟨inference, 14, 23, 1, hinfer, hevaluate, fun hacyclic => ?_⟩
  have hread : inference.findings.DependsOn 14 11 := .of_consumed hread (by simp)
  have hpop : inference.findings.DependsOn 11 9 := .of_consumed hpop (by simp)
  have hadd : inference.findings.DependsOn 9 0 := .of_consumed hadd (by simp)
  have hpush : inference.findings.DependsOn 0 11 := .of_consumed hpush (by simp)
  exact hacyclic 11 (.single hread) (.head hpop (.head hadd (.single hpush)))

/-- **Other evaluations need not give the value of the source**: those of code that is laid out in
another order than it is executed in, those of flags, and those of a loop, in which there need not
even be such a value. -/
theorem evaluate_misleads : relay.Misleads ∧ staleFlags.Misleads ∧ counting.Circles :=
  ⟨relay_misleads, staleFlags_misleads, counting_circles⟩

end Context

end KeyedVM
