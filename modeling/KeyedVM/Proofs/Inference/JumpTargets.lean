import KeyedVM.Proofs.Dependency.Tracking
import KeyedVM.Proofs.Inference.Soundness

set_option relaxedAutoImplicit false
set_option autoImplicit false

/-!
# Recorded targets cover the jumps of a run

A machine that starts at the entry of a function is tracked by the result of the analysis of that
function, as long as it goes where jumps are recorded to go.  A jump goes to a recorded target if
the producers of its target stand in order and the run has not read a register that it had not
written, although a producer of the register is recorded.  Both happen: code may be laid out in
another order than it is executed in, and where paths meet the entry value of a register is
forgotten if one of them has written it.

## Main definitions

* `KeyedVM.Context.Branches` — what the result of an analysis says about a jump;
* `KeyedVM.Context.Starts` — a machine stands at the entry of a function;
* `KeyedVM.Findings.ReadsUnwritten` — a move reads a register that is wrongly taken as written;
* `KeyedVM.Findings.Traceable` — the target of a jump can be traced along a run;
* `KeyedVM.Context.Escapes` — a run makes a jump that is not recorded.

## Main results

* `KeyedVM.Context.tracks_run` — a run that keeps to the recorded targets is tracked;
* `KeyedVM.Context.target_mem_targets` — a traceable jump goes to a recorded target;
* `KeyedVM.Context.run_covered` — so do all jumps of a run, if they are traceable;
* `KeyedVM.Context.run_escapes` — others need not.
-/

namespace KeyedVM

/-! ## Covered states -/

/-- A state that covers the slots and the registers of one that tracks a store tracks the store. -/
lemma Tracks.cover {findings : Findings} {entry : RegisterFile (Option UInt64)}
    {sound : Offset → Prop} {written : Register → Prop} {state successor stored : State}
    {store : Store} (h : Tracks findings entry sound written state store)
    (hcovers : stored.Covers successor) (hstack : successor.stack = state.stack)
    (hregisters : successor.registers = state.registers) :
    Tracks findings entry sound written stored store where
  slots := by
    have hslots := h.slots
    have hsubsets := hcovers.stack
    rw [hstack] at hsubsets
    generalize state.stack = slots at hslots hsubsets
    generalize stored.stack = slots' at hsubsets ⊢
    generalize store.stack = words at hslots ⊢
    induction hsubsets generalizing words with
    | nil =>
      cases hslots
      exact .nil
    | cons hsubset _ ih =>
      cases hslots with
      | cons hword hwords =>
        obtain ⟨label, hlabel, hagrees⟩ := hword
        exact .cons ⟨label, Provenance.isSubset_eq_true_iff.1 hsubset label hlabel, hagrees⟩
          (ih _ hwords)
  registers register := by
    have hsubset := hcovers.registers register
    rw [hregisters] at hsubset
    rcases h.registers register with hunwritten | ⟨label, hlabel, hagrees⟩
    · exact Or.inl hunwritten
    · exact Or.inr ⟨label, Provenance.isSubset_eq_true_iff.1 hsubset label hlabel, hagrees⟩

namespace Context

variable {context : Context} {log : Log} {inference : Inference}

/-- What a machine executes with the stored key is the instruction of the result. -/
lemma toInstruction_eq (h : (context.infer log).2 = .ok inference) {machine : Machine}
    {instruction : Instruction} {key : Key} {finding : Finding}
    (hfinding : inference.findings[machine.ip]? = some finding)
    (hkey : finding.state.key = machine.key)
    (hdecode : decodeAt context.image.table context.image.blob machine.ip machine.key
      = .ok (instruction, key)) : finding.toInstruction = instruction := by
  obtain ⟨-, -, key', hdecode'⟩ := decodeAt_of_infer h hfinding
  rw [hkey, hdecode, Except.ok.injEq, Prod.mk.injEq] at hdecode'
  exact hdecode'.1.symm

/-! ## The effects of the instructions that a run executes -/

/-- An instruction of a result without influence on control flow records what it consumes, and the
state behind it is covered. -/
lemma sequential_effects (h : (context.infer log).2 = .ok inference) {offset : Offset}
    {finding : Finding} (hfinding : inference.findings[offset]? = some finding)
    (hflow : finding.flow = .sequential) :
    finding.opcode.pops ≤ finding.state.stack.length ∧
      finding.consumed = finding.toInstruction.consumes finding.state ∧
      ∃ target, inference.findings[finding.next]? = some target ∧
        ∃ successor, target.state.Covers successor ∧
          successor.stack = (finding.toInstruction.after finding.state).stack ∧
          successor.registers = (finding.toInstruction.after finding.state).registers := by
  have hopcode : finding.opcode ≠ .enter := by
    intro henter
    rw [Instruction.flow, henter] at hflow
    cases hflow
  obtain ⟨effects, hexecute, hcovered⟩ := exists_effects h hfinding hopcode
  obtain ⟨instruction, key, -, htransfer, hsame⟩ := execute_eq_ok_iff.1 hexecute
  obtain rfl : finding.toInstruction = instruction := by rw [hsame]
  have hconsumed : finding.consumed = effects.consumed := by rw [hsame]
  simp only [transfer, hflow] at htransfer
  obtain ⟨hpops, rfl⟩ := (sequential_eq_ok_iff rfl).1 htransfer
  obtain ⟨target, htarget, hcovers, -⟩ := hcovered _ List.mem_cons_self
  exact ⟨hpops, hconsumed, target, htarget, _, hcovers, rfl, rfl⟩

/-- What the result of an analysis says about a jump: the numbers that its target may be, which are
recorded as targets, and what is covered behind it. -/
structure Branches (context : Context) (findings : Findings) (finding : Finding)
    (slot : Provenance) (numbers : List UInt64) : Prop where
  popped : ∃ rest, finding.state.stack = slot :: rest
  consumed : finding.consumed.head? = some slot
  resolved : (⟨findings, context.settings⟩ : Evaluator).resolve slot finding.offset = .ok numbers
  targets : ∀ number ∈ numbers, number ∈ finding.targets
  next : finding.flow = .conditionalJump → finding.next ∈ finding.targets
  covered : ∀ target ∈ finding.targets, ∃ stored, findings[target]? = some stored ∧
    ∃ successor, stored.state.Covers successor ∧
      successor.stack = finding.state.stack.drop finding.opcode.pops ∧
      successor.registers = finding.state.registers

/-- A jump of a result is recorded with its targets, and the states behind it are covered. -/
lemma exists_branches (h : (context.infer log).2 = .ok inference) {offset : Offset}
    {finding : Finding} (hfinding : inference.findings[offset]? = some finding)
    (hjumps : Machine.Jumps finding.toInstruction) :
    ∃ slot numbers, context.Branches inference.findings finding slot numbers := by
  have hopcode : finding.opcode ≠ .enter := by
    intro henter
    rw [Machine.Jumps, Instruction.flow, henter] at hjumps
    rcases hjumps with hflow | hflow <;> cases hflow
  have hpops : (finding.flow = .jump → finding.opcode.pops = 1) ∧
      (finding.flow = .conditionalJump → finding.opcode.pops = 2) := Opcode.pops_of_flow
  obtain ⟨effects, hexecute, hcovered⟩ := exists_effects h hfinding hopcode
  obtain ⟨instruction, key, -, htransfer, hsame⟩ := execute_eq_ok_iff.1 hexecute
  obtain rfl : finding.toInstruction = instruction := by rw [hsame]
  have hconsumed : finding.consumed = effects.consumed := by rw [hsame]
  have htargets : finding.targets = (effects.meaning?.bind Meaning.targets?).getD [] := by
    rw [Finding.targets, hsame]
  rcases hjumps with hflow | hflow
  · simp only [transfer, hflow, jump, bind_eq_ok_iff, Prod.exists, Transfer.pop_eq_ok_iff,
      pure_eq_ok_iff] at htransfer
    obtain ⟨slot, _, ⟨rest, hstack, rfl⟩, numbers, hresolved, rfl⟩ := htransfer
    obtain htargets : finding.targets = numbers := htargets
    refine ⟨slot, numbers, ⟨rest, hstack⟩, by rw [hconsumed]; rfl, hresolved, ?_, ?_, ?_⟩
    · intro number hnumber
      rwa [htargets]
    · intro hconditional
      rw [hflow] at hconditional
      cases hconditional
    · intro target htarget
      obtain ⟨stored, hstored, hcovers, -⟩ := hcovered _ (List.mem_map_of_mem (htargets ▸ htarget))
      refine ⟨stored, hstored, _, hcovers, ?_, rfl⟩
      rw [hpops.1 hflow, hstack]
      rfl
  · simp only [transfer, hflow, conditionalJump, bind_eq_ok_iff, Prod.exists,
      Transfer.pop_eq_ok_iff, pure_eq_ok_iff] at htransfer
    obtain ⟨slot, _, ⟨rest, hstack, rfl⟩, condition, _, ⟨rest', hstack', rfl⟩, numbers, hresolved,
      rfl⟩ := htransfer
    obtain htargets : finding.targets = numbers.filter (· ≠ finding.next) ++ [finding.next] :=
      htargets
    refine ⟨slot, numbers, ⟨rest, hstack⟩, by rw [hconsumed]; rfl, hresolved, ?_, ?_, ?_⟩
    · intro number hnumber
      rw [htargets]
      by_cases hnext : number = finding.next
      · simp [hnext]
      · simp [hnext, hnumber]
    · simp [htargets]
    · intro target htarget
      obtain ⟨stored, hstored, hcovers, -⟩ := hcovered _ (List.mem_map_of_mem (htargets ▸ htarget))
      refine ⟨stored, hstored, _, hcovers, ?_, rfl⟩
      rw [hpops.2 hflow, hstack]
      simpa using congrArg (List.drop 1) hstack'.symm

end Context

/-! ## Runs that keep to the recorded targets -/

/-- A machine stands at the entry of the function under analysis: with the entry key, an empty stack
and, where the settings give one, the entry value in every register. -/
structure Context.Starts (context : Context) (machine : Machine) : Prop where
  ip : machine.ip = context.subject.offset
  key : machine.key = context.entryKey
  stack : machine.stack = []
  registers : ∀ register word, context.settings.initialRegisters.get register = some word →
    word = machine.registers.get register

/-- The machine at the entry of the function under analysis with zero in every register. -/
def Context.zeroed (context : Context) : Machine where
  ip := context.subject.offset
  key := context.entryKey
  registers := .fill 0

/-- By default, a machine may start with zero in every register. -/
lemma Context.starts_zeroed {context : Context} (h : context.settings = {}) :
    context.Starts context.zeroed where
  ip := rfl
  key := rfl
  stack := rfl
  registers register word hword := by
    rw [h] at hword
    rw [Settings.eq_zero_of_get_default hword]
    exact (RegisterFile.get_fill 0 register).symm

namespace Findings

/-- The keys of some moves are those of the states stored where they start. -/
def HasKeys (findings : Findings) (moves : List Move) : Prop :=
  ∀ move ∈ moves, ∀ finding ∈ findings[move.before.ip]?, finding.state.key = move.before.key

/-- Whether the findings have the keys of some moves can be computed. -/
instance (findings : Findings) (moves : List Move) : Decidable (findings.HasKeys moves) :=
  inferInstanceAs (Decidable (∀ move ∈ moves, ∀ finding ∈ findings[move.before.ip]?, _))

/-- After some earlier moves, a move reads a register that none of them has written, although the
register is recorded as written on some path. -/
def ReadsUnwritten (findings : Findings) (earlier : List Move) (move : Move) : Prop :=
  ∃ register, move.instruction.read? = some register ∧ ¬ Written earlier register ∧
    ∃ finding, findings[move.before.ip]? = some finding ∧ finding.consumed ≠ [.unknown]

/-- Along some moves, nothing that takes part in what the instruction at `offset` produces reads a
register that has not been written, although it is recorded as written. -/
def SoundAlong (findings : Findings) (moves : List Move) (offset : Offset) : Prop :=
  ∀ earlier move, earlier ++ [move] <+: moves → findings.TakesPart offset move.before.ip →
    ¬ findings.ReadsUnwritten earlier move

/-- What takes part in something sound is sound. -/
lemma SoundAlong.of_dependsOn {findings : Findings} {moves : List Move} {offset producer : Offset}
    (hdepends : findings.DependsOn offset producer) (h : findings.SoundAlong moves offset) :
    findings.SoundAlong moves producer := by
  intro earlier move hfront hpart
  exact h earlier move hfront (Relation.ReflTransGen.head hdepends hpart)

/-- The target of a jump can be traced, after some moves: all that may have produced it stands in
order, and the moves have read no register wrongly recorded as written on its behalf. -/
def Traceable (findings : Findings) (entry : RegisterFile (Option UInt64)) (moves : List Move)
    (jump : Finding) : Prop :=
  ∀ target ∈ jump.consumed.head?, ∀ source ∈ target,
    (∃ members, InOrder findings entry source members) ∧ findings.SoundAlong moves source

end Findings

namespace Context

variable {context : Context} {log : Log} {inference : Inference} {start last : Machine}
  {moves : List Move}

/-- A register that an instruction reads is not recorded as written if nothing is recorded for what
it consumes. -/
lemma unknown_of_consumed {finding : Finding} {register : Register}
    (hconsumed : finding.consumed = finding.toInstruction.consumes finding.state)
    (hread : finding.read? = some register) (hunknown : finding.consumed = [.unknown]) :
    finding.state.registers.get register = .unknown := by
  have hmem : finding.state.registers.get register ∈ finding.consumed := by
    rw [hconsumed, Instruction.consumes, hread]
    simp
  rw [hunknown] at hmem
  exact List.mem_singleton.1 hmem

/-- Behind an instruction without influence on control flow, the machine is tracked. -/
lemma tracks_sequential {sound : Offset → Prop} {machine : Machine} {store : Store}
    {finding : Finding} {after : Machine} (hinfer : (context.infer log).2 = .ok inference)
    (hsound : ∀ consumer producer, inference.findings.DependsOn consumer producer →
      sound consumer → sound producer)
    (hfinding : inference.findings[machine.ip]? = some finding)
    (htracks : Tracks inference.findings context.settings.initialRegisters sound (Written moves)
      finding.state machine.toStore)
    (hread : sound machine.ip →
      ¬ inference.findings.ReadsUnwritten moves ⟨machine, finding.toInstruction, after⟩)
    (hflow : finding.flow = .sequential)
    (hperforms : Performs finding.toInstruction machine.toStore store) :
    ∃ target, inference.findings[finding.next]? = some target ∧
      Tracks inference.findings context.settings.initialRegisters sound
        (Written (moves ++ [⟨machine, finding.toInstruction, after⟩])) target.state store := by
  obtain ⟨-, hoffset, -⟩ := decodeAt_of_infer hinfer hfinding
  obtain ⟨hpops, hconsumed, target, htarget, successor, hcovers, hstack, hregisters⟩ :=
    sequential_effects hinfer hfinding hflow
  have hknown : ∀ register, finding.read? = some register → sound finding.offset →
      Written moves register ∨ finding.state.registers.get register = .unknown := by
    intro register hregister hfound
    by_contra hnot
    obtain ⟨hunwritten, hrecorded⟩ := not_or.1 hnot
    apply hread (hoffset ▸ hfound)
    refine ⟨register, hregister, hunwritten, finding, hfinding, ?_⟩
    intro hunknown
    exact hrecorded (unknown_of_consumed hconsumed hregister hunknown)
  refine ⟨target, htarget, Tracks.cover ?_ hcovers hstack hregisters⟩
  exact htracks.performs hsound (fun _ => written_append_iff) (hoffset.symm ▸ hfinding)
    (wellFormed_of_infer hinfer hfinding) hpops hconsumed hknown hperforms

/-- Behind a jump that goes to a recorded target, the machine is tracked. -/
lemma tracks_jump {sound : Offset → Prop} {machine after : Machine} {finding : Finding}
    (hinfer : (context.infer log).2 = .ok inference)
    (hfinding : inference.findings[machine.ip]? = some finding)
    (htracks : Tracks inference.findings context.settings.initialRegisters sound (Written moves)
      finding.state machine.toStore)
    (hjumps : Machine.Jumps finding.toInstruction)
    (hstack : after.stack = machine.stack.drop finding.opcode.pops)
    (hregisters : after.registers = machine.registers) (htarget : after.ip ∈ finding.targets) :
    ∃ target, inference.findings[after.ip]? = some target ∧
      Tracks inference.findings context.settings.initialRegisters sound
        (Written (moves ++ [⟨machine, finding.toInstruction, after⟩])) target.state
        after.toStore := by
  obtain ⟨slot, numbers, hbranches⟩ := exists_branches hinfer hfinding hjumps
  obtain ⟨target, hstored, successor, hcovers, hstack', hregisters'⟩ :=
    hbranches.covered _ htarget
  have hwritten : ∀ register,
      Written (moves ++ [⟨machine, finding.toInstruction, after⟩]) register →
        Written moves register := by
    intro register hwritten
    rw [written_append_iff, hjumps.written?_eq_none] at hwritten
    exact hwritten.resolve_right (by simp)
  have hafter : after.toStore = ⟨machine.registers, machine.stack.drop finding.opcode.pops⟩ := by
    rw [← hstack, ← hregisters]
  rw [hafter]
  exact ⟨target, hstored,
    (htracks.drop finding.opcode.pops hwritten).cover hcovers hstack' hregisters'⟩

/-- **A run that keeps to the recorded targets is tracked.**

**Proof sketch.** Induction on the run.  The state stored at the entry tracks the start; one move
leads from a tracked machine to a tracked one, because what follows in the result covers what
follows the stored state. -/
theorem tracks_run {sound : Offset → Prop} (hinfer : (context.infer log).2 = .ok inference)
    (hstarts : context.Starts start) (hrun : Machine.Run context.image start moves last)
    (hkeys : inference.findings.HasKeys moves)
    (hsound : ∀ consumer producer, inference.findings.DependsOn consumer producer →
      sound consumer → sound producer)
    (hread : ∀ earlier move, earlier ++ [move] <+: moves → sound move.before.ip →
      ¬ inference.findings.ReadsUnwritten earlier move)
    (htargets : ∀ move ∈ moves, Machine.Jumps move.instruction → ∀ finding,
      inference.findings[move.before.ip]? = some finding → move.after.ip ∈ finding.targets) :
    ∃ finding, inference.findings[last.ip]? = some finding ∧
      Tracks inference.findings context.settings.initialRegisters sound (Written moves)
        finding.state last.toStore := by
  induction hrun with
  | start =>
    obtain ⟨finding, hfinding, hcovers⟩ := exists_entry hinfer
    refine ⟨finding, hstarts.ip ▸ hfinding, ?_⟩
    have hstart : Tracks inference.findings context.settings.initialRegisters sound (Written [])
        {} start.toStore :=
      .start (fun register ⟨_, hmem, _⟩ => List.not_mem_nil hmem) hstarts.stack hstarts.registers
    exact hstart.cover hcovers rfl rfl
  | @step moves machine machine' instruction hrun hstep ih =>
    obtain ⟨finding, hfinding, htracks⟩ := ih
      (fun move hmem => hkeys move (List.mem_append_left _ hmem))
      (fun earlier move hfront => hread earlier move (hfront.trans (List.prefix_append _ _)))
      (fun move hmem => htargets move (List.mem_append_left _ hmem))
    have hkey := hkeys _ List.mem_concat_self finding hfinding
    by_cases hjumps : Machine.Jumps instruction
    · obtain ⟨⟨key, hdecode⟩, hstack, hregisters, -⟩ := hstep.jump_cases hjumps
      obtain rfl := toInstruction_eq hinfer hfinding hkey hdecode
      exact tracks_jump hinfer hfinding htracks hjumps hstack hregisters
        (htargets _ List.mem_concat_self hjumps finding hfinding)
    · cases hstep with
      | sequential hdecode hflow hperforms =>
        obtain rfl := toInstruction_eq hinfer hfinding hkey hdecode
        exact tracks_sequential hinfer hsound hfinding htracks
          (hread moves _ (List.prefix_refl _)) hflow hperforms
      | jump _ hflow => exact absurd (Or.inl hflow) hjumps
      | taken _ hflow => exact absurd (Or.inr hflow) hjumps
      | passed _ hflow => exact absurd (Or.inr hflow) hjumps

/-- **A traceable jump goes to a recorded target.**

**Proof sketch.** The word that the jump pops was left by one of the producers of its target.  That
one was evaluated when the targets were recorded; it stands in order, so the number that was
recorded is its value, and the word agrees with it. -/
theorem target_mem_targets {machine after : Machine} {finding : Finding}
    (hinfer : (context.infer log).2 = .ok inference)
    (hfinding : inference.findings[machine.ip]? = some finding)
    (htracks : Tracks inference.findings context.settings.initialRegisters
      (inference.findings.SoundAlong moves) (Written moves) finding.state machine.toStore)
    (htraceable : inference.findings.Traceable context.settings.initialRegisters moves finding)
    (hjumps : Machine.Jumps finding.toInstruction)
    (hstep : Machine.Step context.image machine finding.toInstruction after) :
    after.ip ∈ finding.targets := by
  obtain ⟨slot, numbers, hbranches⟩ := exists_branches hinfer hfinding hjumps
  obtain ⟨-, -, -, word, words, hwords, hip⟩ := hstep.jump_cases hjumps
  rcases hip with hip | ⟨hflow, hip⟩
  · obtain ⟨rest, hstack⟩ := hbranches.popped
    have hslots := htracks.slots
    rw [hstack, hwords, List.forall₂_cons] at hslots
    obtain ⟨⟨source, hsource, hagrees⟩, -⟩ := hslots
    obtain ⟨⟨members, horder⟩, hsound⟩ := htraceable slot hbranches.consumed source hsource
    obtain ⟨value, hvalue, hevaluate⟩ := Evaluator.exists_of_resolve hbranches.resolved hsource
    have hform : ∀ member ∈ members, member.WellFormed := by
      intro member hmember
      exact wellFormed_of_infer hinfer (horder.stored member hmember)
    rw [hip, ← hagrees hsound value (horder.hasValue hform hevaluate)]
    exact hbranches.targets value hvalue
  · rw [hip]
    exact hbranches.next hflow

/-- **All jumps of a run go to recorded targets, if they are traceable.** -/
theorem run_covered (hinfer : (context.infer log).2 = .ok inference)
    (hstarts : context.Starts start) (hrun : Machine.Run context.image start moves last)
    (hkeys : inference.findings.HasKeys moves)
    (htraceable : ∀ earlier move, earlier ++ [move] <+: moves → Machine.Jumps move.instruction →
      ∀ finding, inference.findings[move.before.ip]? = some finding →
        inference.findings.Traceable context.settings.initialRegisters earlier finding) :
    ∀ move ∈ moves, Machine.Jumps move.instruction →
      ∃ finding, inference.findings[move.before.ip]? = some finding ∧
        finding.toInstruction = move.instruction ∧ move.after.ip ∈ finding.targets := by
  induction hrun with
  | start =>
    intro move hmem
    exact absurd hmem List.not_mem_nil
  | @step moves machine machine' instruction hrun hstep ih =>
    have hkeys' : inference.findings.HasKeys moves := by
      intro move hmem
      exact hkeys move (List.mem_append_left _ hmem)
    have hcovered := ih hkeys' fun earlier move hfront =>
      htraceable earlier move (hfront.trans (List.prefix_append _ _))
    have htargets : ∀ move ∈ moves, Machine.Jumps move.instruction → ∀ finding,
        inference.findings[move.before.ip]? = some finding → move.after.ip ∈ finding.targets := by
      intro move hmem hjumps finding hfinding
      obtain ⟨finding', hfinding', -, htarget⟩ := hcovered move hmem hjumps
      rw [hfinding, Option.some.injEq] at hfinding'
      rwa [hfinding']
    intro move hmem hjumps
    rcases List.mem_append.1 hmem with hmem | hmem
    · exact hcovered move hmem hjumps
    · obtain rfl := List.mem_singleton.1 hmem
      -- so far the run has kept to the recorded targets
      obtain ⟨finding, hfinding, htracks⟩ := tracks_run hinfer hstarts hrun hkeys'
        (fun _ _ => Findings.SoundAlong.of_dependsOn)
        (fun earlier move hfront hsound => hsound earlier move hfront .refl) htargets
      obtain ⟨⟨key, hdecode⟩, -⟩ := hstep.jump_cases hjumps
      have hkey := hkeys _ List.mem_concat_self finding hfinding
      obtain rfl := toInstruction_eq hinfer hfinding hkey hdecode
      exact ⟨finding, hfinding, rfl, target_mem_targets hinfer hfinding htracks
        (htraceable moves _ (List.prefix_refl _) hjumps finding hfinding) hjumps hstep⟩

/-- The jump to a sum is traceable, so it goes to a recorded target. -/
theorem run_covered_jumpToSum :
    ∃ inference moves last, (jumpToSum.infer {}).2 = .ok inference ∧
      Machine.Run jumpToSum.image jumpToSum.zeroed moves last ∧
      ∃ move ∈ moves, Machine.Jumps move.instruction ∧ ∃ finding,
        inference.findings[move.before.ip]? = some finding ∧
        finding.toInstruction = move.instruction ∧ move.after.ip ∈ finding.targets := by
  obtain ⟨inference, members, hinfer, horder⟩ := exists_inOrder_jumpToSum
  obtain ⟨inference', hinfer', ⟨moves, last⟩, hwalk, hkeys, hread, hhead, move, hmove, hjumps⟩ :
      ∃ inference, (jumpToSum.infer {}).2 = .ok inference ∧
      ∃ reached ∈ jumpToSum.zeroed.walk jumpToSum.image 4,
        inference.findings.HasKeys reached.1 ∧
        (∀ move ∈ reached.1, move.instruction.read? = none) ∧
        (∀ move ∈ reached.1, Machine.Jumps move.instruction →
          ∀ finding ∈ inference.findings[move.before.ip]?,
            finding.consumed.head? = some (.of 12)) ∧
        ∃ move ∈ reached.1, Machine.Jumps move.instruction :=
    exists_eq_ok (by decide +kernel)
  obtain rfl := Except.ok.inj (hinfer.symm.trans hinfer')
  have hrun := Machine.run_of_walk hwalk
  refine ⟨inference, moves, last, hinfer, hrun, move, hmove, hjumps, ?_⟩
  refine run_covered hinfer (starts_zeroed rfl) hrun hkeys ?_ move hmove hjumps
  intro earlier move hfront hjumps finding hfinding target htarget source hsource
  have hmoves : ∀ move' ∈ earlier ++ [move], move' ∈ moves := by
    intro _ hmem
    exact hfront.subset hmem
  rw [hhead move (hmoves move List.mem_concat_self) hjumps finding hfinding,
    Option.mem_some_iff] at htarget
  subst htarget
  rw [Provenance.mem_of] at hsource
  subst hsource
  refine ⟨⟨members, horder⟩, ?_⟩
  intro before move' hbefore _ hreads
  obtain ⟨register, hregister, -⟩ := hreads
  have hmem := hmoves move' (List.mem_append_left _ (hbefore.subset List.mem_concat_self))
  rw [hread move' hmem] at hregister
  cases hregister

/-- A run from the entry makes a jump that is not recorded, although it visits only offsets of the
result, each of them under the stored key. -/
def Escapes (context : Context) : Prop :=
  ∃ inference start moves last, (context.infer {}).2 = .ok inference ∧ context.Starts start ∧
    Machine.Run context.image start moves last ∧
    (∀ machine ∈ moves.map (·.before) ++ [last],
      ∃ finding ∈ inference.findings[machine.ip]?, finding.state.key = machine.key) ∧
    ∃ move ∈ moves, Machine.Jumps move.instruction ∧
      ∀ finding ∈ inference.findings[move.before.ip]?, move.after.ip ∉ finding.targets

/-- A walk of the zeroed machine shows that a jump is not recorded. -/
lemma escapes_of_walk {n : Nat} (hsettings : context.settings = {})
    (h : ((context.infer {}).2.toOption.any fun inference =>
      decide (∃ reached ∈ context.zeroed.walk context.image n,
        (∀ machine ∈ reached.1.map (·.before) ++ [reached.2],
          ∃ finding ∈ inference.findings[machine.ip]?, finding.state.key = machine.key) ∧
        ∃ move ∈ reached.1, Machine.Jumps move.instruction ∧
          ∀ finding ∈ inference.findings[move.before.ip]?,
            move.after.ip ∉ finding.targets)) = true) : context.Escapes := by
  obtain ⟨inference, hinfer, ⟨moves, last⟩, hwalk, hkeys, hmove⟩ := exists_eq_ok h
  exact ⟨inference, _, moves, last, hinfer, starts_zeroed hsettings, Machine.run_of_walk hwalk,
    hkeys, hmove⟩

/-- **A jump that is not traceable may go elsewhere.**  In the relay, the jump at 11 goes to 41,
which is popped into `BP` behind the place where `BP` is pushed, and recorded is the entry value
zero.  In the meeting, the jump at 34 goes to the entry value zero of `BP` if the first jump is
taken, and recorded is the value 36 that `BP` has if it is not.  With stale flags, the jump at 57
goes to what the addition leaves in the flags, and recorded is what was popped into them before. -/
theorem run_escapes : relay.Escapes ∧ meeting.Escapes ∧ staleFlags.Escapes :=
  ⟨escapes_of_walk (n := 9) rfl (by decide +kernel),
    escapes_of_walk (n := 5) rfl (by decide +kernel),
    escapes_of_walk (n := 10) rfl (by decide +kernel)⟩

end Context

end KeyedVM
