import KeyedVM.Proofs.Inference.Outline
import KeyedVM.Proofs.Inference.Soundness

set_option relaxedAutoImplicit false
set_option autoImplicit false

/-!
# What an execution makes of its state

An instruction takes slots off the stack and may put values of its own on what is left; it may write
a register; and it may open a protected region or close the innermost one.  The states behind it
differ from the state before it in no other way.

## Main definitions

* `KeyedVM.Finding.pushes` — the number of values that an analysed instruction pushes;
* `KeyedVM.Instruction.Writes` — an instruction writes a register;
* `KeyedVM.Effects.Derived` — what the effects of an instruction owe to its state.

## Main results

* `KeyedVM.Context.execute_derived` — the effects of every execution derive from its state;
* `KeyedVM.Context.execute_opens` — what opening a protected region leads to.
-/

namespace KeyedVM

/-! ## What is pushed and written -/

/-- The number of values that an analysed instruction pushes. -/
def Finding.pushes (finding : Finding) : Nat :=
  finding.opcode.pushes + (finding.meaning?.map Meaning.pushes).getD 0

/-- An instruction writes a register: a `POP` its operand, arithmetic the flags, a call the register
of results, and the entry of a protected region the register of exceptions. -/
def Instruction.Writes (settings : Settings) (instruction : Instruction) (register : Register) :
    Prop :=
  instruction.opcode = .pop ∧ instruction.operand = .register register ∨
  instruction.opcode.writesFlags = true ∧ register = .fl ∨
  instruction.opcode = .call ∧ register = settings.returnRegister ∨
  instruction.opcode = .enter ∧ register = settings.exceptionRegister

/-- Only instructions without influence on control flow always push something. -/
lemma Opcode.pushes_eq_zero {opcode : Opcode} (h : opcode.flow ≠ .sequential) :
    opcode.pushes = 0 := by
  cases opcode
  case jz | jnz | jmp | switch | call | ret | enter | leave | vcall => rfl
  all_goals exact absurd rfl h

/-- Calls are the only opcode with that effect on control flow. -/
lemma Opcode.flow_eq_call_iff {opcode : Opcode} : opcode.flow = .call ↔ opcode = .call := by
  cases opcode <;> simp [Opcode.flow]

/-- So are helper calls. -/
lemma Opcode.flow_eq_helper_iff {opcode : Opcode} : opcode.flow = .helper ↔ opcode = .vcall := by
  cases opcode <;> simp [Opcode.flow]

/-! ## Where effects come from -/

/-- What the effects of an instruction owe to its state. -/
structure Effects.Derived (settings : Settings) (finding : Finding) (effects : Effects) :
    Prop where
  /-- What is consumed was on the stack, or is the register that is pushed. -/
  consumed : ∀ value ∈ effects.consumed, value ∈ finding.state.stack ∨
    finding.opcode.readsRegister = true ∧ ∃ register, value = finding.state.registers.get register
  /-- The values of the instruction lie on slots that were there. -/
  stack : ∀ successor ∈ effects.successors, ∃ rest, rest <:+ finding.state.stack ∧
    successor.stack = List.replicate finding.pushes (.of finding.offset) ++ rest
  /-- A register holds what it held, unless the instruction writes it. -/
  registers : ∀ successor ∈ effects.successors, ∀ register,
    successor.registers.get register = finding.state.registers.get register ∨
    finding.Writes settings register ∧ successor.registers.get register = .of finding.offset
  /-- The open regions stay, a region is opened, or the innermost one is closed. -/
  regions : ∀ successor ∈ effects.successors,
    successor.regions = finding.state.regions ∨
    (∃ region, effects.region? = some region ∧
      successor.regions = region :: finding.state.regions) ∨
    ∃ region, finding.state.regions = region :: successor.regions

/-- A transfer that has just begun. -/
structure Transfer.Begins (finding : Finding) (t : Transfer) : Prop where
  offset : t.offset = finding.offset
  consumed : t.consumed = []
  stack : t.post.stack = finding.state.stack
  registers : t.post.registers = finding.state.registers
  regions : t.post.regions = finding.state.regions

namespace Context

variable {context : Context} {evaluator : Evaluator} {finding : Finding} {t u : Transfer}
  {effects : Effects} {settings : Settings}

/-- The effects of an instruction that only works on the stack.  A register may be written on top
of that. -/
lemma derived_of_exchanges (ht : t.Begins finding) (hu : t.Exchanges finding.pushes u)
    (hconsumed : effects.consumed = u.consumed)
    (hstack : ∀ successor ∈ effects.successors, successor.stack = u.post.stack)
    (hregisters : ∀ successor ∈ effects.successors, ∀ register,
      successor.registers.get register = u.post.registers.get register ∨
      finding.Writes settings register ∧ successor.registers.get register = .of finding.offset)
    (hregions : ∀ successor ∈ effects.successors, successor.regions = u.post.regions) :
    effects.Derived settings finding := by
  have hframes := hu.post
  refine ⟨fun value hmem => ?_, fun successor hmem => ?_, fun successor hmem register => ?_,
    fun successor hmem => ?_⟩
  · rw [hconsumed] at hmem
    have hor := hu.mem_consumed hmem
    rw [ht.consumed, ht.stack] at hor
    exact Or.inl (hor.resolve_left List.not_mem_nil)
  · obtain ⟨rest, hrest, hsame⟩ := hu.exists_suffix
    rw [hstack successor hmem, ← ht.stack, ← ht.offset]
    exact ⟨rest, hrest, hsame⟩
  · rw [← ht.registers]
    have hor := hregisters successor hmem register
    rwa [hframes] at hor
  · rw [hregions successor hmem, hframes]
    exact Or.inl ht.regions

/-- The effects of a branch owe everything to its state. -/
lemma branch_derived (ht : t.Begins finding) (hu : t.Exchanges 0 u) (hpushes : finding.pushes = 0)
    (targets : List Offset) : (branch u targets).Derived settings finding := by
  refine derived_of_exchanges ht (hpushes ▸ hu) rfl ?_ ?_ ?_
  all_goals
    intro successor hmem
    obtain ⟨target, -, rfl⟩ := List.mem_map.1 hmem
  · rfl
  · exact fun register => Or.inl rfl
  · rfl

/-- An instruction without effect on control flow leaves the values that its opcode says. -/
lemma sequential_derived (ht : t.Begins finding) (hform : finding.WellFormed)
    (hpushes : finding.pushes = finding.opcode.pushes)
    (h : sequential finding.toInstruction t = .ok effects) : effects.Derived settings finding := by
  obtain ⟨-, rfl⟩ := (sequential_eq_ok_iff ht.offset).1 h
  refine ⟨fun value hmem => ?_, fun successor hmem => ?_, fun successor hmem register => ?_,
    fun successor hmem => ?_⟩
  · rw [ht.consumed, List.nil_append, Instruction.consumes, ht.stack, ht.registers] at hmem
    rcases List.mem_append.1 hmem with hmem | hmem
    · exact Or.inl (List.mem_of_mem_take hmem)
    · obtain ⟨register, hread, rfl⟩ := Option.map_eq_some_iff.1 (Option.mem_toList.1 hmem)
      obtain ⟨part, hpart, -⟩ := hform.exists_pushr hread
      exact Or.inr ⟨by rw [hpart]; rfl, register, rfl⟩
  · rw [List.mem_singleton.1 hmem, hpushes, ← ht.stack]
    exact ⟨_, List.drop_suffix _ _, rfl⟩
  · rw [List.mem_singleton.1 hmem, Instruction.after_get, ht.registers]
    split
    · next hwritten =>
      refine Or.inr ⟨?_, rfl⟩
      rcases Instruction.written?_eq_some hwritten with hpop | hflags
      · exact Or.inl hpop
      · exact Or.inr (Or.inl hflags)
    · exact Or.inl rfl
  · rw [List.mem_singleton.1 hmem]
    exact Or.inl ht.regions

/-- A call writes the register of results at most, and opens no region. -/
lemma call_derived (ht : t.Begins finding) (hopcode : finding.opcode = .call)
    (hpushes : finding.pushes = 0) (h : context.call evaluator t = .ok effects) :
    effects.Derived context.settings finding := by
  obtain ⟨u, _, hu, hconsumed, -, -, hsuccessors⟩ := call_cases h
  refine derived_of_exchanges ht (hpushes ▸ hu) hconsumed ?_ ?_ ?_
  all_goals
    intro successor hmem
    obtain ⟨key, rfl⟩ := hsuccessors successor hmem
  · rfl
  · intro register
    simp only [Transfer.write, State.setRegister, RegisterFile.get_set]
    split
    · next hregister =>
      exact Or.inr ⟨Or.inr (Or.inr (Or.inl ⟨hopcode, hregister.symm⟩)),
        by rw [hu.offset, ht.offset]⟩
    · exact Or.inl rfl
  · rfl

/-- Behind the entry of a protected region, its filter and its handler start with an empty stack and
the exception in its register. -/
lemma enter_derived (ht : t.Begins finding) (hopcode : finding.opcode = .enter)
    (hpushes : finding.pushes = 0) (h : context.enter evaluator t = .ok effects) :
    effects.Derived context.settings finding := by
  obtain ⟨u, region, hu, -, rfl⟩ := enter_exchanges h
  obtain ⟨rest, hrest, hstack⟩ := hu.exists_suffix
  have hregisters : u.post.registers = finding.state.registers := by rw [hu.post, ← ht.registers]
  have hregions : u.post.regions = finding.state.regions := by rw [hu.post, ← ht.regions]
  have hcases : ∀ successor ∈ (opening context.settings u region).successors,
      (∃ entry, successor = handlerState context.settings u entry) ∨
        successor = { u.post with regions := region :: u.post.regions } := by
    intro successor hmem
    rcases List.mem_append.1 hmem with hmem | hmem
    · obtain ⟨entry, -, rfl⟩ := List.mem_map.1 hmem
      exact Or.inl ⟨entry, rfl⟩
    · exact Or.inr (List.mem_singleton.1 hmem)
  refine ⟨fun value hmem => ?_, fun successor hmem => ?_, fun successor hmem register => ?_,
    fun successor hmem => ?_⟩
  · have hor := hu.mem_consumed hmem
    rw [ht.consumed, ht.stack] at hor
    exact Or.inl (hor.resolve_left List.not_mem_nil)
  · rw [hpushes, ← ht.stack]
    rcases hcases successor hmem with ⟨entry, rfl⟩ | rfl
    · exact ⟨[], List.nil_suffix, rfl⟩
    · exact ⟨rest, hrest, hstack⟩
  · rcases hcases successor hmem with ⟨entry, rfl⟩ | rfl
    · simp only [handlerState, RegisterFile.get_set]
      split
      · next hregister =>
        exact Or.inr ⟨Or.inr (Or.inr (Or.inr ⟨hopcode, hregister.symm⟩)),
          by rw [hu.offset, ht.offset]⟩
      · exact Or.inl (by rw [hregisters])
    · exact Or.inl (by rw [hregisters])
  · rcases hcases successor hmem with ⟨entry, rfl⟩ | rfl
    · exact Or.inl hregions
    · exact Or.inr (Or.inl ⟨region, rfl, by rw [hregions]⟩)

/-- The end of a region closes one and writes nothing. -/
lemma leave_derived (ht : t.Begins finding) (hpushes : finding.pushes = 0)
    (h : leave evaluator t = .ok effects) : effects.Derived settings finding := by
  obtain ⟨u, region, outer, hu, houter, rfl⟩ := leave_cases h
  have hu := Transfer.resolveArgument_exchanges hu
  -- but for the regions, the effects are those of an instruction that only works on the stack
  have hderived : Effects.Derived settings finding
      { consumed := u.consumed, successors := [u.post] } := by
    refine derived_of_exchanges ht (hpushes ▸ hu) rfl ?_ ?_ ?_
    all_goals
      intro successor hmem
      obtain rfl := List.mem_singleton.1 hmem
    · rfl
    · exact fun _ => Or.inl rfl
    · rfl
  refine ⟨hderived.consumed, fun successor hmem => ?_, fun successor hmem => ?_,
    fun successor hmem => ?_⟩
  all_goals obtain rfl := List.mem_singleton.1 hmem
  · exact hderived.stack u.post List.mem_cons_self
  · exact hderived.registers u.post List.mem_cons_self
  · rw [hu.post, ht.regions] at houter
    exact Or.inr (Or.inr ⟨region, houter⟩)

/-- A helper call leaves the values that its meaning says. -/
lemma helper_derived {image : Image} (ht : t.Begins finding) (hopcode : finding.opcode.pushes = 0)
    (hmeaning : finding.meaning? = effects.meaning?) (h : helper image evaluator t = .ok effects) :
    effects.Derived settings finding := by
  simp only [helper, bind_eq_ok_iff, Prod.exists, pure_eq_ok_iff] at h
  obtain ⟨call, meaning, called, hcalled, rfl⟩ := h
  have hpushes : finding.pushes = meaning.pushes := by
    rw [Finding.pushes, hopcode, Nat.zero_add, hmeaning]
    rfl
  refine derived_of_exchanges ht (hpushes ▸ (Transfer.helperCall_exchanges hcalled).1) rfl ?_ ?_ ?_
  all_goals
    intro successor hmem
    obtain ⟨-, rfl⟩ : ¬ call.endsPath = true ∧ successor = called.post := by
      split at hmem
      · exact absurd hmem List.not_mem_nil
      · next hends => exact ⟨hends, List.mem_singleton.1 hmem⟩
  · rfl
  · exact fun _ => Or.inl rfl
  · rfl

/-- A return has no state behind it. -/
lemma ret_derived {state : State} (ht : t.Begins finding) (hpushes : finding.pushes = 0)
    (h : ret state t = .ok effects) : effects.Derived settings finding := by
  simp only [ret, bind_eq_ok_iff, Prod.exists, pure_eq_ok_iff] at h
  obtain ⟨_, u, hu, rfl⟩ := h
  refine derived_of_exchanges ht (hpushes ▸ Transfer.pop_exchanges hu) rfl ?_ ?_ ?_
  all_goals exact fun _ hmem => absurd hmem List.not_mem_nil

/-- Only the meaning of a helper call names a helper, and only the entry of a protected region opens
one. -/
lemma transfer_plain {findings : Findings} {instruction : Instruction} {state : State} {key : Key}
    (h : context.transfer findings instruction state key = .ok effects) :
    (instruction.flow ≠ .helper → effects.meaning?.bind Meaning.helper? = none) ∧
      (instruction.flow ≠ .enter → effects.region? = none) := by
  unfold transfer at h
  cases hflow : instruction.flow <;> simp only [hflow] at h
  case sequential =>
    obtain ⟨-, rfl⟩ := (sequential_eq_ok_iff rfl).1 h
    exact ⟨fun _ => rfl, fun _ => rfl⟩
  case jump =>
    simp only [jump, bind_eq_ok_iff, Prod.exists, pure_eq_ok_iff] at h
    obtain ⟨_, _, -, _, -, rfl⟩ := h
    exact ⟨fun _ => rfl, fun _ => rfl⟩
  case conditionalJump =>
    simp only [conditionalJump, bind_eq_ok_iff, Prod.exists, pure_eq_ok_iff] at h
    obtain ⟨_, _, -, _, _, -, _, -, rfl⟩ := h
    exact ⟨fun _ => rfl, fun _ => rfl⟩
  case switch =>
    simp only [switch, bind_eq_ok_iff, Prod.exists, pure_eq_ok_iff] at h
    obtain ⟨_, _, -, _, _, -, _, -, _, -, rfl⟩ := h
    exact ⟨fun _ => rfl, fun _ => rfl⟩
  case call =>
    obtain ⟨_, site, -, -, hmeaning, hregion, -⟩ := call_cases h
    exact ⟨fun _ => by rw [hmeaning]; rfl, fun _ => hregion⟩
  case ret =>
    simp only [ret, bind_eq_ok_iff, Prod.exists, pure_eq_ok_iff] at h
    obtain ⟨_, _, -, rfl⟩ := h
    exact ⟨fun _ => rfl, fun _ => rfl⟩
  case enter =>
    obtain ⟨_, _, -, -, rfl⟩ := enter_exchanges h
    exact ⟨fun _ => rfl, fun hne => absurd rfl hne⟩
  case leave =>
    obtain ⟨_, _, _, -, -, rfl⟩ := leave_cases h
    exact ⟨fun _ => rfl, fun _ => rfl⟩
  case helper =>
    simp only [helper, bind_eq_ok_iff, Prod.exists, pure_eq_ok_iff] at h
    obtain ⟨_, _, _, -, rfl⟩ := h
    exact ⟨fun hne => absurd rfl hne, fun _ => rfl⟩

/-- The effects of every transfer derive from its state. -/
lemma transfer_derived {findings : Findings} {key : Key} (hform : finding.WellFormed)
    (hmeaning : finding.meaning? = effects.meaning?)
    (h : context.transfer findings finding.toInstruction finding.state key = .ok effects) :
    effects.Derived context.settings finding := by
  have hpushes : finding.flow ≠ .helper → finding.pushes = finding.opcode.pushes := by
    intro hflow
    rw [Finding.pushes, hmeaning, Meaning.pushes_eq_zero ((transfer_plain h).1 hflow), Nat.add_zero]
  have hnone : ∀ {flow : Flow}, finding.flow = flow → flow ≠ .sequential → flow ≠ .helper →
      finding.pushes = 0 := by
    rintro _ rfl hsequential hhelper
    rw [hpushes hhelper, Opcode.pushes_eq_zero hsequential]
  have hbegins : Transfer.Begins finding
      { offset := finding.offset, post := { finding.state with ip := finding.next, key } } :=
    ⟨rfl, rfl, rfl, rfl, rfl⟩
  unfold transfer at h
  cases hflow : finding.flow <;> simp only [hflow] at h
  case sequential => exact sequential_derived hbegins hform (hpushes (by simp [hflow])) h
  case jump =>
    simp only [jump, bind_eq_ok_iff, Prod.exists, pure_eq_ok_iff] at h
    obtain ⟨_, u, hu, targets, -, rfl⟩ := h
    exact branch_derived hbegins (Transfer.pop_exchanges hu)
      (hnone hflow (by decide) (by decide)) targets
  case conditionalJump =>
    simp only [conditionalJump, bind_eq_ok_iff, Prod.exists, pure_eq_ok_iff] at h
    obtain ⟨_, u, hu, _, v, hv, targets, -, rfl⟩ := h
    exact branch_derived hbegins ((Transfer.pop_exchanges hu).trans (Transfer.pop_exchanges hv))
      (hnone hflow (by decide) (by decide)) _
  case switch =>
    simp only [switch, bind_eq_ok_iff, Prod.exists, pure_eq_ok_iff] at h
    obtain ⟨_, u, hu, _, v, hv, _, -, targets, -, rfl⟩ := h
    exact branch_derived hbegins ((Transfer.pop_exchanges hu).trans (Transfer.pop_exchanges hv))
      (hnone hflow (by decide) (by decide)) _
  case call =>
    exact call_derived hbegins (Opcode.flow_eq_call_iff.1 hflow)
      (hnone hflow (by decide) (by decide)) h
  case ret => exact ret_derived hbegins (hnone hflow (by decide) (by decide)) h
  case enter =>
    exact enter_derived hbegins (Opcode.flow_eq_enter_iff.1 hflow)
      (hnone hflow (by decide) (by decide)) h
  case leave => exact leave_derived hbegins (hnone hflow (by decide) (by decide)) h
  case helper =>
    exact helper_derived hbegins (Opcode.pushes_eq_zero (ne_of_eq_of_ne hflow (by decide)))
      hmeaning h

/-- **The effects of every execution derive from its state**: what is consumed was there; the states
behind the instruction have its values on top of slots that were there; and a register that it does
not write holds what it held. -/
theorem execute_derived {findings : Findings} {state : State}
    (h : context.execute findings state = .ok (finding, effects)) :
    effects.Derived context.settings finding := by
  obtain ⟨instruction, key, hdecode, htransfer, rfl⟩ := execute_eq_ok_iff.1 h
  exact transfer_derived (wellFormed_of_decodeAt hdecode) rfl htransfer

/-- An instruction that pushes more or less than its opcode always does calls a helper. -/
lemma opcode_eq_vcall {findings : Findings} {state : State}
    (h : context.execute findings state = .ok (finding, effects))
    (hpushes : finding.pushes ≠ finding.opcode.pushes) : finding.opcode = .vcall := by
  obtain ⟨instruction, key, -, htransfer, rfl⟩ := execute_eq_ok_iff.1 h
  by_contra hopcode
  refine hpushes ?_
  have hplain := (transfer_plain htransfer).1 (mt Opcode.flow_eq_helper_iff.1 hopcode)
  rw [Finding.pushes, Meaning.pushes_eq_zero hplain, Nat.add_zero]

/-- **What opening a region leads to.**  Exactly the entry of a protected region opens one.  Its
filter and its handler start with an empty stack and the regions around it, and execution goes on
inside it. -/
theorem execute_opens {findings : Findings} {state : State}
    (h : context.execute findings state = .ok (finding, effects)) :
    (finding.opcode = .enter → ∃ region, effects.region? = some region) ∧
    ∀ region, effects.region? = some region →
      finding.opcode = .enter ∧ region.opener = finding.offset ∧
      (∀ entry ∈ region.entries, ∃ start ∈ effects.successors,
        start.ip = entry ∧ start.stack = [] ∧ start.regions = state.regions) ∧
      ∃ inside ∈ effects.successors,
        inside.ip = finding.next ∧ inside.regions = region :: state.regions := by
  obtain ⟨instruction, key, -, htransfer, rfl⟩ := execute_eq_ok_iff.1 h
  by_cases hflow : instruction.flow = .enter
  · have henter := htransfer
    simp only [transfer, hflow] at henter
    obtain ⟨u, region, hu, hopener, rfl⟩ := enter_exchanges henter
    have hregions : u.post.regions = state.regions := by rw [hu.post]
    refine ⟨fun _ => ⟨region, rfl⟩, fun opened hopened => ?_⟩
    obtain rfl := Option.some.inj hopened
    refine ⟨Opcode.flow_eq_enter_iff.1 hflow, hopener, fun entry hentry => ?_, ?_⟩
    · exact ⟨handlerState context.settings u entry,
        List.mem_append_left _ (List.mem_map.2 ⟨entry, hentry, rfl⟩), rfl, rfl, hregions⟩
    · exact ⟨_, List.mem_append_right _ (List.mem_singleton_self _), hu.ip, by rw [hregions]⟩
  · have hnone := (transfer_plain htransfer).2 hflow
    refine ⟨fun hopcode => absurd (Opcode.flow_eq_enter_iff.2 hopcode) hflow, ?_⟩
    intro region hregion
    rw [hnone] at hregion
    cases hregion

end Context

end KeyedVM
