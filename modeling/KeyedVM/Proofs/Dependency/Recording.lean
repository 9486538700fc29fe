import KeyedVM.Proofs.Dependency.Value
import KeyedVM.Proofs.Inference.Effects

set_option relaxedAutoImplicit false
set_option autoImplicit false

/-!
# What a row of instructions records

Instructions without influence on control flow are executed one after the other on an abstract
state, and each records what it consumes.  Along such a row every slot of the stack has exactly
one producer, and no slot is popped twice.

## Main definitions

* `KeyedVM.Instruction.consumes`, `KeyedVM.Instruction.after` — the effect of one instruction;
* `KeyedVM.Recorded` — a row of findings that records what is consumed along it;
* `KeyedVM.Exact` — a state in which every slot and register has at most one producer;
* `KeyedVM.Finding.Pops` — a finding records a pop of what an instruction has pushed.

## Main results

* `KeyedVM.Context.sequential_eq_ok_iff` — the effect of an instruction of the row;
* `KeyedVM.Recorded.exact` — along a row states are exact;
* `KeyedVM.Recorded.pops_unique` — no slot is popped by two instructions of a row;
* `KeyedVM.Recorded.not_mem_of_pops` — a slot that was popped is not on the stack at the end.
-/

namespace KeyedVM

/-- Two slots can be popped from a stack that has two. -/
lemma exists_two_slots {α : Type} {stack : List α} (h : 2 ≤ stack.length) :
    ∃ top next rest, stack = top :: next :: rest := by
  obtain ⟨top, below, rfl⟩ := List.exists_cons_of_length_pos (Nat.lt_of_lt_of_le Nat.two_pos h)
  obtain ⟨next, rest, rfl⟩ := List.exists_cons_of_length_pos (Nat.le_of_succ_le_succ h)
  exact ⟨top, next, rest, rfl⟩

/-! ## One instruction -/

namespace Opcode

/-- A `POP` does not write the flags. -/
lemma writesFlags_pop : pop.writesFlags = false := rfl

/-- No opcode pushes more than one slot. -/
lemma pushes_le_one (opcode : Opcode) : opcode.pushes ≤ 1 := by
  cases opcode <;> simp [pushes]

/-- The opcodes that have a given action. -/
def Has (opcode : Opcode) : Action → Prop
  | .pushImmediate => ∃ width, opcode = .pushi width
  | .pushRegister mask => ∃ part, opcode = .pushr part ∧ mask = part.mask
  | .popRegister => opcode = .pop
  | .binary _ => opcode ≠ .pop ∧ opcode.operandKind = .none ∧ opcode.pops = 2 ∧
      opcode.pushes = 1 ∧ opcode.writesFlags = true
  | .unary _ => ∃ source, opcode = .sx source
  | .skip => opcode = .nop

/-- An opcode has the action that it is replayed by. -/
lemma has_of_action? {opcode : Opcode} {action : Action} (h : opcode.action? = some action) :
    opcode.Has action := by
  cases opcode
  case add n | mul n =>
    cases n <;> simp only [action?, Option.some.injEq, reduceCtorEq] at h <;> subst h <;>
      exact ⟨by decide, rfl, rfl, rfl, rfl⟩
  case nor w | shl w | shr w =>
    cases w <;> simp only [action?, Option.some.injEq] at h <;> subst h <;>
      exact ⟨by decide, rfl, rfl, rfl, rfl⟩
  case pushi width => exact Option.some.inj h ▸ ⟨width, rfl⟩
  case pushr part => exact Option.some.inj h ▸ ⟨part, rfl, rfl⟩
  case sx source => exact Option.some.inj h ▸ ⟨source, rfl⟩
  case pop => exact Option.some.inj h ▸ rfl
  case nop => exact Option.some.inj h ▸ rfl
  all_goals cases h

end Opcode

namespace Instruction

variable {instruction : Instruction} {state : State}

/-- The register that an instruction pushes. -/
def read? (instruction : Instruction) : Option Register :=
  if instruction.opcode = .pop then none else instruction.operand.register?

/-- The register that an instruction writes: the operand of a `POP`, or the flags. -/
def written? (instruction : Instruction) : Option Register :=
  if instruction.opcode = .pop then instruction.operand.register?
  else if instruction.opcode.writesFlags then some .fl
  else none

/-- What an instruction consumes: the slots that it pops and the register that it pushes. -/
def consumes (instruction : Instruction) (state : State) : List Provenance :=
  state.stack.take instruction.opcode.pops ++ (instruction.read?.map state.registers.get).toList

/-- The state behind an instruction. -/
def after (instruction : Instruction) (state : State) : State :=
  { state with
    stack := List.replicate instruction.opcode.pushes (.of instruction.offset)
      ++ state.stack.drop instruction.opcode.pops
    registers := instruction.written?.elim state.registers fun register =>
      state.registers.set register (.of instruction.offset) }

/-- Behind an instruction that pushes a slot, the slot is on top. -/
lemma after_stack_of_pushes (h : instruction.opcode.pushes = 1) :
    (instruction.after state).stack =
      .of instruction.offset :: state.stack.drop instruction.opcode.pops := by
  simp [after, h]

/-- A register is written by a `POP` into it, or as the flags. -/
lemma written?_eq_some {register : Register} (h : instruction.written? = some register) :
    instruction.opcode = .pop ∧ instruction.operand = .register register ∨
      instruction.opcode.writesFlags = true ∧ register = .fl := by
  unfold written? at h
  split at h
  · next hpop =>
    cases hoperand : instruction.operand with
    | register => exact Or.inl ⟨hpop, by simpa [hoperand, Operand.register?] using h⟩
    | none | dword | qword => simp [hoperand, Operand.register?] at h
  · split at h
    · next hflags => exact Or.inr ⟨hflags, (Option.some.inj h).symm⟩
    · cases h

/-- A register behind an instruction holds what the instruction wrote, or what it held before. -/
lemma after_get (register : Register) :
    (instruction.after state).registers.get register =
      if instruction.written? = some register then .of instruction.offset
      else state.registers.get register := by
  cases hw : instruction.written? with
  | none => simp [after, hw]
  | some written => simp [after, hw, RegisterFile.get_set]

end Instruction

/-! ## Replayable instructions -/

namespace Instruction

variable {instruction : Instruction} {state : State}

/-- The operand of an instruction is of the kind that its opcode takes. -/
def WellFormed (instruction : Instruction) : Prop :=
  instruction.operand.kind = instruction.opcode.operandKind

/-- Whether an instruction has the operand that its opcode takes can be computed. -/
instance : Decidable instruction.WellFormed :=
  inferInstanceAs (Decidable (_ = _))

/-- A push of an immediate has one. -/
lemma WellFormed.exists_immediate {width : Width} (h : instruction.WellFormed)
    (hopcode : instruction.opcode = .pushi width) :
    ∃ value, instruction.operand.immediate? = some value := by
  rw [WellFormed, hopcode] at h
  cases width <;> cases hoperand : instruction.operand <;> rw [hoperand] at h <;> cases h <;>
    exact ⟨_, rfl⟩

/-- An instruction whose opcode takes a register has one. -/
lemma WellFormed.exists_register (h : instruction.WellFormed)
    (hkind : instruction.opcode.operandKind = .register) :
    ∃ register, instruction.operand.register? = some register := by
  rw [WellFormed, hkind] at h
  cases hoperand : instruction.operand <;> rw [hoperand] at h <;> cases h
  exact ⟨_, rfl⟩

/-- An instruction whose opcode takes no register reads none. -/
lemma WellFormed.read?_eq_none (h : instruction.WellFormed)
    (hkind : instruction.opcode.operandKind ≠ .register) : instruction.read? = none := by
  rw [← h] at hkind
  unfold read?
  split
  · rfl
  · cases hoperand : instruction.operand with
    | register => exact absurd (by rw [hoperand]; rfl) hkind
    | none | dword | qword => rfl

/-- Only a push of a register reads one. -/
lemma WellFormed.exists_pushr {register : Register} (h : instruction.WellFormed)
    (hread : instruction.read? = some register) :
    ∃ part, instruction.opcode = .pushr part ∧ instruction.operand.register? = some register := by
  obtain ⟨offset, opcode, operand⟩ := instruction
  cases operand with
  | none | dword | qword => simp [read?, Operand.register?] at hread
  | register =>
    cases opcode
    case pushr part => exact ⟨part, rfl, by simpa [read?] using hread⟩
    case pop => simp [read?] at hread
    case pushi width => cases width <;> cases h
    all_goals cases h

/-- The effect on an abstract state that belongs to an action. -/
def HasEffect (instruction : Instruction) (state : State) : Action → Prop
  | .pushImmediate =>
    (∃ value, instruction.operand.immediate? = some value) ∧
      instruction.consumes state = [] ∧
      instruction.after state = state.push (.of instruction.offset)
  | .pushRegister _ =>
    ∃ register, instruction.operand.register? = some register ∧
      instruction.consumes state = [state.registers.get register] ∧
      instruction.after state = state.push (.of instruction.offset)
  | .popRegister =>
    ∃ register slot rest, instruction.operand.register? = some register ∧
      state.stack = slot :: rest ∧ instruction.consumes state = [slot] ∧
      instruction.after state =
        { state with stack := rest }.setRegister register (.of instruction.offset)
  | .binary _ =>
    ∃ slot slot' rest, state.stack = slot :: slot' :: rest ∧
      instruction.consumes state = [slot, slot'] ∧
      instruction.after state =
        ({ state with stack := rest }.push (.of instruction.offset)).setRegister .fl
          (.of instruction.offset)
  | .unary _ =>
    ∃ slot rest, state.stack = slot :: rest ∧ instruction.consumes state = [slot] ∧
      instruction.after state = { state with stack := rest }.push (.of instruction.offset)
  | .skip => instruction.consumes state = [] ∧ instruction.after state = state

/-- A replayable instruction has the effect that belongs to its action. -/
lemma hasEffect {action : Action} (hform : instruction.WellFormed)
    (haction : instruction.opcode.action? = some action)
    (hpops : instruction.opcode.pops ≤ state.stack.length) :
    instruction.HasEffect state action := by
  have hhas := Opcode.has_of_action? haction
  cases action with
  | pushImmediate =>
    obtain ⟨width, hwidth⟩ := hhas
    have hread : instruction.read? = none := by
      refine hform.read?_eq_none ?_
      cases width <;> simp [hwidth, Opcode.operandKind]
    have hwritten : instruction.written? = none := by simp [written?, hwidth, Opcode.writesFlags]
    refine ⟨hform.exists_immediate hwidth, ?_, ?_⟩
    · simp [consumes, hread, hwidth, Opcode.pops]
    · simp [after, hwritten, hwidth, Opcode.pops, Opcode.pushes, State.push]
  | pushRegister mask =>
    obtain ⟨part, hpart, -⟩ := hhas
    obtain ⟨register, hregister⟩ := hform.exists_register (by rw [hpart]; rfl)
    have hread : instruction.read? = some register := by simp [read?, hpart, hregister]
    have hwritten : instruction.written? = none := by simp [written?, hpart, Opcode.writesFlags]
    refine ⟨register, hregister, ?_, ?_⟩
    · simp [consumes, hread, hpart, Opcode.pops]
    · simp [after, hwritten, hpart, Opcode.pops, Opcode.pushes, State.push]
  | popRegister =>
    have hpop : instruction.opcode = .pop := hhas
    obtain ⟨register, hregister⟩ := hform.exists_register (by rw [hpop]; rfl)
    have hread : instruction.read? = none := by simp [read?, hpop]
    have hwritten : instruction.written? = some register := by simp [written?, hpop, hregister]
    rw [hpop] at hpops
    obtain ⟨slot, rest, hstack⟩ := List.exists_cons_of_length_pos hpops
    refine ⟨register, slot, rest, hregister, hstack, ?_, ?_⟩
    · simp [consumes, hread, hpop, hstack, Opcode.pops]
    · simp [after, hwritten, hpop, hstack, Opcode.pops, Opcode.pushes, State.setRegister]
  | binary f =>
    obtain ⟨hpop, hkind, htwo, hone, hflags⟩ := hhas
    have hread : instruction.read? = none := hform.read?_eq_none (by simp [hkind])
    have hwritten : instruction.written? = some .fl := by simp [written?, hpop, hflags]
    rw [htwo] at hpops
    obtain ⟨slot, slot', rest, hstack⟩ := exists_two_slots hpops
    refine ⟨slot, slot', rest, hstack, ?_, ?_⟩
    · simp [consumes, hread, htwo, hstack]
    · simp [after, hwritten, htwo, hone, hstack, State.setRegister, State.push]
  | unary f =>
    obtain ⟨source, hsource⟩ := hhas
    have hread : instruction.read? = none :=
      hform.read?_eq_none (by simp [hsource, Opcode.operandKind])
    have hwritten : instruction.written? = none := by simp [written?, hsource, Opcode.writesFlags]
    rw [hsource] at hpops
    obtain ⟨slot, rest, hstack⟩ := List.exists_cons_of_length_pos hpops
    refine ⟨slot, rest, hstack, ?_, ?_⟩
    · simp [consumes, hread, hsource, hstack, Opcode.pops]
    · simp [after, hwritten, hsource, hstack, Opcode.pops, Opcode.pushes, State.push]
  | skip =>
    have hnop : instruction.opcode = .nop := hhas
    have hread : instruction.read? = none :=
      hform.read?_eq_none (by simp [hnop, Opcode.operandKind])
    have hwritten : instruction.written? = none := by simp [written?, hnop, Opcode.writesFlags]
    constructor
    · simp [consumes, hread, hnop, Opcode.pops]
    · simp [after, hwritten, hnop, Opcode.pops, Opcode.pushes]

end Instruction

/-! ## Execution on an abstract state -/

namespace Context

/-- What an instruction does once it has popped its slots. -/
lemma finish_eq {instruction : Instruction} {transfer : Transfer}
    (hoffset : transfer.offset = instruction.offset) :
    (let transfer :=
      match instruction.opcode, instruction.operand.register? with
      | .pop, some register => transfer.write register
      | _, some register => transfer.read register
      | _, none => transfer
    let transfer := transfer.pushMany instruction.opcode.pushes
    let transfer := if instruction.opcode.writesFlags then transfer.write .fl else transfer
    ({ consumed := transfer.consumed, successors := [transfer.post] } : Effects)) =
      { consumed := transfer.consumed
          ++ (instruction.read?.map transfer.post.registers.get).toList
        successors := [{ transfer.post with
          stack := List.replicate instruction.opcode.pushes (.of instruction.offset)
            ++ transfer.post.stack
          registers := instruction.written?.elim transfer.post.registers fun register =>
            transfer.post.registers.set register (.of instruction.offset) }] } := by
  by_cases hpop : instruction.opcode = .pop
  · cases hr : instruction.operand.register? with
    | none =>
      simp [Transfer.pushMany_eq, Instruction.read?, Instruction.written?, hpop, hr,
        Opcode.writesFlags_pop, hoffset]
    | some register =>
      simp [Transfer.pushMany_eq, Instruction.read?, Instruction.written?, hpop, hr,
        Opcode.writesFlags_pop, hoffset, Transfer.write, State.setRegister]
  · cases hr : instruction.operand.register? with
    | none =>
      cases hflags : instruction.opcode.writesFlags <;>
      simp [Transfer.pushMany_eq, Instruction.read?, Instruction.written?, hpop, hr,
        hflags, hoffset, Transfer.write, State.setRegister]
    | some register =>
      cases hflags : instruction.opcode.writesFlags <;>
      simp [Transfer.pushMany_eq, Instruction.read?, Instruction.written?, hpop, hr,
        hflags, hoffset, Transfer.write, Transfer.read, State.setRegister]

/-- **The effect of an instruction without influence on control flow.**  It needs as many slots
as it pops; it notes what it consumes, and execution goes on behind it. -/
theorem sequential_eq_ok_iff {instruction : Instruction} {transfer : Transfer} {effects : Effects}
    (hoffset : transfer.offset = instruction.offset) :
    sequential instruction transfer = .ok effects ↔
      instruction.opcode.pops ≤ transfer.post.stack.length ∧
        effects = { consumed := transfer.consumed ++ instruction.consumes transfer.post
                    successors := [instruction.after transfer.post] } := by
  -- the slots that are popped, and the transfer that has popped them
  set popped := transfer.post.stack.take instruction.opcode.pops with hpopped
  set t : Transfer := { transfer with
    post := { transfer.post with stack := transfer.post.stack.drop instruction.opcode.pops }
    consumed := transfer.consumed ++ popped } with ht
  have hpops : ∀ t', transfer.popMany instruction.opcode.pops = .ok t' ↔
      instruction.opcode.pops ≤ transfer.post.stack.length ∧ t' = t := by
    intro t'
    rw [Transfer.popMany_eq_ok_iff]
    constructor
    · rintro ⟨slots, rest, hstack, hlength, rfl⟩
      rw [ht, hpopped, hstack]
      simp [← hlength]
    · rintro ⟨hle, rfl⟩
      exact ⟨popped, _, (List.take_append_drop _ _).symm, by simp [hpopped, hle], rfl⟩
  have hfinish := @finish_eq instruction t hoffset
  unfold sequential
  simp only [bind_eq_ok_iff, hpops, pure_eq_ok_iff]
  constructor
  · rintro ⟨t', ⟨hle, rfl⟩, rfl⟩
    refine ⟨hle, hfinish.trans ?_⟩
    simp [ht, hpopped, Instruction.consumes, Instruction.after]
  · rintro ⟨hle, rfl⟩
    refine ⟨t, ⟨hle, rfl⟩, hfinish.trans ?_⟩
    simp [ht, hpopped, Instruction.consumes, Instruction.after]

end Context

/-! ## Rows of instructions -/

/-- A row of findings that starts in one state and leads to another, in which each finding records
what it consumes. -/
inductive Recorded : State → List Finding → State → Prop
  | nil {state : State} : Recorded state [] state
  | cons {state next last : State} {finding : Finding} {rest : List Finding} {effects : Effects} :
      Context.sequential finding.toInstruction { offset := finding.offset, post := state }
        = .ok effects →
      finding.consumed = effects.consumed →
      effects.successors = [next] →
      Recorded next rest last →
      Recorded state (finding :: rest) last

/-- A row records what its first instruction consumes and goes on behind it. -/
lemma recorded_cons_iff {state last : State} {finding : Finding} {rest : List Finding} :
    Recorded state (finding :: rest) last ↔
      finding.opcode.pops ≤ state.stack.length ∧
        finding.consumed = finding.toInstruction.consumes state ∧
        Recorded (finding.toInstruction.after state) rest last := by
  constructor
  · intro h
    cases h with
    | cons hsequential hconsumed hnext hrest =>
      obtain ⟨hpops, rfl⟩ := (Context.sequential_eq_ok_iff rfl).1 hsequential
      obtain rfl := List.singleton_inj.1 hnext
      exact ⟨hpops, by simpa using hconsumed, hrest⟩
  · rintro ⟨hpops, hconsumed, hrest⟩
    exact .cons ((Context.sequential_eq_ok_iff rfl).2 ⟨hpops, rfl⟩) (by simpa using hconsumed) rfl
      hrest

/-- The end of an empty row is its start. -/
lemma recorded_nil_iff {state last : State} : Recorded state [] last ↔ last = state := by
  constructor
  · rintro ⟨⟩
    rfl
  · rintro rfl
    exact .nil

/-- Whether a row records what it consumes can be computed, finding by finding. -/
instance decidableRecorded :
    (row : List Finding) → (state : State) → Decidable (∃ last, Recorded state row last)
  | [], state => isTrue ⟨state, .nil⟩
  | finding :: rest, state =>
    have := decidableRecorded rest (finding.toInstruction.after state)
    decidable_of_iff (finding.opcode.pops ≤ state.stack.length ∧
      finding.consumed = finding.toInstruction.consumes state ∧
      ∃ last, Recorded (finding.toInstruction.after state) rest last)
      (by simp only [recorded_cons_iff, exists_and_left])

/-- A row of two parts is one part after the other. -/
lemma recorded_append_iff {state last : State} {front back : List Finding} :
    Recorded state (front ++ back) last ↔
      ∃ middle, Recorded state front middle ∧ Recorded middle back last := by
  induction front generalizing state with
  | nil => simp [recorded_nil_iff]
  | cons finding front ih =>
    simp only [List.cons_append, recorded_cons_iff, ih]
    grind

/-- Behind the instructions `done`, every slot of the stack was pushed by one of them, no two by
the same, and every register still has its entry value or was written by one of them. -/
structure Exact (done : List Finding) (state : State) : Prop where
  slots : ∃ labels : List Offset, state.stack = labels.map .of ∧ labels.Nodup ∧
    ∀ label ∈ labels, ∃ finding ∈ done, finding.opcode.pushes = 1 ∧ finding.offset = label
  registers : ∀ register, state.registers.get register = .unknown ∨
    ∃ finding ∈ done, finding.written? = some register ∧
      state.registers.get register = .of finding.offset

/-- A finding records a pop of what the instruction at `offset` has pushed. -/
def Finding.Pops (finding : Finding) (offset : Offset) : Prop :=
  .of offset ∈ finding.consumed.take finding.opcode.pops

/-- The pops that a finding records are those of the topmost slots. -/
lemma Finding.pops_iff {finding : Finding} {state : State} {offset : Offset}
    (hpops : finding.opcode.pops ≤ state.stack.length)
    (hconsumed : finding.consumed = finding.toInstruction.consumes state) :
    finding.Pops offset ↔ .of offset ∈ state.stack.take finding.opcode.pops := by
  rw [Pops, hconsumed, Instruction.consumes, List.take_append_of_le_length (by simp [hpops]),
    List.take_of_length_le (List.length_take_le _ _)]

/-- Nothing has been done at the start. -/
lemma Exact.start : Exact [] {} where
  slots := ⟨[], rfl, List.nodup_nil, fun _ h => absurd h List.not_mem_nil⟩
  registers register := Or.inl (RegisterFile.get_fill _ register)

/-- One more instruction, at a new offset, leads from an exact state to an exact state. -/
lemma Exact.after {done : List Finding} {state : State} {finding : Finding}
    (h : Exact done state) (hnew : finding.offset ∉ done.map (·.offset)) :
    Exact (done ++ [finding]) (finding.toInstruction.after state) := by
  obtain ⟨⟨labels, hstack, hnodup, hdone⟩, hregisters⟩ := h
  constructor
  · refine ⟨List.replicate finding.opcode.pushes finding.offset ++ labels.drop finding.opcode.pops,
      ?_, ?_, ?_⟩
    · simp [Instruction.after, hstack]
    · have hone := finding.opcode.pushes_le_one
      have hdrop : (labels.drop finding.opcode.pops).Nodup :=
        hnodup.sublist (List.drop_sublist _ _)
      have hfresh : finding.offset ∉ labels.drop finding.opcode.pops := by
        intro hmem
        obtain ⟨pusher, hpusher, -, hsame⟩ := hdone _ (List.mem_of_mem_drop hmem)
        exact hnew (hsame ▸ List.mem_map_of_mem hpusher)
      rcases Nat.le_one_iff_eq_zero_or_eq_one.1 hone with hpushes | hpushes
      · simpa [hpushes] using hdrop
      · simpa [hpushes] using ⟨hfresh, hdrop⟩
    · intro label hlabel
      rcases List.mem_append.1 hlabel with hlabel | hlabel
      · obtain ⟨hpushes, hlabel⟩ := List.mem_replicate.1 hlabel
        have hone := finding.opcode.pushes_le_one
        exact ⟨finding, by simp, by omega, hlabel.symm⟩
      · obtain ⟨pusher, hpusher, hpushes, hsame⟩ := hdone label (List.mem_of_mem_drop hlabel)
        exact ⟨pusher, List.mem_append_left _ hpusher, hpushes, hsame⟩
  · intro register
    rw [Instruction.after_get]
    split
    · next hwritten =>
      exact Or.inr ⟨finding, by simp, hwritten, rfl⟩
    · rcases hregisters register with hunknown | ⟨writer, hwriter, hwritten, hget⟩
      · exact Or.inl hunknown
      · exact Or.inr ⟨writer, List.mem_append_left _ hwriter, hwritten, hget⟩

namespace Recorded

variable {done row : List Finding} {state last : State}

/-- In a row without repeated offsets, an instruction has another offset than those before it and
those behind it. -/
lemma offset_fresh {finding : Finding}
    (hnodup : ((done ++ finding :: row).map (·.offset)).Nodup) :
    finding.offset ∉ done.map (·.offset) ∧
      ∀ label ∈ done.map (·.offset), ∀ later ∈ row, later.offset ≠ label := by
  rw [List.map_append, List.map_cons, List.nodup_append] at hnodup
  obtain ⟨-, -, hdisjoint⟩ := hnodup
  constructor
  · intro hmem
    exact hdisjoint _ hmem _ List.mem_cons_self rfl
  · intro label hlabel later hlater
    have hbehind : later.offset ∈ finding.offset :: row.map (·.offset) :=
      List.mem_cons_of_mem _ (List.mem_map_of_mem hlater)
    exact (hdisjoint label hlabel later.offset hbehind).symm

/-- **Along a row states are exact**, provided that no offset occurs twice. -/
theorem exact (h : Recorded state row last) (hexact : Exact done state)
    (hnodup : ((done ++ row).map (·.offset)).Nodup) : Exact (done ++ row) last := by
  induction row generalizing done state with
  | nil =>
    obtain rfl := recorded_nil_iff.1 h
    simpa using hexact
  | cons finding row ih =>
    obtain ⟨-, -, hrest⟩ := recorded_cons_iff.1 h
    have hnext := hexact.after (offset_fresh hnodup).1
    rw [List.append_cons] at hnodup ⊢
    exact ih hrest hnext hnodup

/-- What is not on the stack and is not pushed along a row is never popped along it. -/
lemma absent {offset : Offset} (h : Recorded state row last) (hstack : .of offset ∉ state.stack)
    (hrow : ∀ finding ∈ row, finding.offset ≠ offset) :
    .of offset ∉ last.stack ∧ ∀ finding ∈ row, ¬ finding.Pops offset := by
  induction row generalizing state with
  | nil =>
    obtain rfl := recorded_nil_iff.1 h
    exact ⟨hstack, fun _ hmem => absurd hmem List.not_mem_nil⟩
  | cons finding row ih =>
    obtain ⟨hpops, hconsumed, hrest⟩ := recorded_cons_iff.1 h
    have hafter : .of offset ∉ (finding.toInstruction.after state).stack := by
      intro hmem
      rcases List.mem_append.1 hmem with hmem | hmem
      · have hsame := Provenance.of_injective (List.eq_of_mem_replicate hmem)
        exact hrow finding List.mem_cons_self hsame.symm
      · exact hstack (List.mem_of_mem_drop hmem)
    obtain ⟨hlast, hnone⟩ := ih hrest hafter fun f hf => hrow f (List.mem_cons_of_mem _ hf)
    refine ⟨hlast, List.forall_mem_cons.2 ⟨?_, hnone⟩⟩
    rw [Finding.pops_iff hpops hconsumed]
    exact fun hmem => hstack (List.mem_of_mem_take hmem)

/-- What an instruction of a row has popped is not on the stack behind it, is not pushed again and
is not popped by a later one. -/
lemma popped {finding : Finding} {offset : Offset} (h : Recorded state (finding :: row) last)
    (hexact : Exact done state) (hnodup : ((done ++ finding :: row).map (·.offset)).Nodup)
    (hoffset : finding.Pops offset) :
    .of offset ∉ last.stack ∧ ∀ later ∈ row, ¬ later.Pops offset := by
  obtain ⟨hpops, hconsumed, hrest⟩ := recorded_cons_iff.1 h
  obtain ⟨labels, hstack, hlabels, hdone⟩ := hexact.slots
  obtain ⟨hfresh, hlater⟩ := offset_fresh hnodup
  rw [Finding.pops_iff hpops hconsumed, hstack, ← List.map_take] at hoffset
  obtain ⟨label, htaken, hof⟩ := List.mem_map.1 hoffset
  obtain rfl := Provenance.of_injective hof
  have hmem : label ∈ done.map (·.offset) := by
    obtain ⟨pusher, hpusher, -, hsame⟩ := hdone label (List.mem_of_mem_take htaken)
    exact hsame ▸ List.mem_map_of_mem hpusher
  refine hrest.absent (fun hafter => ?_) (hlater label hmem)
  rcases List.mem_append.1 hafter with hpushed | hkept
  · have hsame := Provenance.of_injective (List.eq_of_mem_replicate hpushed)
    exact hfresh (hsame ▸ hmem)
  · -- a label that is popped cannot be further down as well
    rw [hstack, ← List.map_drop] at hkept
    obtain ⟨label', hdropped, hof'⟩ := List.mem_map.1 hkept
    obtain rfl := Provenance.of_injective hof'
    rw [← List.take_append_drop finding.opcode.pops labels, List.nodup_append] at hlabels
    exact hlabels.2.2 _ htaken _ hdropped rfl

/-- Before an instruction of a row stands an exact state, from which it consumes. -/
lemma exists_before {finding : Finding} (h : Recorded state row last) (hexact : Exact done state)
    (hnodup : ((done ++ row).map (·.offset)).Nodup) (hfinding : finding ∈ row) :
    ∃ before middle, Exact before middle ∧ (∀ earlier ∈ before, earlier ∈ done ++ row) ∧
      finding.opcode.pops ≤ middle.stack.length ∧
      finding.consumed = finding.toInstruction.consumes middle := by
  induction row generalizing done state with
  | nil => exact absurd hfinding List.not_mem_nil
  | cons first row ih =>
    obtain ⟨hpops, hconsumed, hrest⟩ := recorded_cons_iff.1 h
    rcases List.mem_cons.1 hfinding with rfl | hfinding
    · exact ⟨done, state, hexact, fun f hf => List.mem_append_left _ hf, hpops, hconsumed⟩
    · have hnext := hexact.after (offset_fresh hnodup).1
      rw [List.append_cons] at hnodup ⊢
      exact ih hrest hnext hnodup hfinding

/-- What an instruction of a row pops was pushed by another one. -/
lemma exists_pusher {finding : Finding} {offset : Offset} (h : Recorded state row last)
    (hexact : Exact done state) (hnodup : ((done ++ row).map (·.offset)).Nodup)
    (hfinding : finding ∈ row) (hoffset : finding.Pops offset) :
    ∃ pusher ∈ done ++ row, pusher.opcode.pushes = 1 ∧ pusher.offset = offset := by
  obtain ⟨before, middle, hexact, hbefore, hpops, hconsumed⟩ :=
    h.exists_before hexact hnodup hfinding
  obtain ⟨labels, hstack, -, hpushers⟩ := hexact.slots
  have hslot := List.mem_of_mem_take ((Finding.pops_iff hpops hconsumed).1 hoffset)
  rw [hstack] at hslot
  obtain ⟨label, hlabel, hof⟩ := List.mem_map.1 hslot
  obtain rfl := Provenance.of_injective hof
  obtain ⟨pusher, hpusher, hpushes, hsame⟩ := hpushers label hlabel
  exact ⟨pusher, hbefore pusher hpusher, hpushes, hsame⟩

/-- What an instruction of a row consumes was produced by another one of the row: either it is
popped, or it is a register that the other one has written.  Only a register may have come from
outside. -/
lemma pops_or_reads {finding : Finding} {value : Provenance} (h : Recorded state row last)
    (hexact : Exact done state) (hnodup : ((done ++ row).map (·.offset)).Nodup)
    (hfinding : finding ∈ row) (hvalue : value ∈ finding.consumed) :
    (∃ offset, value = .of offset ∧ finding.Pops offset) ∨
      ∃ register, finding.read? = some register ∧ (value = .unknown ∨
        ∃ writer ∈ done ++ row, writer.written? = some register ∧ value = .of writer.offset) := by
  obtain ⟨before, middle, hexact, hbefore, hpops, hconsumed⟩ :=
    h.exists_before hexact hnodup hfinding
  rw [hconsumed, Instruction.consumes, List.mem_append] at hvalue
  rcases hvalue with hpopped | hread
  · left
    obtain ⟨labels, hstack, -, -⟩ := hexact.slots
    have hslot := List.mem_of_mem_take hpopped
    rw [hstack] at hslot
    obtain ⟨label, -, rfl⟩ := List.mem_map.1 hslot
    exact ⟨label, rfl, (Finding.pops_iff hpops hconsumed).2 hpopped⟩
  · right
    rw [Option.mem_toList, Option.map_eq_some_iff] at hread
    obtain ⟨register, hread, rfl⟩ := hread
    refine ⟨register, hread, ?_⟩
    rcases hexact.registers register with hunknown | ⟨writer, hwriter, hwritten, hget⟩
    · exact Or.inl hunknown
    · exact Or.inr ⟨writer, hbefore writer hwriter, hwritten, hget⟩

/-- **A slot that an instruction of a row has popped is not on the stack at the end.** -/
theorem not_mem_of_pops {finding : Finding} {offset : Offset} (h : Recorded state row last)
    (hexact : Exact done state) (hnodup : ((done ++ row).map (·.offset)).Nodup)
    (hfinding : finding ∈ row) (hoffset : finding.Pops offset) : .of offset ∉ last.stack := by
  induction row generalizing done state with
  | nil => exact absurd hfinding List.not_mem_nil
  | cons first row ih =>
    rcases List.mem_cons.1 hfinding with rfl | hfinding
    · exact (h.popped hexact hnodup hoffset).1
    · have hnext := hexact.after (offset_fresh hnodup).1
      rw [List.append_cons] at hnodup
      exact ih (recorded_cons_iff.1 h).2.2 hnext hnodup hfinding

/-- **No slot is popped by two instructions of a row.** -/
theorem pops_unique {f g : Finding} {offset : Offset} (h : Recorded state row last)
    (hexact : Exact done state) (hnodup : ((done ++ row).map (·.offset)).Nodup)
    (hf : f ∈ row) (hg : g ∈ row) (hfoffset : f.Pops offset) (hgoffset : g.Pops offset) :
    f = g := by
  induction row generalizing done state with
  | nil => exact absurd hf List.not_mem_nil
  | cons first row ih =>
    rcases List.mem_cons.1 hf with rfl | hf'
    · rcases List.mem_cons.1 hg with rfl | hg'
      · rfl
      · exact absurd hgoffset ((h.popped hexact hnodup hfoffset).2 g hg')
    · rcases List.mem_cons.1 hg with rfl | hg'
      · exact absurd hfoffset ((h.popped hexact hnodup hgoffset).2 f hf')
      · have hnext := hexact.after (offset_fresh hnodup).1
        rw [List.append_cons] at hnodup
        exact ih (recorded_cons_iff.1 h).2.2 hnext hnodup hf' hg'

end Recorded

end KeyedVM
