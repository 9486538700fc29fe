import KeyedVM.Decoder
import KeyedVM.Image
import KeyedVM.Proofs.Dependency.Evaluation

set_option relaxedAutoImplicit false
set_option autoImplicit false

/-!
# The machine

Programs run on a machine with a stack of words and one word in each register.  Replayable
instructions do on it what they do in a replay.  About the other instructions without influence on
control flow only the number of slots is known that they pop and push, and nothing is known about
the flags behind an instruction that writes them.

## Main definitions

* `KeyedVM.Store` — the words that a machine works on;
* `KeyedVM.Performs` — an instruction without influence on control flow leads from a store to
  another one;
* `KeyedVM.Executes` — a row of such instructions does;
* `KeyedVM.Machine`, `KeyedVM.Machine.Step`, `KeyedVM.Machine.Run` — the machine, one instruction
  and a finite run;
* `KeyedVM.Machine.walk` — a run that is computed;
* `KeyedVM.Instruction.Gives` — the word that an instruction computes from a store.

## Main results

* `KeyedVM.Performs.spec` — what an instruction leaves in a store;
* `KeyedVM.exists_performs` — an instruction can be performed if there are enough slots.
-/

namespace KeyedVM

namespace RegisterFile

variable {α β : Type}

/-- A function applied to every register. -/
def map (f : α → β) (file : RegisterFile α) : RegisterFile β := ⟨file.cells.map f⟩

/-- A file of registers that is mapped holds the images. -/
@[simp] lemma get_map (f : α → β) (file : RegisterFile α) (r : Register) :
    (file.map f).get r = f (file.get r) := by
  simp [map, get]

/-- A write commutes with a function on every register. -/
lemma map_set (f : α → β) (file : RegisterFile α) (r : Register) (a : α) :
    (file.set r a).map f = (file.map f).set r (f a) := by
  apply ext_get
  intro s
  simp only [get_map, get_set]
  split <;> rfl

end RegisterFile

/-! ## Stores -/

/-- The words that a machine works on. -/
structure Store where
  registers : RegisterFile UInt64
  /-- The words on the stack, top first. -/
  stack : List UInt64 := []

namespace Store

/-- The replay in which every register has its word. -/
def replay (store : Store) : Replay where
  registers := store.registers.map some
  stack := store.stack

/-- The store behind an instruction that leaves some word in the flags, if it writes them. -/
def settle (store : Store) (instruction : Instruction) (flags : UInt64) : Store :=
  if instruction.opcode.writesFlags then
    { store with registers := store.registers.set .fl flags }
  else store

/-- A replay that starts from a store has its stack. -/
@[simp] lemma replay_stack (store : Store) : store.replay.stack = store.stack := rfl

/-- A replay that starts from a store knows every register. -/
@[simp] lemma replay_get (store : Store) (register : Register) :
    store.replay.registers.get register = some (store.registers.get register) := by
  simp [replay]

/-- Settling the flags leaves the stack alone. -/
@[simp] lemma settle_stack (store : Store) (instruction : Instruction) (flags : UInt64) :
    (store.settle instruction flags).stack = store.stack := by
  unfold settle
  split <;> rfl

/-- Only the flags are settled. -/
lemma settle_get {store : Store} {instruction : Instruction} {flags : UInt64}
    {register : Register} (h : instruction.opcode.writesFlags = true → register ≠ .fl) :
    (store.settle instruction flags).registers.get register = store.registers.get register := by
  unfold settle
  split
  · next hwrites => exact RegisterFile.get_set_of_ne _ (h hwrites).symm _
  · rfl

end Store

/-- An instruction without influence on control flow leads from a store to another one. -/
inductive Performs (instruction : Instruction) (store : Store) : Store → Prop
  | replayed {after : Store} {flags : UInt64} :
      store.replay.step instruction.offset instruction = .ok after.replay →
      Performs instruction store (after.settle instruction flags)
  | other {results : List UInt64} {flags : UInt64} :
      instruction.flow = .sequential → instruction.opcode.isReplayable = false →
      instruction.opcode.pops ≤ store.stack.length →
      results.length = instruction.opcode.pushes →
      Performs instruction store
        ({ store with
          stack := results ++ store.stack.drop instruction.opcode.pops }.settle instruction flags)

/-- Instructions without influence on control flow lead, one after the other, from a store to
another one. -/
inductive Executes : Store → List Instruction → Store → Prop
  | nil {store : Store} : Executes store [] store
  | cons {store middle last : Store} {instruction : Instruction} {rest : List Instruction} :
      Performs instruction store middle → Executes middle rest last →
      Executes store (instruction :: rest) last

/-! ## What an instruction leaves -/

/-- The word that an instruction with a given action computes from a store. -/
def Instruction.Gives (instruction : Instruction) (store : Store) : Action → UInt64 → Prop
  | .pushImmediate, word => instruction.operand.immediate? = some word
  | .pushRegister mask, word =>
    ∃ register, instruction.operand.register? = some register ∧
      word = store.registers.get register &&& mask
  | .popRegister, word => ∃ rest, store.stack = word :: rest
  | .unary f, word => ∃ value rest, store.stack = value :: rest ∧ word = f value
  | .binary f, word =>
    ∃ second first rest, store.stack = second :: first :: rest ∧ word = f first second
  | .skip, _ => False

namespace Performs

variable {instruction : Instruction} {store store' : Store}

/-- What an instruction leaves in a store: the slots below those that it pops, under what it
pushes; and the registers that it does not write.  What a replayable instruction pushes, or pops
into a register, is the word that it computes. -/
structure Leaves (instruction : Instruction) (store : Store) (results : List UInt64)
    (store' : Store) : Prop where
  enough : instruction.opcode.pops ≤ store.stack.length
  length : results.length = instruction.opcode.pushes
  stack : store'.stack = results ++ store.stack.drop instruction.opcode.pops
  registers : ∀ register, instruction.written? ≠ some register →
    store'.registers.get register = store.registers.get register
  pushed : ∀ action word, instruction.opcode.action? = some action → word ∈ results →
    instruction.Gives store action word
  popped : ∀ register, instruction.opcode = .pop → instruction.written? = some register →
    instruction.Gives store .popRegister (store'.registers.get register)

/-- An instruction that writes the flags writes no other register. -/
lemma written?_of_writesFlags (h : instruction.opcode.writesFlags = true) :
    instruction.written? = some .fl := by
  have hpop : instruction.opcode ≠ .pop := by
    intro hpop
    rw [hpop] at h
    cases h
  rw [Instruction.written?, if_neg hpop, if_pos h]

/-- Registers that an instruction does not write are not settled. -/
lemma settle_get_of_ne {after : Store} {flags : UInt64} {register : Register}
    (h : instruction.written? ≠ some register) :
    (after.settle instruction flags).registers.get register = after.registers.get register := by
  refine Store.settle_get fun hwrites hfl => h ?_
  rw [written?_of_writesFlags hwrites, hfl]

/-- A replayable instruction that pushes leaves the word that it computes, and the registers. -/
lemma leaves_of_pushed {after : Store} {flags : UInt64} {action : Action} {word : UInt64}
    (haction : instruction.opcode.action? = some action)
    (hgives : instruction.Gives store action word)
    (hne : instruction.opcode ≠ .pop) (hpops : instruction.opcode.pops ≤ store.stack.length)
    (hpushes : instruction.opcode.pushes = 1)
    (hstack : after.stack = word :: store.stack.drop instruction.opcode.pops)
    (hregisters : ∀ register, after.registers.get register = store.registers.get register) :
    Leaves instruction store [word] (after.settle instruction flags) where
  enough := hpops
  length := hpushes.symm
  stack := by simp [hstack]
  registers register hwritten := by rw [settle_get_of_ne hwritten, hregisters]
  pushed action' word' haction' hword' := by
    obtain rfl := Option.some.inj (haction.symm.trans haction')
    rwa [List.mem_singleton.1 hword']
  popped _ hpop := absurd hpop hne

/-- What a replayable instruction leaves in a store, by cases on its action. -/
lemma leaves_of_step {after : Store} {flags : UInt64}
    (hstep : store.replay.step instruction.offset instruction = .ok after.replay) :
    ∃ results, Leaves instruction store results (after.settle instruction flags) := by
  obtain ⟨action, haction, hdoes⟩ := Replay.step_eq_ok_iff.1 hstep
  have hhas := Opcode.has_of_action? haction
  -- what the replay leaves, as a store
  have hstack : after.stack = after.replay.stack := rfl
  have hget : ∀ register, some (after.registers.get register) =
      after.replay.registers.get register := fun register => (after.replay_get register).symm
  cases action with
  | pushImmediate =>
    obtain ⟨value, himmediate, hafter⟩ := hdoes
    obtain ⟨width, hwidth⟩ := hhas
    rw [hafter] at hstack hget
    refine ⟨[value], leaves_of_pushed haction himmediate (by simp [hwidth])
      (by simp [hwidth, Opcode.pops]) (by rw [hwidth]; rfl) ?_ fun register => ?_⟩
    · simpa [hwidth, Opcode.pops, Replay.push] using hstack
    · simpa [Replay.push] using hget register
  | pushRegister mask =>
    obtain ⟨register, value, hregister, hvalue, hafter⟩ := hdoes
    obtain ⟨part, hpart, -⟩ := hhas
    rw [Store.replay_get, Option.some.injEq] at hvalue
    rw [hafter] at hstack hget
    refine ⟨[value &&& mask], leaves_of_pushed haction ⟨register, hregister, by rw [hvalue]⟩
      (by simp [hpart]) (by simp [hpart, Opcode.pops]) (by rw [hpart]; rfl) ?_ fun register => ?_⟩
    · simpa [hpart, Opcode.pops, Replay.push] using hstack
    · simpa [Replay.push] using hget register
  | popRegister =>
    obtain ⟨register, value, rest, hregister, hvalue, hafter⟩ := hdoes
    rw [Store.replay_stack] at hvalue
    rw [hafter] at hstack hget
    have hpop : instruction.opcode = .pop := hhas
    have hwritten : instruction.written? = some register := by
      rw [Instruction.written?, if_pos hpop, hregister]
    have hflags : instruction.opcode.writesFlags = true → register ≠ .fl := by
      rw [hpop]
      exact fun h => absurd h (by decide)
    refine ⟨[], by simp [hpop, hvalue, Opcode.pops], by rw [hpop]; rfl, ?_, ?_, ?_, ?_⟩
    · simpa [hpop, hvalue, Opcode.pops] using hstack
    · intro register' hne
      have hother : register ≠ register' := by
        rintro rfl
        exact hne hwritten
      rw [settle_get_of_ne hne]
      simpa [RegisterFile.get_set_of_ne _ hother] using hget register'
    · exact fun _ _ _ hword => absurd hword List.not_mem_nil
    · intro register' _ hwritten'
      obtain rfl := Option.some.inj (hwritten.symm.trans hwritten')
      refine ⟨rest, ?_⟩
      rw [Store.settle_get hflags, hvalue]
      simpa using (hget register).symm
  | binary f =>
    obtain ⟨second, first, rest, hvalue, hafter⟩ := hdoes
    obtain ⟨hne, -, hpops, hpushes, -⟩ := hhas
    rw [Store.replay_stack] at hvalue
    rw [hafter] at hstack hget
    refine ⟨[f first second], leaves_of_pushed haction ⟨second, first, rest, hvalue, rfl⟩ hne
      (by simp [hpops, hvalue]) hpushes ?_ fun register => ?_⟩
    · simpa [hpops, hvalue] using hstack
    · simpa using hget register
  | unary f =>
    obtain ⟨value, rest, hvalue, hafter⟩ := hdoes
    obtain ⟨source, hsource⟩ := hhas
    rw [Store.replay_stack] at hvalue
    rw [hafter] at hstack hget
    refine ⟨[f value], leaves_of_pushed haction ⟨value, rest, hvalue, rfl⟩ (by simp [hsource])
      (by simp [hsource, hvalue, Opcode.pops]) (by rw [hsource]; rfl) ?_ fun register => ?_⟩
    · simpa [hsource, hvalue, Opcode.pops] using hstack
    · simpa using hget register
  | skip =>
    have hnop : instruction.opcode = .nop := hhas
    rw [hdoes] at hstack hget
    refine ⟨[], by simp [hnop, Opcode.pops], by rw [hnop]; rfl, ?_, ?_, ?_, ?_⟩
    · simpa [hnop, Opcode.pops] using hstack
    · intro register hne
      rw [settle_get_of_ne hne]
      simpa using hget register
    · exact fun _ _ _ hword => absurd hword List.not_mem_nil
    · exact fun _ hpop => absurd (hnop.symm.trans hpop) (by simp)

/-- **What an instruction leaves in a store.** -/
theorem spec (h : Performs instruction store store') :
    ∃ results, Leaves instruction store results store' := by
  cases h with
  | replayed hstep => exact leaves_of_step hstep
  | @other results flags _ hreplayable hpops hlength =>
    rw [Opcode.isReplayable, Option.isSome_eq_false_iff, Option.isNone_iff_eq_none] at hreplayable
    refine ⟨results, hpops, hlength, by simp, fun register hne => settle_get_of_ne hne, ?_, ?_⟩
    · intro action word haction
      rw [hreplayable] at haction
      cases haction
    · intro register hpop
      rw [hpop] at hreplayable
      cases hreplayable

end Performs

/-- A replayable instruction can be replayed on a store if there are enough slots. -/
lemma exists_does {instruction : Instruction} {store : Store} {action : Action}
    (hform : instruction.WellFormed) (haction : instruction.opcode.action? = some action)
    (hpops : instruction.opcode.pops ≤ store.stack.length) :
    ∃ after : Store, Replay.Does instruction store.replay after.replay action := by
  have hhas := Opcode.has_of_action? haction
  cases action with
  | pushImmediate =>
    obtain ⟨width, hwidth⟩ := hhas
    obtain ⟨value, himmediate⟩ := hform.exists_immediate hwidth
    exact ⟨{ store with stack := value :: store.stack }, value, himmediate, rfl⟩
  | pushRegister mask =>
    obtain ⟨part, hpart, -⟩ := hhas
    obtain ⟨register, hregister⟩ := hform.exists_register (by rw [hpart]; rfl)
    exact ⟨{ store with stack := (store.registers.get register &&& mask) :: store.stack },
      register, _, hregister, store.replay_get register, rfl⟩
  | popRegister =>
    have hpop : instruction.opcode = .pop := hhas
    obtain ⟨register, hregister⟩ := hform.exists_register (by rw [hpop]; rfl)
    rw [hpop] at hpops
    obtain ⟨word, rest, hstack⟩ := List.exists_cons_of_length_pos hpops
    refine ⟨⟨store.registers.set register word, rest⟩, register, word, rest, hregister, hstack, ?_⟩
    rw [Store.replay, RegisterFile.map_set]
    rfl
  | binary f =>
    obtain ⟨-, -, htwo, -, -⟩ := hhas
    rw [htwo] at hpops
    obtain ⟨second, first, rest, hstack⟩ := exists_two_slots hpops
    exact ⟨{ store with stack := f first second :: rest }, second, first, rest, hstack, rfl⟩
  | unary f =>
    obtain ⟨source, hsource⟩ := hhas
    rw [hsource] at hpops
    obtain ⟨word, rest, hstack⟩ := List.exists_cons_of_length_pos hpops
    exact ⟨{ store with stack := f word :: rest }, word, rest, hstack, rfl⟩
  | skip => exact ⟨store, rfl⟩

/-- A replayable instruction other than `POP` leaves the registers of a replay. -/
lemma Replay.registers_of_step {instruction : Instruction} {replay replay' : Replay}
    {consumer : Offset} (h : replay.step consumer instruction = .ok replay')
    (hpop : instruction.opcode ≠ .pop) : replay'.registers = replay.registers := by
  obtain ⟨action, haction, hdoes⟩ := step_eq_ok_iff.1 h
  cases action with
  | pushImmediate =>
    obtain ⟨_, -, rfl⟩ := hdoes
    rfl
  | pushRegister mask =>
    obtain ⟨_, _, -, -, rfl⟩ := hdoes
    rfl
  | popRegister => exact absurd (Opcode.has_of_action? haction) hpop
  | binary f =>
    obtain ⟨_, _, _, -, rfl⟩ := hdoes
    rfl
  | unary f =>
    obtain ⟨_, _, -, rfl⟩ := hdoes
    rfl
  | skip => rw [show replay' = replay from hdoes]

/-- The store behind a replayable instruction, with its flags still as they were. -/
def Store.perform? (store : Store) (instruction : Instruction) : Option Store :=
  if instruction.opcode = .pop then
    match instruction.operand.register?, store.stack with
    | some register, word :: rest => some ⟨store.registers.set register word, rest⟩
    | _, _ => none
  else
    match store.replay.step instruction.offset instruction with
    | .ok replay => some { store with stack := replay.stack }
    | .error _ => none

/-- What is performed is what is replayed. -/
lemma Store.step_of_perform? {store after : Store} {instruction : Instruction}
    (h : store.perform? instruction = some after) :
    store.replay.step instruction.offset instruction = .ok after.replay := by
  unfold perform? at h
  split at h
  · next hpop =>
    split at h
    · next register word rest hregister hstack =>
      obtain rfl := Option.some.inj h
      refine Replay.step_eq_ok_iff.2 ⟨.popRegister, by rw [hpop]; rfl, register, word, rest,
        hregister, hstack, ?_⟩
      rw [replay, RegisterFile.map_set]
      rfl
    · cases h
  · next hpop =>
    split at h
    · next after' hstep =>
      obtain rfl := Option.some.inj h
      rw [hstep, replay, ← show after'.registers = store.registers.map some from
        Replay.registers_of_step hstep hpop]
    · cases h

/-- **An instruction can be performed if there are enough slots.** -/
theorem exists_performs {instruction : Instruction} {store : Store}
    (hform : instruction.WellFormed) (hflow : instruction.flow = .sequential)
    (hpops : instruction.opcode.pops ≤ store.stack.length) :
    ∃ store', Performs instruction store store' := by
  cases haction : instruction.opcode.action? with
  | none =>
    have hreplayable : instruction.opcode.isReplayable = false := by
      rw [Opcode.isReplayable, haction]
      rfl
    exact ⟨_, @Performs.other _ _ (List.replicate instruction.opcode.pushes 0) 0 hflow hreplayable
      hpops List.length_replicate⟩
  | some action =>
    obtain ⟨after, hdoes⟩ := exists_does hform haction hpops
    exact ⟨_, @Performs.replayed _ _ after 0 (Replay.step_eq_ok_iff.2 ⟨action, haction, hdoes⟩)⟩

/-- A recorded row can be executed from a store of the same depth. -/
lemma exists_executes {row : List Finding} {state last : State} {store : Store}
    (hform : ∀ finding ∈ row, finding.WellFormed)
    (hflow : ∀ finding ∈ row, finding.flow = .sequential)
    (hrecorded : Recorded state row last) (hdepth : store.stack.length = state.stack.length) :
    ∃ store', Executes store (row.map (·.toInstruction)) store' := by
  induction row generalizing state store with
  | nil => exact ⟨store, .nil⟩
  | cons finding row ih =>
    obtain ⟨hpops, -, hrest⟩ := recorded_cons_iff.1 hrecorded
    obtain ⟨hform, hforms⟩ := List.forall_mem_cons.1 hform
    obtain ⟨hflow, hflows⟩ := List.forall_mem_cons.1 hflow
    obtain ⟨middle, hperforms⟩ := exists_performs hform hflow (hdepth ▸ hpops)
    obtain ⟨results, hleaves⟩ := hperforms.spec
    have hdepth' : middle.stack.length = (finding.toInstruction.after state).stack.length := by
      simp [hleaves.stack, hleaves.length, Instruction.after, hdepth]
    obtain ⟨store', hexecutes⟩ := ih hforms hflows hrest hdepth'
    exact ⟨store', .cons hperforms hexecutes⟩

/-- By default, the registers that have an entry value have the value zero. -/
lemma Settings.eq_zero_of_get_default {register : Register} {word : UInt64}
    (h : ({} : Settings).initialRegisters.get register = some word) : word = 0 := by
  have hall : ∀ register ∈ Register.all, ({} : Settings).initialRegisters.get register = none ∨
      ({} : Settings).initialRegisters.get register = some 0 := by decide
  rcases hall register (Enumeration.mem_all register) with hnone | hzero
  · exact absurd (hnone.symm.trans h) (by simp)
  · exact (Option.some.inj (hzero.symm.trans h)).symm

/-! ## Runs -/

/-- A jump pops its target, and a conditional jump its condition as well. -/
lemma Opcode.pops_of_flow {opcode : Opcode} :
    (opcode.flow = .jump → opcode.pops = 1) ∧
      (opcode.flow = .conditionalJump → opcode.pops = 2) := by
  cases opcode <;> simp [Opcode.flow, Opcode.pops]

/-- A machine: where it stands, the key in force there, and its words. -/
structure Machine extends Store where
  ip : Offset
  key : Key

/-- A move of a machine: the machine before it, the instruction that it executes, and the machine
behind it. -/
structure Move where
  before : Machine
  instruction : Instruction
  after : Machine

namespace Machine

variable {image : Image}

/-- One instruction of a program.  A jump goes to the word that it pops; a conditional jump goes
there or on. -/
inductive Step (image : Image) (machine : Machine) (instruction : Instruction) : Machine → Prop
  | sequential {key : Key} {store : Store} :
      decodeAt image.table image.blob machine.ip machine.key = .ok (instruction, key) →
      instruction.flow = .sequential → Performs instruction machine.toStore store →
      Step image machine instruction ⟨store, instruction.next, key⟩
  | jump {key : Key} {target : UInt64} {rest : List UInt64} :
      decodeAt image.table image.blob machine.ip machine.key = .ok (instruction, key) →
      instruction.flow = .jump → machine.stack = target :: rest →
      Step image machine instruction ⟨⟨machine.registers, rest⟩, target, key⟩
  | taken {key : Key} {target condition : UInt64} {rest : List UInt64} :
      decodeAt image.table image.blob machine.ip machine.key = .ok (instruction, key) →
      instruction.flow = .conditionalJump → machine.stack = target :: condition :: rest →
      Step image machine instruction ⟨⟨machine.registers, rest⟩, target, key⟩
  | passed {key : Key} {target condition : UInt64} {rest : List UInt64} :
      decodeAt image.table image.blob machine.ip machine.key = .ok (instruction, key) →
      instruction.flow = .conditionalJump → machine.stack = target :: condition :: rest →
      Step image machine instruction ⟨⟨machine.registers, rest⟩, instruction.next, key⟩

/-- A finite run, with the moves that it consists of. -/
inductive Run (image : Image) (start : Machine) : List Move → Machine → Prop
  | start : Run image start [] start
  | step {moves : List Move} {machine machine' : Machine} {instruction : Instruction} :
      Run image start moves machine → Step image machine instruction machine' →
      Run image start (moves ++ [⟨machine, instruction, machine'⟩]) machine'

/-- An instruction is a jump, conditional or not. -/
def Jumps (instruction : Instruction) : Prop :=
  instruction.flow = .jump ∨ instruction.flow = .conditionalJump

/-- Whether an instruction jumps can be computed. -/
instance (instruction : Instruction) : Decidable (Jumps instruction) :=
  inferInstanceAs (Decidable (_ ∨ _))

/-- A jump leaves the words below those that it pops, and goes to the word on top or, if it is
conditional, on. -/
lemma Step.jump_cases {machine machine' : Machine} {instruction : Instruction}
    (h : Step image machine instruction machine') (hjumps : Jumps instruction) :
    (∃ key, decodeAt image.table image.blob machine.ip machine.key = .ok (instruction, key)) ∧
      machine'.stack = machine.stack.drop instruction.opcode.pops ∧
      machine'.registers = machine.registers ∧ ∃ target rest, machine.stack = target :: rest ∧
        (machine'.ip = target ∨
          instruction.flow = .conditionalJump ∧ machine'.ip = instruction.next) := by
  have hpops : (instruction.flow = .jump → instruction.opcode.pops = 1) ∧
      (instruction.flow = .conditionalJump → instruction.opcode.pops = 2) := Opcode.pops_of_flow
  cases h with
  | sequential hdecode hflow => rcases hjumps with hj | hj <;> rw [hflow] at hj <;> cases hj
  | @jump key target rest hdecode hflow hstack =>
    refine ⟨⟨key, hdecode⟩, ?_, rfl, target, rest, hstack, Or.inl rfl⟩
    simp [hstack, hpops.1 hflow]
  | @taken key target condition rest hdecode hflow hstack =>
    refine ⟨⟨key, hdecode⟩, ?_, rfl, target, _, hstack, Or.inl rfl⟩
    simp [hstack, hpops.2 hflow]
  | @passed key target condition rest hdecode hflow hstack =>
    refine ⟨⟨key, hdecode⟩, ?_, rfl, target, _, hstack, Or.inr ⟨hflow, rfl⟩⟩
    simp [hstack, hpops.2 hflow]

/-! ## Walks -/

/-- One way in which a machine may go on, if it stands at a replayable instruction or a jump: flags
that are written become zero, and a conditional jump is taken. -/
def advance (image : Image) (machine : Machine) : Option (Instruction × Machine) :=
  match decodeAt image.table image.blob machine.ip machine.key with
  | .error _ => none
  | .ok (instruction, key) =>
    match instruction.flow, machine.stack with
    | .sequential, _ =>
      (machine.toStore.perform? instruction).map fun after =>
        (instruction, ⟨after.settle instruction 0, instruction.next, key⟩)
    | .jump, target :: rest => some (instruction, ⟨⟨machine.registers, rest⟩, target, key⟩)
    | .conditionalJump, target :: _ :: rest =>
      some (instruction, ⟨⟨machine.registers, rest⟩, target, key⟩)
    | _, _ => none

/-- The moves of a machine that advances a number of times, and where it gets. -/
def walk (image : Image) (start : Machine) : Nat → Option (List Move × Machine)
  | 0 => some ([], start)
  | n + 1 => do
    let (moves, machine) ← walk image start n
    let (instruction, machine') ← machine.advance image
    return (moves ++ [⟨machine, instruction, machine'⟩], machine')

/-- Advancing is a step. -/
lemma step_of_advance {machine machine' : Machine} {instruction : Instruction}
    (h : machine.advance image = some (instruction, machine')) :
    Step image machine instruction machine' := by
  unfold advance at h
  split at h
  · cases h
  · next decoded key hdecode =>
    split at h
    · next hflow =>
      obtain ⟨after, hafter, h⟩ := Option.map_eq_some_iff.1 h
      obtain ⟨rfl, rfl⟩ := Prod.mk.inj h
      exact .sequential hdecode hflow (.replayed (Store.step_of_perform? hafter))
    · next hflow hstack =>
      obtain ⟨rfl, rfl⟩ := Prod.mk.inj (Option.some.inj h)
      exact .jump hdecode hflow hstack
    · next hflow hstack =>
      obtain ⟨rfl, rfl⟩ := Prod.mk.inj (Option.some.inj h)
      exact .taken hdecode hflow hstack
    · cases h

/-- A walk is a run. -/
lemma run_of_walk {start last : Machine} {moves : List Move} {n : Nat}
    (h : start.walk image n = some (moves, last)) : Run image start moves last := by
  induction n generalizing moves last with
  | zero =>
    obtain ⟨rfl, rfl⟩ := Prod.mk.inj (Option.some.inj h)
    exact .start
  | succ n ih =>
    simp only [walk, Option.bind_eq_bind, Option.bind_eq_some_iff, Prod.exists,
      Option.pure_def, Option.some.injEq, Prod.mk.injEq] at h
    obtain ⟨earlier, machine, hwalk, instruction, machine', hadvance, rfl, rfl⟩ := h
    exact .step (ih hwalk) (step_of_advance hadvance)

end Machine

/-- A register has been written in the course of some moves. -/
def Written (moves : List Move) (register : Register) : Prop :=
  ∃ move ∈ moves, move.instruction.written? = some register

/-- What has been written in the course of one more move. -/
lemma written_append_iff {moves : List Move} {move : Move} {register : Register} :
    Written (moves ++ [move]) register ↔
      Written moves register ∨ move.instruction.written? = some register := by
  simp [Written, or_and_right, exists_or]

/-- A jump writes no register. -/
lemma Machine.Jumps.written?_eq_none {instruction : Instruction} (h : Machine.Jumps instruction) :
    instruction.written? = none := by
  have hflags : ∀ opcode : Opcode, opcode.flow = .jump ∨ opcode.flow = .conditionalJump →
      opcode ≠ .pop ∧ opcode.writesFlags = false := by
    intro opcode hflow
    cases opcode <;> simp_all [Opcode.flow, Opcode.writesFlags]
  obtain ⟨hpop, hwrites⟩ := hflags instruction.opcode h
  simp [Instruction.written?, hpop, hwrites]

end KeyedVM
