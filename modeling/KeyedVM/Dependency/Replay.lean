import KeyedVM.Dependency.Action
import KeyedVM.Finding

set_option relaxedAutoImplicit false
set_option autoImplicit false

/-!
# Replaying instructions

A small concrete machine on which the instructions that compute a value are executed.

## Main definitions

* `KeyedVM.Replay` — a stack of words and the registers that have a value;
* `KeyedVM.Replay.step` — one instruction;
* `KeyedVM.Replay.run` — a list of instructions.

Errors name the instruction whose operand is looked for, the *consumer*, except where the replayed
instruction is itself malformed.
-/

namespace KeyedVM

/-- The state of a replay. -/
structure Replay where
  /-- The registers; those without a value have not been written and have none at entry. -/
  registers : RegisterFile (Option UInt64)
  /-- The words on the stack, top first. -/
  stack : List UInt64 := []
  deriving DecidableEq

namespace Replay

/-- The register of an operand, which must be one. -/
def registerOf (instruction : Instruction) : Except Error Register :=
  match instruction.operand.register? with
  | some register => .ok register
  | none => .error (.unresolvable instruction.offset (.noRegister instruction.opcode))

/-- The word in a register, which must have one. -/
def read (consumer : Offset) (replay : Replay) (instruction : Instruction) (register : Register) :
    Except Error UInt64 :=
  match replay.registers.get register with
  | some value => .ok value
  | none =>
    .error (.unresolvable consumer
      (.unsetRegister instruction.opcode instruction.offset register))

/-- The top word and the replay without it. -/
def pop (consumer : Offset) (replay : Replay) : Except Error (UInt64 × Replay) :=
  match replay.stack with
  | [] => .error (.unresolvable consumer .chainUnderflow)
  | value :: rest => .ok (value, { replay with stack := rest })

/-- The replay with a word pushed. -/
def push (replay : Replay) (value : UInt64) : Replay :=
  { replay with stack := value :: replay.stack }

/-- Performs an action on behalf of an instruction. -/
def perform (consumer : Offset) (replay : Replay) (instruction : Instruction) :
    Action → Except Error Replay
  | .pushImmediate =>
    match instruction.operand.immediate? with
    | some value => .ok (replay.push value)
    | none => .error (.unresolvable instruction.offset .noImmediate)
  | .pushRegister mask => do
    let register ← registerOf instruction
    let value ← replay.read consumer instruction register
    return replay.push (value &&& mask)
  | .popRegister => do
    let register ← registerOf instruction
    let (value, replay) ← replay.pop consumer
    return { replay with registers := replay.registers.set register (some value) }
  | .binary f => do
    let (second, replay) ← replay.pop consumer
    let (first, replay) ← replay.pop consumer
    return replay.push (f first second)
  | .unary f => do
    let (value, replay) ← replay.pop consumer
    return replay.push (f value)
  | .skip => .ok replay

/-- Executes one instruction. -/
def step (consumer : Offset) (replay : Replay) (instruction : Instruction) :
    Except Error Replay :=
  match instruction.opcode.action? with
  | some action => replay.perform consumer instruction action
  | none =>
    .error (.unresolvable instruction.offset (.unsupportedInChain instruction.opcode))

/-- Executes instructions one after the other. -/
def run (consumer : Offset) (replay : Replay) : List Instruction → Except Error Replay
  | [] => .ok replay
  | instruction :: rest => do
    let replay ← replay.step consumer instruction
    run consumer replay rest

end Replay

end KeyedVM
