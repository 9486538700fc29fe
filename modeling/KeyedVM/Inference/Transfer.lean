import KeyedVM.Dependency.Evaluator
import KeyedVM.Image

set_option relaxedAutoImplicit false
set_option autoImplicit false

/-!
# Transfers

The execution of one instruction on an abstract state: the state that is being built for the
instructions that follow, and the values consumed so far.

## Main definitions

* `KeyedVM.Context` — the program, the settings and the function under analysis;
* `KeyedVM.Transfer` — an instruction half executed, with `pop`, `popMany`, `push`;
* `KeyedVM.Transfer.resolveArgument` — pops a value that must be a single number;
* `KeyedVM.Effects` — what the execution of an instruction leads to.
-/

namespace KeyedVM

/-- What is analysed, and how. -/
structure Context where
  image : Image
  settings : Settings
  /-- The function under analysis. -/
  subject : Export

/-- What the execution of an instruction leads to. -/
structure Effects where
  /-- The values that were consumed. -/
  consumed : List Provenance := []
  /-- What the computed operands mean. -/
  meaning? : Option Meaning := none
  /-- The states in which execution may go on. -/
  successors : List State := []
  /-- The offsets that are now known to start a block. -/
  headers : List Offset := []
  /-- The protected region that was opened. -/
  region? : Option Region := none
  /-- The depth of the stack and the key at a return. -/
  return? : Option (Nat × Key) := none
  /-- The target of a call that is no export. -/
  unknownCallee? : Option Offset := none
  /-- The export whose exit key is missing to go on. -/
  waitingFor? : Option ExportId := none
  deriving DecidableEq

/-- An instruction half executed. -/
structure Transfer where
  /-- The instruction. -/
  offset : Offset
  /-- The state behind the instruction, as far as it is known. -/
  post : State
  /-- The values consumed so far, in the order of consumption. -/
  consumed : List Provenance := []
  deriving DecidableEq

namespace Transfer

/-- Pops a slot and notes it as consumed. -/
def pop (transfer : Transfer) : Except Error (Provenance × Transfer) := do
  let (value, post) ← transfer.post.pop transfer.offset
  return (value, { transfer with post, consumed := transfer.consumed ++ [value] })

/-- Pops a number of slots. -/
def popMany : Nat → Transfer → Except Error Transfer
  | 0, transfer => .ok transfer
  | n + 1, transfer => do
    let (_, transfer) ← transfer.pop
    popMany n transfer

/-- Pushes a value that the instruction produces. -/
def push (transfer : Transfer) : Transfer :=
  { transfer with post := transfer.post.push (.of transfer.offset) }

/-- Pushes a number of values that the instruction produces. -/
def pushMany : Nat → Transfer → Transfer
  | 0, transfer => transfer
  | n + 1, transfer => pushMany n transfer.push

/-- Notes that the instruction writes a register. -/
def write (transfer : Transfer) (register : Register) : Transfer :=
  { transfer with post := transfer.post.setRegister register (.of transfer.offset) }

/-- Notes that the instruction reads a register. -/
def read (transfer : Transfer) (register : Register) : Transfer :=
  { transfer with consumed := transfer.consumed ++ [transfer.post.registers.get register] }

/-- Pops a value and reduces it to a single number. -/
def resolveArgument (evaluator : Evaluator) (role : String) (transfer : Transfer) :
    Except Error (UInt64 × Transfer) := do
  let (value, transfer) ← transfer.pop
  let number ← evaluator.resolveSingle value transfer.offset role
  return (number, transfer)

end Transfer

end KeyedVM
