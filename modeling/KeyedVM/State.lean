import KeyedVM.Error
import KeyedVM.Provenance

set_option relaxedAutoImplicit false
set_option autoImplicit false

/-!
# Abstract states

The abstract state before an instruction: where it stands, the key in force, the provenance of
registers and stack slots, and the protected regions that are open.  States that meet at the same
offset are merged slot by slot and register by register.  They must agree on the depth of the
stack and on the open regions; on the keys they should agree, and the stored one is kept.

## Main definitions

* `KeyedVM.State` — an abstract state;
* `KeyedVM.State.pop`, `KeyedVM.State.push` — its stack;
* `KeyedVM.State.merge` — merging an incoming state into a stored one;
* `KeyedVM.mergeStacks`, `KeyedVM.mergeRegisters` — the two parts of a merge.
-/

namespace KeyedVM

/-- The abstract state before an instruction. -/
structure State where
  /-- The instruction about to be executed. -/
  ip : Offset := 0
  /-- The key in force at the instruction. -/
  key : Key := 0
  registers : RegisterFile Provenance := .fill .unknown
  /-- The slots of the stack, top first. -/
  stack : List Provenance := []
  /-- The open protected regions, innermost first. -/
  regions : List Region := []
  deriving DecidableEq

/-- The united stacks of two paths that meet at `offset`, and whether a slot has grown. -/
def mergeStacks (offset : Offset) (stored incoming : List Provenance) :
    Except Error (List Provenance × Bool) :=
  if stored.length = incoming.length then
    .ok (stored.zipWith (· ∪ ·) incoming, (stored.zipWith Provenance.grows incoming).any id)
  else .error (.inconsistent offset (.depthMismatch stored.length incoming.length))

/-- The united registers of two paths, and whether one of them has grown. -/
def mergeRegisters (stored incoming : RegisterFile Provenance) :
    RegisterFile Provenance × Bool :=
  (stored.zipWith (· ∪ ·) incoming, (stored.zipWith Provenance.grows incoming).any id)

namespace State

/-- The state at the start of a path, about which nothing is known but the key. -/
def initial (ip : Offset) (key : Key) : State := { ip, key }

/-- The number of slots on the stack. -/
def depth (state : State) : Nat := state.stack.length

/-- The state with a slot pushed. -/
def push (state : State) (value : Provenance) : State :=
  { state with stack := value :: state.stack }

/-- The top slot and the state without it, on behalf of the instruction at `offset`. -/
def pop (offset : Offset) (state : State) : Except Error (Provenance × State) :=
  match state.stack with
  | [] => .error (.stackUnderflow offset)
  | value :: rest => .ok (value, { state with stack := rest })

/-- The state with a register written. -/
def setRegister (state : State) (register : Register) (value : Provenance) : State :=
  { state with registers := state.registers.set register value }

/-- The result of a merge. -/
structure Merged where
  state : State
  /-- Whether a slot or a register has grown. -/
  changed : Bool
  /-- Whether the incoming key differs from the stored one, which is kept. -/
  keyDiverged : Bool
  deriving DecidableEq

/-- Merges an incoming state into a stored one.  The open regions are compared first, then the
depths of the stacks. -/
def merge (stored incoming : State) : Except Error Merged :=
  if stored.regions = incoming.regions then do
    let (stack, stackGrew) ← mergeStacks stored.ip stored.stack incoming.stack
    let (registers, registersGrew) := mergeRegisters stored.registers incoming.registers
    return {
      state := { stored with stack, registers }
      changed := stackGrew || registersGrew
      keyDiverged := stored.key != incoming.key }
  else
    .error (.inconsistent stored.ip
      (.regionMismatch stored.regions.length incoming.regions.length))

end State

end KeyedVM
