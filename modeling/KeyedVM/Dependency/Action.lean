import KeyedVM.Opcode

set_option relaxedAutoImplicit false
set_option autoImplicit false

/-!
# Actions that can be replayed

Targets, ids and addresses are computed by a few instructions right before they are used.  The
instructions that occur in such computations have a plain meaning on 64-bit words, listed here.
Any other instruction gives a value that is not a constant of the program.

## Main definitions

* `KeyedVM.Action` — what an instruction does to a stack of words and a register file;
* `KeyedVM.Opcode.action?` — the action of an opcode, if it can be replayed;
* `KeyedVM.Opcode.isReplayable` — whether it can.
-/

namespace KeyedVM

/-- What an instruction does to a stack of words and a register file. -/
inductive Action where
  /-- Pushes the immediate. -/
  | pushImmediate
  /-- Pushes the register of the operand, under a mask. -/
  | pushRegister (mask : UInt64)
  /-- Pops into the register of the operand. -/
  | popRegister
  /-- Replaces the two topmost words; the upper one is the second argument. -/
  | binary (f : UInt64 → UInt64 → UInt64)
  /-- Replaces the topmost word. -/
  | unary (f : UInt64 → UInt64)
  | skip

/-- The bits of a register that a push takes. -/
def Part.mask : Part → UInt64
  | .object | .qword => 0xFFFFFFFFFFFFFFFF
  | .dword => 0xFFFFFFFF
  | .word => 0xFFFF
  | .byte => 0xFF

/-- A 32-bit operation on the low halves of two words; the high half of the result is zero. -/
def onDwords (f : UInt32 → UInt32 → UInt32) (a b : UInt64) : UInt64 :=
  (f a.toUInt32 b.toUInt32).toUInt64

/-- Sign extension: bytes and words are extended to 32 bits and filled with zeros, double words
are extended to 64 bits. -/
def Narrow.extend : Narrow → UInt64 → UInt64
  | .byte, value => value.toUInt8.toInt8.toInt32.toUInt32.toUInt64
  | .word, value => value.toUInt16.toInt16.toInt32.toUInt32.toUInt64
  | .dword, value => value.toUInt32.toInt32.toInt64.toUInt64

namespace Opcode

/-- The action of an opcode, if it can be replayed.  Arithmetic wraps, and shifts take their
amount modulo the width. -/
def action? : Opcode → Option Action
  | pushi _ => some .pushImmediate
  | pushr part => some (.pushRegister part.mask)
  | pop => some .popRegister
  | add .dword => some (.binary (onDwords (· + ·)))
  | add .qword => some (.binary (· + ·))
  | nor .dword => some (.binary (onDwords fun a b => ~~~(a ||| b)))
  | nor .qword => some (.binary fun a b => ~~~(a ||| b))
  | mul .dword => some (.binary (onDwords (· * ·)))
  | mul .qword => some (.binary (· * ·))
  | shl .dword => some (.binary (onDwords (· <<< ·)))
  | shl .qword => some (.binary (· <<< ·))
  | shr .dword => some (.binary (onDwords (· >>> ·)))
  | shr .qword => some (.binary (· >>> ·))
  | sx source => some (.unary source.extend)
  | nop => some .skip
  | _ => none

/-- Whether an opcode can be replayed. -/
def isReplayable (opcode : Opcode) : Bool := opcode.action?.isSome

end Opcode

end KeyedVM
