import KeyedVM.Basic
import KeyedVM.Operand

set_option relaxedAutoImplicit false
set_option autoImplicit false

/-!
# Instructions

An instruction as it stands in the stream: its place, its opcode and its operand.

## Main definitions

* `KeyedVM.Instruction` — an instruction;
* `KeyedVM.Instruction.next` — the place behind it;
* `KeyedVM.Instruction.text` — its line in a listing.
-/

namespace KeyedVM

/-- An instruction of the stream. -/
structure Instruction where
  offset : Offset
  opcode : Opcode
  operand : Operand
  deriving DecidableEq, Repr

namespace Instruction

/-- The number of bytes of an instruction, as a machine word. -/
def size (instruction : Instruction) : UInt64 := UInt64.ofNat instruction.opcode.size

/-- The place behind an instruction. -/
def next (instruction : Instruction) : Offset := instruction.offset + instruction.size

/-- The effect of an instruction on control flow. -/
def flow (instruction : Instruction) : Flow := instruction.opcode.flow

/-- The line of an instruction in a listing. -/
def text (instruction : Instruction) : String :=
  Text.hex 4 instruction.offset.toNat ++ ": " ++ instruction.opcode.mnemonic
    ++ (if instruction.operand = .none then "" else " " ++ instruction.operand.text)

end Instruction

end KeyedVM
