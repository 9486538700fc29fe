import KeyedVM.Opcode
import KeyedVM.Register
import KeyedVM.Text.Hex

set_option relaxedAutoImplicit false
set_option autoImplicit false

/-!
# Operands

The operand of an instruction: nothing, a register, or an immediate of four or eight bytes.

## Main definitions

* `KeyedVM.Operand` — the operands;
* `KeyedVM.Operand.kind` — the way an operand is stored;
* `KeyedVM.Operand.text` — an operand in a listing;
* `KeyedVM.Operand.describe` — an operand in the message about a wrong operand.
-/

namespace KeyedVM

/-- The operand of an instruction. -/
inductive Operand where
  | none
  | register (register : Register)
  | dword (value : UInt32)
  | qword (value : UInt64)
  deriving DecidableEq, Repr

namespace Operand

/-- How an operand is stored. -/
def kind : Operand → OperandKind
  | .none => .none
  | .register _ => .register
  | .dword _ => .dword
  | .qword _ => .qword

/-- The immediate of an operand, extended by zeros to 64 bits. -/
def immediate? : Operand → Option UInt64
  | .dword value => some value.toUInt64
  | .qword value => some value
  | .none | .register _ => Option.none

/-- The register of an operand. -/
def register? : Operand → Option Register
  | .register r => some r
  | .none | .dword _ | .qword _ => Option.none

/-- An operand in a listing: the name of a register, or an immediate with all its digits. -/
def text : Operand → String
  | .none => ""
  | .register r => r.name
  | .dword value => Text.hex0x 8 value.toNat
  | .qword value => Text.hex0x 16 value.toNat

/-- An operand with the word for its kind; immediates are decimal. -/
def describe : Operand → String
  | .none => "None"
  | .register r => s!"Register({Text.camel r.name})"
  | .dword value => s!"Dword({value.toNat})"
  | .qword value => s!"Qword({value.toNat})"

end Operand

end KeyedVM
