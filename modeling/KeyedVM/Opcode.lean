import KeyedVM.Enumeration
import KeyedVM.Text.Camel

set_option relaxedAutoImplicit false
set_option autoImplicit false

/-!
# Opcodes

The instruction set of the machine, without the byte values: every build of a protected program
shuffles those, see `KeyedVM.ByteTable`.  Opcodes come in families; a family takes the width or
the type it works on as a parameter.  What is fixed for all builds is listed here: the operand
that follows the opcode, the effect on control flow, and the fixed part of the stack effect.

## Main definitions

* `KeyedVM.Opcode` — the opcodes;
* `KeyedVM.Opcode.mnemonic` — their names;
* `KeyedVM.Opcode.operandKind`, `flow`, `pops`, `pushes`, `writesFlags`, `category` — the
  descriptor of an opcode;
* `KeyedVM.Opcode.size` — the length of an instruction in the stream;
* `KeyedVM.Opcode.endsPath` — no instruction follows on the same path.
-/

namespace KeyedVM

/-! ## Parameters of the families -/

/-- The widths of the integer-only operations. -/
inductive Width where
  | dword
  | qword
  deriving DecidableEq, Repr

/-- The types of the arithmetic operations: two integers and two reals. -/
inductive Numeric where
  | dword
  | qword
  | r32
  | r64
  deriving DecidableEq, Repr

/-- The two real types. -/
inductive RealType where
  | r32
  | r64
  deriving DecidableEq, Repr

/-- The conversions between reals, and from integers to reals. -/
inductive RealConversion where
  | r32ToR64
  | r64ToR32
  | toR32
  | toR64
  deriving DecidableEq, Repr

/-- The conversions to integers. -/
inductive IntConversion where
  | ptr
  | r64
  deriving DecidableEq, Repr

/-- What an indirect load or store moves. -/
inductive Cell where
  | ptr
  | object
  | byte
  | word
  | dword
  | qword
  deriving DecidableEq, Repr

/-- The part of a register that a register push takes. -/
inductive Part where
  | object
  | byte
  | word
  | dword
  | qword
  deriving DecidableEq, Repr

/-- The source width of a sign extension. -/
inductive Narrow where
  | byte
  | word
  | dword
  deriving DecidableEq, Repr

/-- Name of a width inside a mnemonic. -/
def Width.mnemonic : Width → String
  | .dword => "DWORD"
  | .qword => "QWORD"

/-- Name of a numeric type inside a mnemonic. -/
def Numeric.mnemonic : Numeric → String
  | .dword => "DWORD"
  | .qword => "QWORD"
  | .r32 => "R32"
  | .r64 => "R64"

/-- Name of a real type inside a mnemonic. -/
def RealType.mnemonic : RealType → String
  | .r32 => "R32"
  | .r64 => "R64"

/-- Name of a conversion inside a mnemonic. -/
def RealConversion.mnemonic : RealConversion → String
  | .r32ToR64 => "R32_R64"
  | .r64ToR32 => "R64_R32"
  | .toR32 => "R32"
  | .toR64 => "R64"

/-- Name of a conversion inside a mnemonic. -/
def IntConversion.mnemonic : IntConversion → String
  | .ptr => "PTR"
  | .r64 => "R64"

/-- Name of a cell inside a mnemonic. -/
def Cell.mnemonic : Cell → String
  | .ptr => "PTR"
  | .object => "OBJECT"
  | .byte => "BYTE"
  | .word => "WORD"
  | .dword => "DWORD"
  | .qword => "QWORD"

/-- Name of a part inside a mnemonic. -/
def Part.mnemonic : Part → String
  | .object => "OBJECT"
  | .byte => "BYTE"
  | .word => "WORD"
  | .dword => "DWORD"
  | .qword => "QWORD"

/-- Name of a source width inside a mnemonic. -/
def Narrow.mnemonic : Narrow → String
  | .byte => "BYTE"
  | .word => "WORD"
  | .dword => "DWORD"

/-! ## The opcodes -/

/-- The opcodes of the machine. -/
inductive Opcode where
  /-- Bitwise nor. -/
  | nor (width : Width)
  /-- Comparison of two slots; without a type it compares references. -/
  | cmp (type : Option Numeric)
  /-- Jump if the condition slot is zero. -/
  | jz
  /-- Jump if the condition slot is not zero. -/
  | jnz
  /-- Jump. -/
  | jmp
  /-- Jump through a table. -/
  | switch
  | add (type : Numeric)
  | sub (type : RealType)
  | mul (type : Numeric)
  | div (type : Numeric)
  | rem (type : Numeric)
  | shr (width : Width)
  | shl (width : Width)
  | fconv (conversion : RealConversion)
  | iconv (conversion : IntConversion)
  /-- Load through an address. -/
  | lind (cell : Cell)
  /-- Store through an address. -/
  | sind (cell : Cell)
  /-- Move the top of the stack to a register. -/
  | pop
  /-- Push a register. -/
  | pushr (part : Part)
  /-- Push an immediate. -/
  | pushi (width : Width)
  /-- Sign extension. -/
  | sx (source : Narrow)
  /-- Call of another function of the machine. -/
  | call
  | ret
  | nop
  /-- Entry of a protected region. -/
  | enter
  /-- Exit of a protected region. -/
  | leave
  /-- Call of a helper of the runtime. -/
  | vcall
  deriving DecidableEq, Repr

/-- How the operand behind an opcode is stored. -/
inductive OperandKind where
  | none
  | register
  | dword
  | qword
  deriving DecidableEq, Repr

/-- What an opcode does to control flow. -/
inductive Flow where
  /-- Goes on with the next instruction. -/
  | sequential
  /-- Jumps to a computed target. -/
  | jump
  /-- Jumps to a computed target or goes on. -/
  | conditionalJump
  /-- Jumps through a table or goes on. -/
  | switch
  /-- Calls another function and goes on when it returns. -/
  | call
  /-- Ends the function. -/
  | ret
  /-- Enters a protected region. -/
  | enter
  /-- Leaves a protected region. -/
  | leave
  /-- Hands over to a helper of the runtime. -/
  | helper
  deriving DecidableEq, Repr

/-- A coarse classification of opcodes. -/
inductive Category where
  | arithmetic
  | bitwise
  | comparison
  | conversion
  | memory
  | stack
  | controlFlow
  | misc
  deriving DecidableEq, Repr

/-- Number of operand bytes in the stream. -/
def OperandKind.size : OperandKind → Nat
  | .none => 0
  | .register => 1
  | .dword => 4
  | .qword => 8

/-- The word for an operand kind in messages. -/
def OperandKind.name : OperandKind → String
  | .none => "None"
  | .register => "Register"
  | .dword => "Dword"
  | .qword => "Qword"

/-- The word for a control flow effect. -/
def Flow.name : Flow → String
  | .sequential => "Sequential"
  | .jump => "Jump"
  | .conditionalJump => "ConditionalJump"
  | .switch => "Switch"
  | .call => "Call"
  | .ret => "Return"
  | .enter => "Try"
  | .leave => "Leave"
  | .helper => "VCall"

/-- The word for a category. -/
def Category.name : Category → String
  | .arithmetic => "Arithmetic"
  | .bitwise => "Bitwise"
  | .comparison => "Comparison"
  | .conversion => "Conversion"
  | .memory => "Memory"
  | .stack => "Stack"
  | .controlFlow => "ControlFlow"
  | .misc => "Misc"

namespace Opcode

/-- The name of an opcode. -/
def mnemonic : Opcode → String
  | nor width => "NOR_" ++ width.mnemonic
  | cmp .none => "CMP"
  | cmp (some type) => "CMP_" ++ type.mnemonic
  | jz => "JZ"
  | jnz => "JNZ"
  | jmp => "JMP"
  | switch => "SWT"
  | add type => "ADD_" ++ type.mnemonic
  | sub type => "SUB_" ++ type.mnemonic
  | mul type => "MUL_" ++ type.mnemonic
  | div type => "DIV_" ++ type.mnemonic
  | rem type => "REM_" ++ type.mnemonic
  | shr width => "SHR_" ++ width.mnemonic
  | shl width => "SHL_" ++ width.mnemonic
  | fconv conversion => "FCONV_" ++ conversion.mnemonic
  | iconv conversion => "ICONV_" ++ conversion.mnemonic
  | lind cell => "LIND_" ++ cell.mnemonic
  | sind cell => "SIND_" ++ cell.mnemonic
  | pop => "POP"
  | pushr part => "PUSHR_" ++ part.mnemonic
  | pushi width => "PUSHI_" ++ width.mnemonic
  | sx source => "SX_" ++ source.mnemonic
  | call => "CALL"
  | ret => "RET"
  | nop => "NOP"
  | enter => "TRY"
  | leave => "LEAVE"
  | vcall => "VCALL"

/-- The operand that follows an opcode. -/
def operandKind : Opcode → OperandKind
  | pop | pushr _ => .register
  | pushi .dword => .dword
  | pushi .qword => .qword
  | _ => .none

/-- The effect of an opcode on control flow. -/
def flow : Opcode → Flow
  | jmp => .jump
  | jz | jnz => .conditionalJump
  | switch => .switch
  | call => .call
  | ret => .ret
  | enter => .enter
  | leave => .leave
  | vcall => .helper
  | _ => .sequential

/-- The number of slots an opcode always pops.  Calls, entries of protected regions and helper
calls pop further slots that depend on data. -/
def pops : Opcode → Nat
  | nor _ | cmp _ | jz | jnz | switch | add _ | sub _ | mul _ | div _ | rem _ | shr _ | shl _
  | sind _ => 2
  | jmp | fconv _ | iconv _ | lind _ | pop | sx _ | call | ret | enter | leave | vcall => 1
  | pushr _ | pushi _ | nop => 0

/-- The number of slots an opcode always pushes. -/
def pushes : Opcode → Nat
  | nor _ | add _ | sub _ | mul _ | div _ | rem _ | shr _ | shl _ | fconv _ | iconv _ | lind _
  | pushr _ | pushi _ | sx _ => 1
  | cmp _ | jz | jnz | jmp | switch | sind _ | pop | call | ret | nop | enter | leave | vcall => 0

/-- Whether an opcode writes the flags register. -/
def writesFlags : Opcode → Bool
  | nor _ | cmp _ | add _ | sub _ | mul _ | div _ | rem _ | shr _ | shl _ | fconv _
  | iconv _ => true
  | _ => false

/-- The class an opcode belongs to. -/
def category : Opcode → Category
  | nor _ | shr _ | shl _ => .bitwise
  | cmp _ => .comparison
  | jz | jnz | jmp | switch | call | ret | enter | leave => .controlFlow
  | add _ | sub _ | mul _ | div _ | rem _ => .arithmetic
  | fconv _ | iconv _ | sx _ => .conversion
  | lind _ | sind _ => .memory
  | pop | pushr _ | pushi _ => .stack
  | nop | vcall => .misc

/-- The length of an instruction in the stream: the opcode byte, a filler byte, the operand. -/
def size (opcode : Opcode) : Nat := 2 + opcode.operandKind.size

/-- Whether the instruction leaves its path in every case, so that the next instruction in the
stream belongs to the path only if it is named as a target. -/
def endsPath (opcode : Opcode) : Bool :=
  match opcode.flow with
  | .jump | .conditionalJump | .switch | .ret => true
  | _ => false

/-- Whether the opcode pushes a register. -/
def readsRegister : Opcode → Bool
  | pushr _ => true
  | _ => false

/-- The opcodes in declaration order. -/
def all : List Opcode :=
  [nor .dword, nor .qword,
    cmp .none, cmp (some .dword), cmp (some .qword), cmp (some .r32), cmp (some .r64),
    jz, jnz, jmp, switch,
    add .dword, add .qword, add .r32, add .r64, sub .r32, sub .r64,
    mul .dword, mul .qword, mul .r32, mul .r64, div .dword, div .qword, div .r32, div .r64,
    rem .dword, rem .qword, rem .r32, rem .r64, shr .dword, shr .qword, shl .dword, shl .qword,
    fconv .r32ToR64, fconv .r64ToR32, fconv .toR32, fconv .toR64, iconv .ptr, iconv .r64,
    lind .ptr, lind .object, lind .byte, lind .word, lind .dword, lind .qword,
    sind .ptr, sind .object, sind .byte, sind .word, sind .dword, sind .qword,
    pop, pushr .object, pushr .byte, pushr .word, pushr .dword, pushr .qword,
    pushi .dword, pushi .qword, sx .byte, sx .word, sx .dword,
    call, ret, nop, enter, leave, vcall]

/-- Every opcode is listed. -/
theorem mem_all (opcode : Opcode) : opcode ∈ all := by
  rcases opcode with w | (_ | n) | _ | _ | _ | _ | n | r | n | n | n | w | w | c | c | c | c | _ |
    p | w | s | _ | _ | _ | _ | _ | _
  case cmp.some => cases n <;> decide
  case nor | shr | shl | pushi => cases w <;> decide
  case add | mul | div | rem => cases n <;> decide
  case sub => cases r <;> decide
  case fconv | iconv | lind | sind => cases c <;> decide
  case pushr => cases p <;> decide
  case sx => cases s <;> decide
  all_goals decide

/-- The opcodes in declaration order, with their words in messages. -/
instance : Enumeration Opcode where
  all := all
  mem_all := mem_all
  nodup_all := by decide
  kind := "opcode"
  spelling opcode := Text.camel opcode.mnemonic

/-- An instruction is at least two bytes long. -/
theorem two_le_size (opcode : Opcode) : 2 ≤ opcode.size := Nat.le_add_right 2 _

/-- An instruction is at most ten bytes long. -/
theorem size_le_ten (opcode : Opcode) : opcode.size ≤ 10 := by
  unfold size
  cases opcode.operandKind <;> decide

end Opcode

end KeyedVM
