import KeyedVM.ByteTable
import KeyedVM.RollingKey

set_option relaxedAutoImplicit false
set_option autoImplicit false

/-!
# The assembler

The assembler appends instructions to a stream, encoded with a byte table and masked with
the rolling key, and between them plain data such as switch tables.  It remembers the place and
the key at each label.

## Main definitions

* `KeyedVM.Labels` — the places and keys of labels;
* `KeyedVM.Assembler` — the stream so far, the key in force and the labels;
* `KeyedVM.Assembler.emit`, `label`, `raw`, `switchTable`, `padTo`, `setKey` — its operations;
* `KeyedVM.Assembler.Operation`, `KeyedVM.Assembler.perform` — the operations as data.
-/

namespace KeyedVM

/-- The place and the key at a label. -/
structure Mark where
  offset : Offset
  key : Key
  deriving DecidableEq, Repr

/-- The labels of a stream, latest first. -/
abbrev Labels := List (String × Mark)

namespace Labels

/-- The place of a label, zero if it is not known. -/
def offset (labels : Labels) (name : String) : Offset := (labels.lookup name).elim 0 (·.offset)

/-- The key at a label, zero if it is not known. -/
def key (labels : Labels) (name : String) : Key := (labels.lookup name).elim 0 (·.key)

end Labels

/-- The number that an operand is stored as. -/
def ByteTable.operandValue (table : ByteTable) : Operand → Nat
  | .none => 0
  | .register r => (table.registers.byteOf r).toNat
  | .dword value => value.toNat
  | .qword value => value.toNat

/-- The plain bytes of an instruction: its opcode byte, a zero, its operand. -/
def ByteTable.encode (table : ByteTable) (opcode : Opcode) (operand : Operand) : List UInt8 :=
  table.opcodes.byteOf opcode :: 0 ::
    LittleEndian.toBytes opcode.operandKind.size (table.operandValue operand)

/-- An unfinished stream. -/
structure Assembler where
  bytes : Array UInt8 := #[]
  /-- The key for the next masked byte. -/
  key : Key
  labels : Labels := []
  deriving DecidableEq

namespace Assembler

/-- The empty stream. -/
def start (key : Key) : Assembler := { key }

/-- Where the next byte goes. -/
def position (assembler : Assembler) : Offset := UInt64.ofNat assembler.bytes.size

/-- Replaces the key, for code that is not reached from the code before it. -/
def setKey (assembler : Assembler) (key : Key) : Assembler := { assembler with key }

/-- Remembers the place and the key under a name. -/
def label (assembler : Assembler) (name : String) : Assembler :=
  { assembler with labels := (name, ⟨assembler.position, assembler.key⟩) :: assembler.labels }

/-- Appends bytes in the clear; the key stays. -/
def raw (assembler : Assembler) (bytes : List UInt8) : Assembler :=
  { assembler with bytes := assembler.bytes ++ bytes }

/-- Appends an instruction.  Its operand must be of the kind that the opcode takes. -/
def emit (table : ByteTable) (assembler : Assembler) (opcode : Opcode) (operand : Operand) :
    Except Error Assembler :=
  if operand.kind = opcode.operandKind then
    let (stored, key) := RollingKey.encrypt assembler.key (table.encode opcode operand)
    .ok { assembler with bytes := assembler.bytes ++ stored, key }
  else .error (.malformed none (.operandMismatch opcode operand))

/-- The bytes of a switch table: the number of entries in two bytes, then each entry in four. -/
def switchBytes (entries : List Int32) : List UInt8 :=
  IntFormat.u16.encode entries.length ++ entries.flatMap fun entry =>
    IntFormat.i32.encode entry.toInt

/-- Fills with zeros up to an offset. -/
def padTo (assembler : Assembler) (offset : Offset) : Assembler :=
  assembler.raw (List.replicate (offset.toNat - assembler.bytes.size) 0)

/-! ## Operations as data -/

/-- An operation of the assembler. -/
inductive Operation where
  | emit (opcode : Opcode) (operand : Operand)
  | label (name : String)
  | setKey (key : Key)
  | raw (bytes : List UInt8)
  | switchTable (entries : List Int32)
  | padTo (offset : Offset)
  deriving DecidableEq

/-- Performs an operation.  The answer is the place of what was written or named, and for a
switch table the address of its first entry; operations that write nothing of their own give
none. -/
def perform (table : ByteTable) (assembler : Assembler) :
    Operation → Except Error (Option Offset × Assembler)
  | .emit opcode operand => do
    let after ← assembler.emit table opcode operand
    return (some assembler.position, after)
  | .label name => .ok (some assembler.position, assembler.label name)
  | .setKey key => .ok (none, assembler.setKey key)
  | .raw bytes => .ok (some assembler.position, assembler.raw bytes)
  | .switchTable entries =>
    .ok (some (assembler.position + 2), assembler.raw (switchBytes entries))
  | .padTo offset => .ok (none, assembler.padTo offset)

end Assembler

end KeyedVM
