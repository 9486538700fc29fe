import KeyedVM.ByteTable
import KeyedVM.Instruction
import KeyedVM.RollingKey

set_option relaxedAutoImplicit false
set_option autoImplicit false

/-!
# Decoding

An instruction is stored as its opcode byte, a filler byte and the bytes of its operand, all
masked with the rolling key.  Where an instruction starts and which key is in force there depends
on the path, so decoding takes both.

## Main definitions

* `KeyedVM.Cursor` — a place in the stream together with the key in force;
* `KeyedVM.Cursor.byte?`, `KeyedVM.Cursor.bytes?` — plain bytes at a cursor;
* `KeyedVM.decodeAt` — the instruction at a place, and the key behind it;
* `KeyedVM.sweep` — the instructions that follow each other from a place on.
-/

namespace KeyedVM

/-- A place in the stream together with the key in force there. -/
structure Cursor where
  position : Offset
  key : Key
  deriving DecidableEq, Repr

namespace Cursor

/-- The plain byte at a cursor, and the cursor behind it. -/
def byte? (blob : Blob) (cursor : Cursor) : Option (UInt8 × Cursor) :=
  blob.bytes[cursor.position.toNat]?.map fun stored =>
    let plain := RollingKey.mask cursor.key stored
    (plain, ⟨cursor.position + 1, RollingKey.next cursor.key plain⟩)

/-- The next `n` plain bytes at a cursor, and the cursor behind them. -/
def bytes? (blob : Blob) : Nat → Cursor → Option (List UInt8 × Cursor)
  | 0, cursor => some ([], cursor)
  | n + 1, cursor => do
    let (byte, cursor) ← cursor.byte? blob
    let (rest, cursor) ← bytes? blob n cursor
    return (byte :: rest, cursor)

end Cursor

/-- The operand of a given kind that is stored as the number `raw`. -/
def ByteTable.operand (table : ByteTable) (kind : OperandKind) (raw : Nat) :
    Except DecodeFault Operand :=
  match kind with
  | .none => .ok .none
  | .register =>
    match table.registers.entry? (UInt8.ofNat raw) with
    | some register => .ok (.register register)
    | none => .error (.unknownRegister (UInt8.ofNat raw))
  | .dword => .ok (.dword (UInt32.ofNat raw))
  | .qword => .ok (.qword (UInt64.ofNat raw))

/-- Decodes opcode, filler and operand at a cursor. -/
def ByteTable.decode (table : ByteTable) (blob : Blob) (cursor : Cursor) :
    Except DecodeFault (Opcode × Operand × Cursor) :=
  match cursor.byte? blob with
  | none => .error .noOpcode
  | some (byte, cursor) =>
    match table.opcodes.entry? byte with
    | none => .error (.unknownOpcode byte)
    | some opcode =>
      match cursor.byte? blob with
      | none => .error (.truncated opcode)
      | some (_, cursor) =>
        match cursor.bytes? blob opcode.operandKind.size with
        | none => .error (.truncatedOperand opcode)
        | some (bytes, cursor) =>
          (table.operand opcode.operandKind (LittleEndian.ofBytes bytes)).map fun operand =>
            (opcode, operand, cursor)

/-- The instruction at `position` under `key`, and the key behind it. -/
def decodeAt (table : ByteTable) (blob : Blob) (position : Offset) (key : Key) :
    Except Error (Instruction × Key) :=
  match table.decode blob ⟨position, key⟩ with
  | .ok (opcode, operand, cursor) => .ok (⟨position, opcode, operand⟩, cursor.key)
  | .error fault => .error (.decode position fault)

/-- A linear sweep over the stream. -/
structure Sweep where
  /-- Each instruction with the key in force at it and the key behind it. -/
  decoded : List (Instruction × Key × Key)
  /-- What stopped the sweep, if something did. -/
  error? : Option Error
  /-- Where the sweep ended. -/
  stop : Cursor

/-- Decodes at most `count` instructions, each where the one before it ends.  The sweep ends at
the end of the blob and at the first place that holds no instruction. -/
def sweep (table : ByteTable) (blob : Blob) : Nat → Cursor → Sweep
  | 0, cursor => ⟨[], none, cursor⟩
  | count + 1, cursor =>
    if blob.size ≤ cursor.position.toNat then ⟨[], none, cursor⟩
    else
      match decodeAt table blob cursor.position cursor.key with
      | .error error => ⟨[], some error, cursor⟩
      | .ok (instruction, key) =>
        let rest := sweep table blob count ⟨instruction.next, key⟩
        { rest with decoded := (instruction, cursor.key, key) :: rest.decoded }

end KeyedVM
