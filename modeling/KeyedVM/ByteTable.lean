import KeyedVM.ByteTable.Assignment
import KeyedVM.Flag
import KeyedVM.Helper

set_option relaxedAutoImplicit false
set_option autoImplicit false

/-!
# Byte tables

The byte table of a protected program says which byte stands for which opcode, register, flag,
helper, call flavour and handler kind, and holds two constants of its runtime.  It is drafted
from what was recovered and then validated; a validated table is complete and one to one in each
of its six parts.

## Main definitions

* `KeyedVM.ByteTable` — a validated table, with the look-ups of raw bytes and numbers;
* `KeyedVM.ByteTable.Draft` — what was recovered;
* `KeyedVM.ByteTable.Draft.sequential` — every alphabet numbered in declaration order;
* `KeyedVM.ByteTable.Draft.validate` — from a draft to a table, or the first objection.

## Implementation notes

A table keeps the recovered pairs of each alphabet, in which its look-ups search.  The arrays that
answer the same look-ups in one step are those of `KeyedVM.ByteMap`.
-/

namespace KeyedVM

/-- The byte table of a protected program. -/
structure ByteTable where
  opcodes : Assignment Opcode
  registers : Assignment Register
  flags : Assignment Flag
  helpers : Assignment HelperCall
  flavours : Assignment CallFlavour
  handlers : Assignment HandlerKind
  /-- The export that initialises the runtime. -/
  initHelper : ExportId
  /-- The bit that marks signatures with a receiver. -/
  instanceMask : UInt8

namespace ByteTable

/-- The helper with a given number. -/
def helper? (table : ByteTable) (id : UInt64) : Option HelperCall :=
  (byte? id).bind table.helpers.entry?

/-- The handler kind with a given number. -/
def handlerKind? (table : ByteTable) (id : UInt64) : Option HandlerKind :=
  (byte? id).bind table.handlers.entry?

/-- The eight masks of one bit. -/
def singleBits : List UInt8 := [0x01, 0x02, 0x04, 0x08, 0x10, 0x20, 0x40, 0x80]

/-- The canonical layout of a raw flags byte.  Each bit of the byte is looked up by itself; a
bit that is not the mask of a flag is dropped. -/
def canonicalFlags (table : ByteTable) (raw : UInt8) : UInt8 :=
  ((singleBits.filter fun mask => raw &&& mask != 0).filterMap table.flags.entry?).foldl
    (fun bits flag => bits ||| flag.bit) 0

/-! ## Drafts -/

/-- What was recovered of a byte table, in the order of recovery. -/
structure Draft where
  opcodes : List (UInt8 × Opcode) := []
  registers : List (UInt8 × Register) := []
  flags : List (UInt8 × Flag) := []
  helpers : List (UInt8 × HelperCall) := []
  flavours : List (UInt8 × CallFlavour) := []
  handlers : List (UInt8 × HandlerKind) := []
  initHelper? : Option ExportId := none
  instanceMask? : Option UInt8 := none

namespace Draft

/-- An alphabet numbered in declaration order. -/
def numbered (α : Type) [DecidableEq α] [Enumeration α] : List (UInt8 × α) :=
  (Enumeration.all : List α).map fun a => (UInt8.ofNat (Enumeration.ordinal a), a)

/-- The draft in which every alphabet is numbered in declaration order, the flags have their
canonical bits, the initialisation helper is export 0 and the instance bit is bit 0. -/
def sequential : Draft where
  opcodes := numbered Opcode
  registers := numbered Register
  flags := Flag.all.map fun flag => (flag.bit, flag)
  helpers := numbered HelperCall
  flavours := numbered CallFlavour
  handlers := numbered HandlerKind
  initHelper? := some 0
  instanceMask? := some 0x01

/-- Adds a byte of an opcode. -/
def addOpcode (draft : Draft) (byte : UInt8) (opcode : Opcode) : Draft :=
  { draft with opcodes := draft.opcodes ++ [(byte, opcode)] }

/-- Adds a byte of a register. -/
def addRegister (draft : Draft) (byte : UInt8) (register : Register) : Draft :=
  { draft with registers := draft.registers ++ [(byte, register)] }

/-- Adds a mask of a flag. -/
def addFlag (draft : Draft) (mask : UInt8) (flag : Flag) : Draft :=
  { draft with flags := draft.flags ++ [(mask, flag)] }

/-- Adds a number of a helper. -/
def addHelper (draft : Draft) (id : UInt8) (call : HelperCall) : Draft :=
  { draft with helpers := draft.helpers ++ [(id, call)] }

/-- Adds a selector of a call flavour. -/
def addFlavour (draft : Draft) (selector : UInt8) (flavour : CallFlavour) : Draft :=
  { draft with flavours := draft.flavours ++ [(selector, flavour)] }

/-- Adds a number of a handler kind. -/
def addHandler (draft : Draft) (id : UInt8) (kind : HandlerKind) : Draft :=
  { draft with handlers := draft.handlers ++ [(id, kind)] }

/-- Sets the export that initialises the runtime. -/
def setInitHelper (draft : Draft) (id : ExportId) : Draft :=
  { draft with initHelper? := some id }

/-- Sets the bit that marks signatures with a receiver. -/
def setInstanceMask (draft : Draft) (mask : UInt8) : Draft :=
  { draft with instanceMask? := some mask }

/-- Forgets every byte of an opcode. -/
def withoutOpcode (draft : Draft) (opcode : Opcode) : Draft :=
  { draft with opcodes := draft.opcodes.filter fun pair => pair.2 ≠ opcode }

/-- A constant that must have been recovered. -/
def require {α : Type} (constant? : Option α) (fault : TableFault) : Except Error α :=
  match constant? with
  | some constant => .ok constant
  | none => .error (.incompleteTable "constant" fault)

/-- Validates a draft.  The constants are looked at first, then the six assignments in the order
of the fields. -/
def validate (draft : Draft) : Except Error ByteTable := do
  let initHelper ← require draft.initHelper? .helperUnset
  let instanceMask ← require draft.instanceMask? .instanceUnset
  let opcodes ← Assignment.ofPairs draft.opcodes
  let registers ← Assignment.ofPairs draft.registers
  let flags ← Assignment.ofPairs draft.flags
  let helpers ← Assignment.ofPairs draft.helpers
  let flavours ← Assignment.ofPairs draft.flavours
  let handlers ← Assignment.ofPairs draft.handlers
  return { opcodes, registers, flags, helpers, flavours, handlers, initHelper, instanceMask }

end Draft

end ByteTable

end KeyedVM
