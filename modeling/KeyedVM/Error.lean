import KeyedVM.Operand
import KeyedVM.Reference
import KeyedVM.Region

set_option relaxedAutoImplicit false
set_option autoImplicit false

/-!
# Errors

Everything that can go wrong, as causes.  A cause says what was found; the wording is produced
from it in one place.  Most errors concern the function that is being analysed and leave the
others alone.  Two kinds are fatal, because they mean that the byte table or the keys are wrong
for the whole program.

## Main definitions

* `KeyedVM.Error` — the errors, with the causes `EncodingFault`, `TableFault`, `DecodeFault`,
  `ResolveFault`, `ConsistencyFault` and `GraphFault`;
* `KeyedVM.Error.message` — the text of an error;
* `KeyedVM.Error.isFatal` — whether an error ends the analysis of the whole program;
* `KeyedVM.Error.offset?` — the instruction that an error is about.

Every family of causes has a constructor `note` for a cause that is given in words.
-/

namespace KeyedVM

open Text

/-! ## Causes -/

/-- Why an instruction cannot be encoded. -/
inductive EncodingFault where
  /-- The operand is not of the kind that the opcode takes. -/
  | operandMismatch (opcode : Opcode) (operand : Operand)
  | note (text : String)
  deriving DecidableEq, Repr

/-- Why a byte assignment is refused. -/
inductive TableFault where
  /-- The export number of the initialisation helper is missing. -/
  | helperUnset
  /-- The mask of instance signatures is missing. -/
  | instanceUnset
  /-- A byte stands for two entries. -/
  | sharedByte (byte : UInt8) (existing entry : String)
  /-- An entry has two bytes. -/
  | twoBytes (entry : String) (previous byte : UInt8)
  /-- Entries without a byte. -/
  | missing (entries : List String)
  | note (text : String)
  deriving DecidableEq, Repr

/-- Why the bytes at a position are no instruction. -/
inductive DecodeFault where
  | noOpcode
  | unknownOpcode (byte : UInt8)
  | truncated (opcode : Opcode)
  | truncatedOperand (opcode : Opcode)
  | unknownRegister (byte : UInt8)
  | note (text : String)
  deriving DecidableEq, Repr

/-- Why a value on the stack cannot be reduced to a number. -/
inductive ResolveFault where
  /-- A register is read that nobody wrote and that has no entry value. -/
  | unsetRegister (opcode : Opcode) (offset : Offset) (register : Register)
  | chainUnderflow
  | noRegister (opcode : Opcode)
  | noImmediate
  | unsupportedInChain (opcode : Opcode)
  | noProvenance
  /-- Several numbers are possible where one is needed. -/
  | ambiguous (role : String) (candidates : Nat)
  | noValue
  | closureLimit (limit : Nat)
  | neverDecoded (offset : Offset)
  | unsupported (opcode : Opcode) (offset : Offset)
  | unknownOrigin (opcode : Opcode) (offset : Offset)
  | manySources (opcode : Opcode) (offset : Offset) (sources : Nat)
  | switchOutside (address : Offset)
  | switchAddress (address : Offset)
  | switchArm (arm : Nat)
  | unknownHandlerKind (raw : UInt64)
  | caughtTypeRange (raw : UInt64)
  | unknownHelper (raw : UInt64)
  | unknownFlavour (selector : UInt8)
  | notAMethod (reference : Reference)
  | referenceRange (raw : UInt64)
  | note (text : String)
  deriving DecidableEq, Repr

/-- How two views of the same place contradict each other. -/
inductive ConsistencyFault where
  | regionMismatch (stored incoming : Nat)
  | depthMismatch (stored incoming : Nat)
  /-- An offset was decoded a second time with another result. -/
  | redecoded (opcode : Opcode) (operand : Operand) (known : Opcode) (knownOperand : Operand)
  | wrongHandler (handler : Offset) (region : Region)
  | noRegion
  | note (text : String)
  deriving DecidableEq, Repr

/-- The role of an offset that should start a block. -/
inductive TargetRole where
  | jumpTarget
  | handler
  deriving DecidableEq, Repr

/-- Why no control flow graph can be built. -/
inductive GraphFault where
  | noInstructions (exportId : ExportId)
  | entryNotDecoded (entry : Offset) (exportId : ExportId)
  | notABlock (role : TargetRole) (offset : Offset) (exportId : ExportId)
  | openerNotDecoded (offset : Offset) (exportId : ExportId)
  | missingNode (source target : Nat)
  | note (text : String)
  deriving DecidableEq, Repr

/-! ## Wording of the causes -/

/-- The word for the role of an offset. -/
def TargetRole.name : TargetRole → String
  | .jumpTarget => "jump target"
  | .handler => "handler"

/-- The wording of a cause. -/
def EncodingFault.text : EncodingFault → String
  | .operandMismatch opcode operand =>
    opcode.mnemonic ++ " expects a " ++ opcode.operandKind.name ++ " operand, got "
      ++ operand.describe
  | .note text => text

/-- The wording of a cause. -/
def TableFault.text : TableFault → String
  | .helperUnset => "helper-init export id is not set"
  | .instanceUnset => "instance flag mask is not set"
  | .sharedByte byte existing entry =>
    "byte " ++ hex0x 2 byte.toNat ++ " maps to both " ++ existing ++ " and " ++ entry
  | .twoBytes entry previous byte =>
    entry ++ " is mapped by both " ++ hex0x 2 previous.toNat ++ " and " ++ hex0x 2 byte.toNat
  | .missing entries => "missing mapping for " ++ commaSeparated entries
  | .note text => text

/-- The wording of a cause. -/
def DecodeFault.text : DecodeFault → String
  | .noOpcode => "stream ends before the opcode"
  | .unknownOpcode byte => "unknown opcode byte " ++ hex0x 2 byte.toNat
  | .truncated opcode => "stream ends inside " ++ opcode.mnemonic
  | .truncatedOperand opcode => "stream ends inside the operand of " ++ opcode.mnemonic
  | .unknownRegister byte => "unknown register byte " ++ hex0x 2 byte.toNat
  | .note text => text

/-- The wording of a cause. -/
def ResolveFault.text : ResolveFault → String
  | .unsetRegister opcode offset register =>
    opcode.mnemonic ++ " at " ++ hex0x 8 offset.toNat ++ " reads " ++ register.name
      ++ ", which has no known value"
  | .chainUnderflow => "dependency chain underflows its stack"
  | .noRegister opcode => opcode.mnemonic ++ " without register"
  | .noImmediate => "push without immediate"
  | .unsupportedInChain opcode =>
    "unsupported pattern: " ++ opcode.mnemonic ++ " in dependency chain"
  | .noProvenance => "consumed value has no provenance"
  | .ambiguous role candidates => role ++ s!" has {candidates} candidate values"
  | .noValue => "dependency chain produces no value"
  | .closureLimit limit => s!"dependency closure exceeds {limit} instructions"
  | .neverDecoded offset => "dependency at " ++ hex0x 8 offset.toNat ++ " was never decoded"
  | .unsupported opcode offset =>
    "unsupported pattern: " ++ opcode.mnemonic ++ " at " ++ hex0x 8 offset.toNat
      ++ " in dependency chain"
  | .unknownOrigin opcode offset =>
    opcode.mnemonic ++ " at " ++ hex0x 8 offset.toNat ++ " consumes a value of unknown origin"
  | .manySources opcode offset sources =>
    opcode.mnemonic ++ " at " ++ hex0x 8 offset.toNat
      ++ s!" consumes a value with {sources} possible sources"
  | .switchOutside address => "switch table " ++ hex0x 8 address.toNat ++ " is outside the blob"
  | .switchAddress address => "switch table address " ++ hex0x 1 address.toNat
  | .switchArm arm => s!"switch arm {arm} points before the blob"
  | .unknownHandlerKind raw => "unknown exception handler type " ++ hex0x 1 raw.toNat
  | .caughtTypeRange raw => "catch type " ++ hex0x 1 raw.toNat ++ " exceeds 32 bits"
  | .unknownHelper raw => "unknown vcall id " ++ hex0x 1 raw.toNat
  | .unknownFlavour selector => s!"unknown ecall selector {selector.toNat}"
  | .notAMethod reference => "ecall target " ++ reference.text ++ " is not a method"
  | .referenceRange raw => "reference id " ++ hex0x 1 raw.toNat ++ " exceeds 32 bits"
  | .note text => text

/-- The wording of a cause. -/
def ConsistencyFault.text : ConsistencyFault → String
  | .regionMismatch stored incoming =>
    s!"exception handler stack mismatch: {stored} vs {incoming} frames"
  | .depthMismatch stored incoming => s!"stack depth mismatch: {stored} vs {incoming}"
  | .redecoded opcode operand known knownOperand =>
    "instruction re-decoded as " ++ opcode.mnemonic ++ " " ++ operand.text ++ " instead of "
      ++ known.mnemonic ++ " " ++ knownOperand.text
  | .wrongHandler handler region =>
    "LEAVE for handler " ++ hex0x 8 handler.toNat ++ " inside " ++ region.text
  | .noRegion => "LEAVE outside of any protected region"
  | .note text => text

/-- The wording of a cause. -/
def GraphFault.text : GraphFault → String
  | .noInstructions exportId => s!"export {exportId.toNat} has no instructions"
  | .entryNotDecoded entry exportId =>
    "entry " ++ hex0x 8 entry.toNat ++ s!" of export {exportId.toNat} was not decoded"
  | .notABlock role offset exportId =>
    role.name ++ " " ++ hex0x 8 offset.toNat
      ++ s!" of export {exportId.toNat} does not start a block"
  | .openerNotDecoded offset exportId =>
    "TRY at " ++ hex0x 8 offset.toNat ++ s!" of export {exportId.toNat} was not decoded"
  | .missingNode source target => s!"edge n{source} -> n{target} references a missing node"
  | .note text => text

/-! ## Errors -/

/-- The place in a text file that a message about malformed input points to. -/
structure Site where
  file : String
  line : Nat
  deriving DecidableEq, Repr

/-- Everything that can go wrong. -/
inductive Error where
  /-- Input that cannot be encoded. -/
  | malformed (site : Option Site) (fault : EncodingFault)
  /-- A read beyond the end of the bytes. -/
  | outOfBounds
  /-- A file that cannot be read. -/
  | file (text : String)
  /-- Anything else. -/
  | other (text : String)
  /-- A byte assignment that is not one to one and complete. -/
  | incompleteTable (kind : String) (fault : TableFault)
  /-- Bytes that are no instruction. -/
  | decode (offset : Offset) (fault : DecodeFault)
  /-- A computed operand that cannot be reduced to a number. -/
  | unresolvable (offset : Offset) (fault : ResolveFault)
  /-- A pop from an empty stack. -/
  | stackUnderflow (offset : Offset)
  /-- Two views of the same place that contradict each other. -/
  | inconsistent (offset : Offset) (fault : ConsistencyFault)
  /-- An analysis that takes more iterations than it is given. -/
  | iterationLimit (limit : Nat)
  | referenceNotFound (id : ReferenceId) (offset : Offset)
  | exportNotFound (id : ExportId)
  /-- A control flow graph that cannot be built. -/
  | graph (fault : GraphFault)
  deriving DecidableEq, Repr

namespace Error

/-- The wording of the cause, without the words that introduce the kind of error. -/
def detail : Error → String
  | malformed _ fault => fault.text
  | outOfBounds => "Out of Bound read would have occurred!"
  | file text | other text => text
  | incompleteTable _ fault => fault.text
  | decode _ fault => fault.text
  | unresolvable _ fault => fault.text
  | stackUnderflow offset => "Stack underflow at " ++ hex0x 8 offset.toNat
  | inconsistent _ fault => fault.text
  | iterationLimit limit => s!"Reached the maximum number of inference iterations - {limit}"
  | referenceNotFound id offset =>
    "Reference " ++ hex0x 8 id.toNat ++ " used at " ++ hex0x 8 offset.toNat ++ " not found"
  | exportNotFound id => s!"Export {id.toNat} not found"
  | graph fault => fault.text

/-- The text of an error. -/
def message (error : Error) : String :=
  match error with
  | malformed (some site) _ => s!"Malformed - {site.file}:{site.line}: " ++ error.detail
  | malformed none _ => "Malformed - " ++ error.detail
  | incompleteTable kind _ => "Incomplete opcode table - " ++ kind ++ ": " ++ error.detail
  | decode offset _ => "Decode error at " ++ hex0x 8 offset.toNat ++ ": " ++ error.detail
  | unresolvable offset _ =>
    "Unresolvable operand at " ++ hex0x 8 offset.toNat ++ ": " ++ error.detail
  | inconsistent offset _ =>
    "State consistency violation at " ++ hex0x 8 offset.toNat ++ ": " ++ error.detail
  | outOfBounds | file _ | other _ | stackUnderflow _ | iterationLimit _ | referenceNotFound _ _
  | exportNotFound _ | graph _ => error.detail

/-- Whether an error says that the byte table or the keys are wrong for the whole program. -/
def isFatal : Error → Bool
  | inconsistent _ _ | incompleteTable _ _ => true
  | _ => false

/-- The instruction that an error is about. -/
def offset? : Error → Option Offset
  | decode offset _ | unresolvable offset _ | stackUnderflow offset | inconsistent offset _
  | referenceNotFound _ offset => some offset
  | malformed _ _ | outOfBounds | file _ | other _ | incompleteTable _ _ | iterationLimit _
  | exportNotFound _ | graph _ => none

end Error

end KeyedVM
