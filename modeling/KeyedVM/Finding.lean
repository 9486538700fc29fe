import KeyedVM.Meaning
import KeyedVM.Instruction
import KeyedVM.State
import Std.Data.ExtTreeMap

set_option relaxedAutoImplicit false
set_option autoImplicit false

/-!
# Findings

What the analysis knows about an instruction: the state before it, the values it consumes and
what its computed operands mean.

## Main definitions

* `KeyedVM.Finding` — an analysed instruction;
* `KeyedVM.Finding.endsPath` — no instruction follows on the same path;
* `KeyedVM.Findings` — findings by offset.
-/

namespace KeyedVM

/-- An analysed instruction. -/
structure Finding extends Instruction where
  /-- The state before the instruction. -/
  state : State
  /-- What the computed operands mean, once that is known. -/
  meaning? : Option Meaning := none
  /-- The values that are consumed: popped slots in the order of popping, or the register that
  is pushed. -/
  consumed : List Provenance := []
  deriving DecidableEq

namespace Finding

/-- An instruction about which nothing is known but the key in force. -/
def ofInstruction (instruction : Instruction) (key : Key) : Finding :=
  { instruction with state := .initial instruction.offset key }

/-- The possible targets of a jump; empty for other instructions. -/
def targets (finding : Finding) : List Offset :=
  (finding.meaning?.bind Meaning.targets?).getD []

/-- Whether no instruction follows on the same path: the opcode leaves its path, or the
instruction calls a helper that does not come back. -/
def endsPath (finding : Finding) : Bool :=
  finding.opcode.endsPath ||
    match finding.meaning? with
    | some (.helper call _ _) => call.endsPath
    | _ => false

/-- The line of a finding in a listing. -/
def text (finding : Finding) : String :=
  finding.toInstruction.text
    ++ (finding.meaning?.elim "" fun meaning => "  ; " ++ meaning.text)

end Finding

/-- Findings by offset. -/
abbrev Findings := Std.ExtTreeMap Offset Finding

end KeyedVM
