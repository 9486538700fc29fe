import KeyedVM.Diagnostic

set_option relaxedAutoImplicit false
set_option autoImplicit false

/-!
# Settings

What can be chosen about an analysis.

## Main definitions

* `KeyedVM.Settings` — the choices and their defaults;
* `KeyedVM.Settings.setRegister`, `unsetRegister`, `setExitKeyRounds` — changes to them.
-/

namespace KeyedVM

/-- What can be chosen about an analysis. -/
structure Settings where
  /-- The most iterations that the analysis of a function may take. -/
  maxIterations : Nat := 1000000
  /-- The most instructions that may take part in computing one value. -/
  maxClosure : Nat := 4096
  /-- The values that registers have at the entry of every function. -/
  initialRegisters : RegisterFile (Option UInt64) :=
    ((RegisterFile.fill none).set .bp (some 0)).set .sp (some 0)
  /-- The key at the entry of functions that have none of their own. -/
  defaultKey : Key := 0
  /-- The register that holds the exception when a handler starts. -/
  exceptionRegister : Register := .r0
  /-- The register that holds the result of a call. -/
  returnRegister : Register := .r0
  /-- Whether functions may be analysed at the same time. -/
  parallel : Bool := false
  /-- Whether the function that initialises the runtime is left out. -/
  skipInitHelper : Bool := true
  /-- The most rounds in which exit keys are learned. -/
  exitKeyRounds : Nat := 2
  /-- The least severity of reports that are kept. -/
  minSeverity : Severity := .info
  deriving DecidableEq

namespace Settings

/-- Gives a register a value at the entry of every function. -/
def setRegister (settings : Settings) (register : Register) (value : UInt64) : Settings :=
  { settings with initialRegisters := settings.initialRegisters.set register (some value) }

/-- Takes the entry value of a register away. -/
def unsetRegister (settings : Settings) (register : Register) : Settings :=
  { settings with initialRegisters := settings.initialRegisters.set register none }

/-- Sets the most rounds in which exit keys are learned; there is always one. -/
def setExitKeyRounds (settings : Settings) (rounds : Nat) : Settings :=
  { settings with exitKeyRounds := max rounds 1 }

end Settings

end KeyedVM
