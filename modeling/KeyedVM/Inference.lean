import KeyedVM.Inference.Run

set_option relaxedAutoImplicit false
set_option autoImplicit false

/-!
# Inference

The analysis of one function from its entry to the end, and what it has found.

## Main definitions

* `KeyedVM.Inference` — the instructions of a function, its blocks and regions, and how it
  returns;
* `KeyedVM.Inference.listing` — the instructions in text;
* `KeyedVM.Context.infer` — the analysis;
* `KeyedVM.Image.infer` — the analysis of the function with a given number.
-/

namespace KeyedVM

/-- What the analysis of a function has found. -/
structure Inference where
  exportId : ExportId
  entry : Offset
  /-- The instructions that can be reached, with their final states. -/
  findings : Findings
  /-- The offsets that start a block: the entry, targets of jumps and calls, handlers. -/
  headers : Std.ExtTreeSet Offset
  regions : RegionSet
  /-- The depth of the stack at the return, with the slot of the return address. -/
  returnDepth? : Option Nat
  /-- The key behind the return. -/
  exitKey? : Option Key
  /-- The targets of calls that are no exports. -/
  unknownCallees : Std.ExtTreeSet Offset
  /-- The exports whose exit keys were missing; paths end at calls of them. -/
  waitingFor : Std.ExtTreeSet ExportId
  iterations : Nat

namespace Inference

/-- The instructions in the order of offsets. -/
def toList (inference : Inference) : List Finding := inference.findings.toList.map (·.2)

/-- The instructions in text, with a line for the name of each block. -/
def listing (inference : Inference) : String :=
  s!"export {inference.exportId.toNat} @" ++ Text.hex 4 inference.entry.toNat ++ "\n"
    ++ String.join (inference.toList.map fun finding =>
      (if finding.offset ∈ inference.headers then
        "loc_" ++ Text.hex 4 finding.offset.toNat ++ ":\n" else "")
      ++ "    " ++ finding.text ++ "\n")

/-- What a settled run has found. -/
def ofRun (subject : Export) (run : Run) : Inference where
  exportId := subject.id
  entry := subject.offset
  findings := run.findings
  headers := run.headers
  regions := run.regions
  returnDepth? := run.returnDepth?
  exitKey? := run.exitKey?
  unknownCallees := run.unknownCallees
  waitingFor := run.waitingFor
  iterations := run.iterations

end Inference

namespace Context

/-- The key at the entry of the function. -/
def entryKey (context : Context) : Key :=
  context.subject.entryKey?.getD context.settings.defaultKey

/-- Reports something about the function as a whole. -/
def announce (context : Context) (log : Log) (notice : Notice) : Log :=
  log.push { severity := .info, topic := .inference, notice,
             exportId? := some context.subject.id }

/-- The run of an analysis from its seed until nothing changes. -/
def run (context : Context) (log : Log) : Except Aborted Run :=
  (Run.seed context.subject.offset context.entryKey log).settle context

/-- Analyses the function.  The reports are added to `log`, also if the analysis fails. -/
def infer (context : Context) (log : Log) : Log × Except Error Inference :=
  let subject := context.subject
  let log := context.announce log (.started subject.id subject.offset context.entryKey)
  match context.run log with
  | .error aborted => (aborted.log, .error aborted.error)
  | .ok run =>
    let inference := Inference.ofRun subject run
    let log := context.announce run.log
      (.finished subject.id inference.findings.size inference.headers.size inference.iterations)
    (log, .ok inference)

end Context

/-- Analyses the function with a given number. -/
def Image.infer (image : Image) (settings : Settings) (log : Log) (id : ExportId) :
    Log × Except Error Inference :=
  match image.exports.find id with
  | .error error => (log, .error error)
  | .ok subject => Context.infer { image, settings, subject } log

end KeyedVM
