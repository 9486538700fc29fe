import KeyedVM.Meaning

set_option relaxedAutoImplicit false
set_option autoImplicit false

/-!
# Diagnostics

The analysis reports what is worth knowing and does not stop it: what it resolved, keys that
differ where paths meet, calls it cannot follow.  Reports below a threshold are not kept.

## Main definitions

* `KeyedVM.Severity`, `KeyedVM.Topic` — how grave a report is and what it is about;
* `KeyedVM.Notice` — what is reported, with `Notice.text` for the wording;
* `KeyedVM.Failure` — a function that could not be analysed;
* `KeyedVM.Diagnostic` — a report with its place, and `Diagnostic.text`;
* `KeyedVM.Log` — the reports in the order in which they came, with `Log.push`;
* `KeyedVM.Log.summary` — the counts, and every error and warning.
-/

namespace KeyedVM

open Text

/-- How grave a report is. -/
inductive Severity where
  | debug
  | info
  | warning
  | error
  deriving DecidableEq, Repr

namespace Severity

/-- The rank of a severity, from least to most grave. -/
def rank : Severity → Nat
  | debug => 0
  | info => 1
  | warning => 2
  | error => 3

/-- The name of a severity. -/
def name : Severity → String
  | debug => "DEBUG"
  | info => "INFO"
  | warning => "WARN"
  | error => "ERROR"

/-- The severities from least to most grave. -/
def all : List Severity := [debug, info, warning, error]

end Severity

/-- What a report is about. -/
inductive Topic where
  | decoder
  | inference
  | evaluator
  | graph
  | exports
  | general
  deriving DecidableEq, Repr

namespace Topic

/-- The name of a topic. -/
def name : Topic → String
  | decoder => "Decoder"
  | inference => "Inference"
  | evaluator => "Evaluator"
  | graph => "Graph"
  | exports => "Export"
  | general => "General"

/-- The topics in declaration order. -/
def all : List Topic := [decoder, inference, evaluator, graph, exports, general]

end Topic

/-- A function that could not be analysed, and why. -/
structure Failure where
  exportId : ExportId
  error : Error
  deriving DecidableEq, Repr

namespace Failure

/-- The instruction at which the analysis failed, if the cause names one. -/
def offset? (failure : Failure) : Option Offset := failure.error.offset?

/-- A failure in words. -/
def text (failure : Failure) : String :=
  s!"export {failure.exportId.toNat} failed"
    ++ (failure.offset?.elim "" fun offset => " at " ++ hex0x 8 offset.toNat)
    ++ ": " ++ failure.error.message

end Failure

/-- What is reported. -/
inductive Notice where
  /-- The analysis of a function begins. -/
  | started (exportId : ExportId) (entry : Offset) (key : Key)
  /-- The analysis of a function has come to its end. -/
  | finished (exportId : ExportId) (instructions blocks iterations : Nat)
  /-- A path arrives with another key than the stored one. -/
  | keyDiverged (incoming stored : Key)
  /-- The targets of a jump are known. -/
  | resolved (opcode : Opcode) (meaning : Meaning)
  /-- Two returns differ in the depth of the stack. -/
  | returnDepth (depth known : Nat)
  /-- Two returns differ in the key. -/
  | returnKey (key known : Key)
  /-- A call goes to code that is no export. -/
  | unknownCallee (address : Offset)
  /-- A path ends at a call, because the exit key of the callee is not known. -/
  | exitKeyUnknown (callee : ExportId)
  /-- The analysis of a program begins. -/
  | surveying (exports : Nat)
  /-- A round over the functions has found exit keys. -/
  | learned (round keys again : Nat)
  /-- The analysis of a function still waits for exit keys. -/
  | waiting (exportId : ExportId) (callees : List ExportId)
  /-- A function could not be analysed. -/
  | failed (failure : Failure)
  /-- The analysis of a program has come to its end; the time it took is given in words. -/
  | surveyed (exports failed skipped rounds : Nat) (elapsed : String)
  /-- Anything else. -/
  | note (text : String)
  deriving DecidableEq, Repr

/-- The wording of a report. -/
def Notice.text : Notice → String
  | .started exportId entry key =>
    s!"inferring export {exportId.toNat} from " ++ hex0x 8 entry.toNat ++ " with key "
      ++ hex0x 8 key.toNat
  | .finished exportId instructions blocks iterations =>
    s!"export {exportId.toNat} done: {instructions} instructions, {blocks} blocks, "
      ++ s!"{iterations} iterations"
  | .keyDiverged incoming stored =>
    "path arrives with key " ++ hex0x 8 incoming.toNat ++ ", keeping " ++ hex0x 8 stored.toNat
  | .resolved opcode meaning => opcode.mnemonic ++ " resolved " ++ meaning.text
  | .returnDepth depth known => s!"return with stack depth {depth}, keeping {known}"
  | .returnKey key known =>
    "return with exit key " ++ hex0x 8 key.toNat ++ ", keeping " ++ hex0x 8 known.toNat
  | .unknownCallee address =>
    "call target " ++ hex0x 8 address.toNat ++ " is not a known export"
  | .exitKeyUnknown callee =>
    s!"exit key of export {callee.toNat} unknown, path stops after the call"
  | .surveying exports => s!"devirtualizing {exports} exports"
  | .learned round keys again =>
    s!"round {round} learned {keys} exit keys, re-running {again} exports"
  | .waiting exportId callees =>
    s!"export {exportId.toNat} stops after calls, exit key of export "
      ++ commaSeparated (callees.map fun id => toString id.toNat) ++ " was unknown"
  | .failed failure => failure.text
  | .surveyed done lost skipped rounds elapsed =>
    s!"{done} exports devirtualized, {lost} failed, {skipped} skipped in {rounds} rounds ("
      ++ elapsed ++ ")"
  | .note text => text

/-- A report with its place. -/
structure Diagnostic where
  severity : Severity
  topic : Topic
  notice : Notice
  exportId? : Option ExportId := none
  offset? : Option Offset := none
  deriving DecidableEq, Repr

/-- The line of a report. -/
def Diagnostic.text (diagnostic : Diagnostic) : String :=
  "[" ++ diagnostic.severity.name ++ "] " ++ diagnostic.topic.name ++ ": "
    ++ diagnostic.notice.text
    ++ (diagnostic.exportId?.elim "" fun id => s!" (export: {id.toNat})")
    ++ (diagnostic.offset?.elim "" fun offset => " (offset: " ++ hex0x 8 offset.toNat ++ ")")

/-- The reports in the order in which they came. -/
structure Log where
  /-- The least severity that is kept. -/
  threshold : Severity := .debug
  entries : Array Diagnostic := #[]
  deriving DecidableEq

namespace Log

/-- The empty log that keeps reports from a severity on. -/
def withThreshold (threshold : Severity) : Log := { threshold }

/-- Whether reports of a severity are kept. -/
def enabled (log : Log) (severity : Severity) : Bool := log.threshold.rank ≤ severity.rank

/-- Adds a report, unless it is below the threshold. -/
def push (log : Log) (diagnostic : Diagnostic) : Log :=
  if log.enabled diagnostic.severity then
    { log with entries := log.entries.push diagnostic }
  else log

/-- Number of reports. -/
def size (log : Log) : Nat := log.entries.size

/-- The reports that pass a test, in order. -/
def select (log : Log) (p : Diagnostic → Bool) : List Diagnostic := log.entries.toList.filter p

/-- The reports of a severity. -/
def ofSeverity (log : Log) (severity : Severity) : List Diagnostic :=
  log.select fun diagnostic => diagnostic.severity = severity

/-- The reports on a topic. -/
def ofTopic (log : Log) (topic : Topic) : List Diagnostic :=
  log.select fun diagnostic => diagnostic.topic = topic

/-- The reports about a function. -/
def ofExport (log : Log) (id : ExportId) : List Diagnostic :=
  log.select fun diagnostic => diagnostic.exportId? = some id

/-- Number of reports of a severity. -/
def count (log : Log) (severity : Severity) : Nat := (log.ofSeverity severity).length

/-- A headed list of reports; nothing at all if there are none. -/
def headed (title : String) (diagnostics : List Diagnostic) : String :=
  if diagnostics.isEmpty then ""
  else "\n" ++ title ++ ":\n"
    ++ String.join (diagnostics.map fun diagnostic => "  " ++ diagnostic.text ++ "\n")

/-- The counts, then the errors, then the warnings. -/
def summary (log : Log) : String :=
  s!"Diagnostics: {log.count .error} error(s), {log.count .warning} warning(s), "
    ++ s!"{log.count .info} info(s), {log.count .debug} debug\n"
    ++ headed "Errors" (log.ofSeverity .error)
    ++ headed "Warnings" (log.ofSeverity .warning)

end Log

end KeyedVM
