import KeyedVM.ControlFlow.Graph

set_option relaxedAutoImplicit false
set_option autoImplicit false

/-!
# Surveys

The analysis of all functions of a program.  A function that cannot be analysed does not keep the
others from it; only fatal errors end the survey.  A path ends at a call whose callee has no known
exit key.  After each round the exit keys that were found are recorded, and the functions that
wait for one of them, as well as those that failed, are analysed again.

## Main definitions

* `KeyedVM.Survey` — the program with the exit keys found so far, and the reports made so far;
* `KeyedVM.Recovered` — an analysed function with its graph;
* `KeyedVM.Report` — the outcome of a survey;
* `KeyedVM.Survey.recover` — the analysis of one function;
* `KeyedVM.Survey.round` — one round;
* `KeyedVM.Survey.run` — the survey.
-/

namespace KeyedVM

/-- A program under analysis. -/
structure Survey where
  image : Image
  settings : Settings
  log : Log

/-- An analysed function with its graph. -/
structure Recovered where
  inference : Inference
  graph : ControlFlowGraph

/-- The outcome of a survey. -/
structure Report where
  exports : Std.ExtTreeMap ExportId Recovered := ∅
  failures : Std.ExtTreeMap ExportId Failure := ∅
  /-- The functions that were left out. -/
  skipped : List ExportId := []
  rounds : Nat := 0

namespace Report

/-- Whether no function has failed. -/
def isComplete (report : Report) : Bool := report.failures.isEmpty

/-- The outcome as a notice; the time that was taken is given in words. -/
def notice (report : Report) (elapsed : String) : Notice :=
  .surveyed report.exports.size report.failures.size report.skipped.length report.rounds elapsed

/-- The outcome in one line. -/
def summary (report : Report) (elapsed : String) : String := (report.notice elapsed).text

/-- Adds an analysed function with its graph; a function without a graph is a failure. -/
def add (report : Report) (id : ExportId) (inference : Inference) : Report :=
  match inference.graph with
  | .ok graph => { report with exports := report.exports.insert id { inference, graph } }
  | .error error => { report with failures := report.failures.insert id ⟨id, error⟩ }

end Report

/-- What the rounds of a survey have found so far. -/
structure Progress where
  results : Std.ExtTreeMap ExportId Inference := ∅
  failures : Std.ExtTreeMap ExportId Failure := ∅

namespace Progress

/-- Takes over the outcome of one analysis.  A later outcome takes the place of an earlier
one. -/
def record (progress : Progress) (id : ExportId) :
    Except Error Inference → Except Error Progress
  | .ok inference =>
    .ok {
      results := progress.results.insert id inference
      failures := progress.failures.erase id }
  | .error error =>
    if error.isFatal then .error error
    else
      .ok {
        results := progress.results.erase id
        failures := progress.failures.insert id ⟨id, error⟩ }

/-- Takes over outcomes one after the other, up to the first fatal error. -/
def recordAll (progress : Progress) :
    List (ExportId × Except Error Inference) → Except Error Progress
  | [] => .ok progress
  | (id, outcome) :: rest => do
    let progress ← progress.record id outcome
    recordAll progress rest

/-- The functions to be analysed again: those that wait for a key that was learned, and those
that failed. -/
def again (progress : Progress) (learned : Std.ExtTreeSet ExportId) : List ExportId :=
  let waiting := progress.results.toList.filter fun (_, inference) =>
    inference.waitingFor.toList.any learned.contains
  (Std.ExtTreeSet.ofList (waiting.map (·.1) ++ progress.failures.keys)).toList

end Progress

namespace Survey

/-- A survey before its start. -/
def start (image : Image) (settings : Settings) : Survey :=
  { image, settings, log := .withThreshold settings.minSeverity }

/-- Adds a report. -/
def report (survey : Survey) (diagnostic : Diagnostic) : Survey :=
  { survey with log := survey.log.push diagnostic }

/-- Analyses one function with the exit keys known so far. -/
def infer (survey : Survey) (id : ExportId) : Survey × Except Error Inference :=
  let (log, outcome) := survey.image.infer survey.settings survey.log id
  ({ survey with log }, outcome)

/-- Analyses one function and builds its graph. -/
def recover (survey : Survey) (id : ExportId) : Survey × Except Error Recovered :=
  let (survey, outcome) := survey.infer id
  (survey, do
    let inference ← outcome
    let graph ← inference.graph
    return { inference, graph })

/-- Analyses functions one after the other, all with the same exit keys. -/
def inferAll (survey : Survey) : List ExportId → Survey × List (ExportId × Except Error Inference)
  | [] => (survey, [])
  | id :: rest =>
    let (survey, outcome) := survey.infer id
    let (survey, outcomes) := inferAll survey rest
    (survey, (id, outcome) :: outcomes)

/-- Records the exit key with which a function was found to return; the answer says whether the
table held another one or none. -/
def learnKey (exports : ExportTable) (id : ExportId) (key : Key) :
    Except Error (ExportTable × Bool) := do
  let item ← exports.find id
  if item.exitKey? = some key then return (exports, false)
  else
    let exports ← exports.setExitKey id key
    return (exports, true)

/-- Records the exit keys of functions; the answer lists those whose key has changed. -/
def learn (exports : ExportTable) : List (ExportId × Inference) →
    ExportTable × Except Error (Std.ExtTreeSet ExportId)
  | [] => (exports, .ok ∅)
  | (id, inference) :: rest =>
    match inference.exitKey? with
    | none => learn exports rest
    | some key =>
      match learnKey exports id key with
      | .error error => (exports, .error error)
      | .ok (exports, changed) =>
        let (exports, learned) := learn exports rest
        (exports, learned.map fun ids => if changed then ids.insert id else ids)

/-- Records the exit keys that were found. -/
def learnExitKeys (survey : Survey) (progress : Progress) :
    Survey × Except Error (Std.ExtTreeSet ExportId) :=
  let (exports, learned) := learn survey.image.exports progress.results.toList
  ({ survey with image := { survey.image with exports } }, learned)

/-- One round: the functions `pending` are analysed, then the exit keys that were found are
recorded.  The answer lists the functions whose key has changed. -/
def round (survey : Survey) (progress : Progress) (pending : List ExportId) :
    Survey × Except Error (Progress × Std.ExtTreeSet ExportId) :=
  let (survey, outcomes) := survey.inferAll pending
  match progress.recordAll outcomes with
  | .error error => (survey, .error error)
  | .ok progress =>
    let (survey, learned) := survey.learnExitKeys progress
    (survey, learned.map (progress, ·))

/-- The rounds of a survey over the functions `pending`, of which `left` more may follow the next
one and `done` have gone before.  The answer says how many rounds there were. -/
def rounds (survey : Survey) (progress : Progress) (left done : Nat) (pending : List ExportId) :
    Survey × Except Error (Progress × Nat) :=
  if pending.isEmpty then (survey, .ok (progress, done))
  else
    match survey.round progress pending with
    | (survey, .error error) => (survey, .error error)
    | (survey, .ok (progress, learned)) =>
      if learned.isEmpty then (survey, .ok (progress, done + 1))
      else
        match left with
        | 0 => (survey, .ok (progress, done + 1))
        | left + 1 =>
          let pending := progress.again learned
          let survey := survey.report {
            severity := .debug, topic := .exports
            notice := .learned (done + 1) learned.size pending.length }
          rounds survey progress left (done + 1) pending

/-- Reports the functions that still wait for exit keys. -/
def reportWaiting (survey : Survey) (progress : Progress) : Survey :=
  progress.results.toList.foldl (fun survey (id, inference) =>
    if inference.waitingFor.isEmpty then survey
    else survey.report {
      severity := .warning, topic := .exports
      notice := .waiting id inference.waitingFor.toList
      exportId? := some id }) survey

/-- Builds the graphs of the analysed functions. -/
def buildGraphs (progress : Progress) (skipped : List ExportId) (rounds : Nat) : Report :=
  progress.results.toList.foldl (fun report (id, inference) => report.add id inference)
    { failures := progress.failures, skipped, rounds }

/-- Reports the functions that failed. -/
def reportFailures (survey : Survey) (report : Report) : Survey :=
  report.failures.toList.foldl (fun survey (id, failure) =>
    survey.report {
      severity := .error, topic := .exports, notice := .failed failure
      exportId? := some id, offset? := failure.offset? }) survey

/-- Whether a function is left out: the one that initialises the runtime may be. -/
def skips (survey : Survey) (item : Export) : Bool :=
  survey.settings.skipInitHelper && item.id = survey.image.table.initHelper

/-- Analyses all functions.  A fatal error is the only one that is handed on.  Since the survey
cannot measure time, the words for the time taken are given to it. -/
def run (survey : Survey) (elapsed : String) : Survey × Except Error Report :=
  let (skipped, pending) := survey.image.exports.toList.partition survey.skips
  let survey := survey.report {
    severity := .info, topic := .general, notice := .surveying pending.length }
  let left := survey.settings.exitKeyRounds - 1
  match survey.rounds {} left 0 (pending.map (·.id)) with
  | (survey, .error error) => (survey, .error error)
  | (survey, .ok (progress, rounds)) =>
    let survey := survey.reportWaiting progress
    let report := buildGraphs progress (skipped.map (·.id)) rounds
    let survey := survey.reportFailures report
    let survey := survey.report {
      severity := .info, topic := .general, notice := report.notice elapsed }
    (survey, .ok report)

end Survey

end KeyedVM
