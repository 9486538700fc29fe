import KeyedVM.Inference.Execution

set_option relaxedAutoImplicit false
set_option autoImplicit false

/-!
# Runs

The analysis of a function follows its paths with a worklist of states.  A state that arrives at a
new offset is stored and executed; at a known offset it is merged into the stored state, which is
executed again if it has grown.  When the worklist is empty every stored state is executed once
more, because a value may have been evaluated before all its producers were known; if that changes
a meaning, the new paths are followed in turn.  The analysis ends when nothing changes.

## Main definitions

* `KeyedVM.Run` — everything that is known at some point of an analysis;
* `KeyedVM.Aborted` — the end of an analysis that failed, with the reports made until then;
* `KeyedVM.Run.seed` — the start;
* `KeyedVM.Run.commit` — taking over the result of one execution;
* `KeyedVM.Run.step` — one state of the worklist;
* `KeyedVM.Run.revalidate` — one more execution of every stored state;
* `KeyedVM.Run.drain`, `KeyedVM.Run.settle` — the two nested loops.

Both loops are bounded by the iteration limit: every round spends at least one iteration.
-/

namespace KeyedVM

/-- Everything that is known at some point of an analysis. -/
structure Run where
  /-- The merged state at each offset that was reached. -/
  states : Std.ExtTreeMap Offset State := ∅
  findings : Findings := ∅
  /-- The states still to be looked at, first in, first out. -/
  queue : List State := []
  /-- The offsets that start a block. -/
  headers : Std.ExtTreeSet Offset := ∅
  regions : RegionSet := ∅
  /-- The depth of the stack at the first return. -/
  returnDepth? : Option Nat := none
  /-- The key at the first return. -/
  exitKey? : Option Key := none
  /-- The targets of calls that are no exports. -/
  unknownCallees : Std.ExtTreeSet Offset := ∅
  /-- The exports whose exit keys are missing. -/
  waitingFor : Std.ExtTreeSet ExportId := ∅
  iterations : Nat := 0
  log : Log := {}

/-- The end of an analysis that failed. -/
structure Aborted where
  error : Error
  log : Log

namespace Run

/-- Ends the analysis with an error. -/
def abort {α : Type} (run : Run) (error : Error) : Except Aborted α := .error ⟨error, run.log⟩

/-- The result of a step that may fail. -/
def attempt {α : Type} (run : Run) (result : Except Error α) : Except Aborted α :=
  match result with
  | .ok a => .ok a
  | .error error => run.abort error

/-- Reports something about an instruction of the function. -/
def report (context : Context) (run : Run) (severity : Severity) (offset : Offset)
    (notice : Notice) : Run :=
  { run with log := run.log.push {
      severity, topic := .inference, notice
      exportId? := some context.subject.id, offset? := some offset } }

/-- The start of an analysis: the entry, with nothing known but its key. -/
def seed (entry : Offset) (key : Key) (log : Log) : Run where
  queue := [.initial entry key]
  headers := Std.ExtTreeSet.ofList [entry]
  log := log

/-- Counts an iteration, if there is one left. -/
def tick (context : Context) (run : Run) : Except Aborted Run :=
  if run.iterations < context.settings.maxIterations then
    .ok { run with iterations := run.iterations + 1 }
  else run.abort (.iterationLimit context.settings.maxIterations)

/-- Takes over the depth of the stack at a return.  The first return counts; another depth is
reported. -/
def recordDepth (context : Context) (offset : Offset) (depth : Nat) (run : Run) : Run :=
  match run.returnDepth? with
  | none => { run with returnDepth? := some depth }
  | some known =>
    if known = depth then run
    else run.report context .warning offset (.returnDepth depth known)

/-- Takes over the key at a return.  The first return counts; another key is reported. -/
def recordExitKey (context : Context) (offset : Offset) (key : Key) (run : Run) : Run :=
  match run.exitKey? with
  | none => { run with exitKey? := some key }
  | some known =>
    if known = key then run
    else run.report context .warning offset (.returnKey key known)

/-- Takes over a return. -/
def recordReturn (context : Context) (offset : Offset) (return? : Option (Nat × Key))
    (run : Run) : Run :=
  match return? with
  | none => run
  | some (depth, key) =>
    (run.recordDepth context offset depth).recordExitKey context offset key

/-- Takes over the target of a call that is no export; each target is reported once. -/
def recordUnknownCallee (context : Context) (offset : Offset) (callee? : Option Offset)
    (run : Run) : Run :=
  match callee? with
  | none => run
  | some address =>
    if address ∈ run.unknownCallees then run
    else
      { run with unknownCallees := run.unknownCallees.insert address }.report context .warning
        offset (.unknownCallee address)

/-- Takes over an export whose exit key is missing; each export is reported once. -/
def recordWaiting (context : Context) (offset : Offset) (callee? : Option ExportId)
    (run : Run) : Run :=
  match callee? with
  | none => run
  | some id =>
    if id ∈ run.waitingFor then run
    else
      { run with waitingFor := run.waitingFor.insert id }.report context .debug offset
        (.exitKeyUnknown id)

/-- Reports the targets of a jump if they are new. -/
def reportJump (context : Context) (finding : Finding) (known? : Option Finding)
    (run : Run) : Run :=
  match finding.meaning? with
  | some (.jump targets) =>
    if (known?.bind (·.meaning?)) = some (.jump targets) then run
    else run.report context .debug finding.offset (.resolved finding.opcode (.jump targets))
  | _ => run

/-- Takes over what an execution has led to. -/
def absorb (context : Context) (finding : Finding) (effects : Effects) (run : Run) : Run :=
  let run := run.reportJump context finding run.findings[finding.offset]?
  let run := { run with
    headers := run.headers.insertMany effects.headers
    regions := run.regions.insertMany effects.region?.toList }
  let run := run.recordReturn context finding.offset effects.return?
  let run := run.recordUnknownCallee context finding.offset effects.unknownCallee?
  let run := run.recordWaiting context finding.offset effects.waitingFor?
  { run with
    queue := run.queue ++ effects.successors
    findings := run.findings.insert finding.offset finding }

/-- Takes over the result of one execution.  An offset cannot hold two different
instructions. -/
def commit (context : Context) (finding : Finding) (effects : Effects) (run : Run) :
    Except Aborted Run :=
  match run.findings[finding.offset]? with
  | some known =>
    if known.opcode = finding.opcode ∧ known.operand = finding.operand then
      .ok (run.absorb context finding effects)
    else
      run.abort (.inconsistent finding.offset
        (.redecoded finding.opcode finding.operand known.opcode known.operand))
  | none => .ok (run.absorb context finding effects)

/-- Executes a state and takes over the result. -/
def visit (context : Context) (state : State) (run : Run) : Except Aborted Run := do
  let (finding, effects) ← run.attempt (context.execute run.findings state)
  run.commit context finding effects

/-- Lets a state arrive at its offset. -/
def arrive (context : Context) (incoming : State) (run : Run) : Except Aborted Run :=
  match run.states[incoming.ip]? with
  | none =>
    { run with states := run.states.insert incoming.ip incoming }.visit context incoming
  | some stored => do
    let merged ← run.attempt (stored.merge incoming)
    let run := { run with states := run.states.insert incoming.ip merged.state }
    let run :=
      if merged.keyDiverged then
        run.report context .warning incoming.ip (.keyDiverged incoming.key stored.key)
      else run
    if merged.changed then run.visit context merged.state else return run

/-- Looks at the first state of the worklist; none if the worklist is empty. -/
def step (context : Context) (run : Run) : Except Aborted (Option Run) :=
  match run.queue with
  | [] => .ok none
  | incoming :: rest => do
    let run ← { run with queue := rest }.tick context
    let run ← run.arrive context incoming
    return some run

/-- Executes the state stored at an offset once more; the result is taken over if it changes the
meaning.  The answer says whether it did. -/
def recheck (context : Context) (offset : Offset) (run : Run) : Except Aborted (Bool × Run) := do
  let run ← run.tick context
  match run.states[offset]? with
  | none => return (false, run)
  | some state =>
    let (finding, effects) ← run.attempt (context.execute run.findings state)
    let stale := (run.findings[offset]?.map (·.meaning?)) ≠ some finding.meaning?
    if stale then
      let run ← run.commit context finding effects
      return (true, run)
    else return (false, run)

/-- Rechecks offsets one after the other; the answer says whether a meaning has changed. -/
def recheckAll (context : Context) (changed : Bool) (run : Run) :
    List Offset → Except Aborted (Bool × Run)
  | [] => .ok (changed, run)
  | offset :: rest => do
    let (stale, run) ← run.recheck context offset
    recheckAll context (changed || stale) run rest

/-- Executes every stored state once more, in the order of offsets; the answer says whether a
meaning has changed. -/
def revalidate (context : Context) (run : Run) : Except Aborted (Bool × Run) :=
  run.recheckAll context false run.states.keys

/-- Works until the worklist is empty, for at most `rounds` steps. -/
def drainWithin (context : Context) : Nat → Run → Except Aborted Run
  | 0, run => run.abort (.iterationLimit context.settings.maxIterations)
  | rounds + 1, run => do
    match ← run.step context with
    | none => return run
    | some run => drainWithin context rounds run

/-- Works until the worklist is empty.  There are at most as many steps as iterations left, and
one more that finds the worklist empty. -/
def drain (context : Context) (run : Run) : Except Aborted Run :=
  run.drainWithin context (context.settings.maxIterations - run.iterations + 1)

/-- Works until nothing changes, for at most `rounds` revalidations. -/
def settleWithin (context : Context) : Nat → Run → Except Aborted Run
  | 0, run => run.abort (.iterationLimit context.settings.maxIterations)
  | rounds + 1, run => do
    let run ← run.drain context
    let (changed, run) ← run.revalidate context
    if changed then settleWithin context rounds run else return run

/-- Works until nothing changes.  A revalidation that changes something spends an iteration, so
there are at most as many of them as iterations, and one more that changes nothing. -/
def settle (context : Context) (run : Run) : Except Aborted Run :=
  run.settleWithin context (context.settings.maxIterations + 1)

end Run

end KeyedVM
