import KeyedVM.Proofs.Assembler.SwitchTables
import KeyedVM.Proofs.ByteTable.Sequential
import KeyedVM.Proofs.Decoding.Overflow
import KeyedVM.Proofs.Inference.Runs

set_option relaxedAutoImplicit false
set_option autoImplicit false

/-!
# Analysis without overflow

An analysis computes with places in the code where it reads bytes, where it goes on behind an
instruction, and where it looks up the entries of a switch table.  Where it starts, where it jumps
to and where a switch table lies is up to the code, so all these places may be anything.  Still no
result leaves the range of machine words: a place is used in arithmetic only after something was
read there, and the code is addressable.

The analysis is done once more with an arithmetic that is given and may refuse to answer.  The
arithmetic that refuses whatever is no machine word never has to, and the analysis ends with the
same result, the same error and the same log.

## Main definitions

* `KeyedVM.Image.switchTargetsWith`, `KeyedVM.Context.executeWith` — one execution with a given
  arithmetic;
* `KeyedVM.Executor` — a way to execute states;
* `KeyedVM.Context.inferBy` — an analysis that executes states in a given way;
* `KeyedVM.Context.inferWith` — an analysis with a given arithmetic.

## Main results

* `KeyedVM.Image.switchTargetsWith_eq` — a switch table is read without overflow;
* `KeyedVM.Context.executeWith_eq` — so is every execution;
* `KeyedVM.Context.inferBy_eq` — an analysis asks for nothing but executions;
* `KeyedVM.Context.infer_exact` — the arithmetic of an analysis is exact.
-/

namespace KeyedVM

/-! ## Switch tables -/

/-- The targets that the switch table at `address` lists, with a given arithmetic. -/
def Image.switchTargetsWith (arith : Arithmetic) (image : Image) (offset address base : Offset) :
    Guarded Error (List Offset) :=
  if address < 2 then throw (.unresolvable offset (.switchAddress address))
  else do
    let outside : Error := .unresolvable offset (.switchOutside address)
    let count ← granted ((image.blob.read .u16 (address - 2)).mapError fun _ => outside)
    (List.range count.toNat).mapM fun arm => do
      let distance ← ExceptT.lift (arith.mul (UInt64.ofNat arm) 4)
      let place ← ExceptT.lift (arith.add address distance)
      let relative ← granted ((image.blob.read .i32 place).mapError fun _ => outside)
      let target : Int := base.toNat + relative
      if 0 ≤ target ∧ target < UInt64.size then return UInt64.ofNat target.toNat
      else throw (.unresolvable offset (.switchArm arm))

variable {arith : Arithmetic}

/-- **A switch table is read without overflow**, wherever it lies and however many entries it
counts.

**Proof sketch.** The first entry lies at the address itself.  An entry is looked up only if the one
before it was read, so that one lies inside the code, and the place behind it is a machine word. -/
theorem Image.switchTargetsWith_eq (harith : arith.IsExact) {image : Image}
    (hblob : image.blob.Addressable) (offset address base : Offset) :
    image.switchTargetsWith arith offset address base
      = granted (image.switchTargets offset address base) := by
  have hsize : image.blob.size < UInt64.size := hblob
  unfold switchTargetsWith switchTargets
  by_cases hlow : address < 2
  · rw [if_pos hlow, if_pos hlow]
    rfl
  · rw [if_neg hlow, if_neg hlow]
    refine bind_eq_granted rfl fun count _ => ?_
    rw [List.range_eq_range']
    -- the place of an entry is a machine word when the entry comes up
    apply mapM_eq_granted (p := fun arm => address.toNat + 4 * arm < UInt64.size)
    · intro arm harm
      have hdistance : (UInt64.ofNat arm * 4).toNat = 4 * arm := toNat_distance (by omega)
      have hmul : (UInt64.ofNat arm).toNat * (4 : UInt64).toNat < UInt64.size := by
        rw [UInt64.toNat_ofNat_of_lt' (by omega : arm < UInt64.size)]
        change arm * 4 < _
        omega
      rw [lift_bind_eq (harith.mul hmul), lift_bind_eq (harith.add (by rwa [hdistance]))]
      refine bind_eq_granted rfl fun relative _ => ?_
      exact ite_eq_granted (pure_eq_granted _) (throw_eq_granted _)
    · intro arm target harm hread
      obtain ⟨⟨hinside, -⟩, -⟩ := (switchArm_eq_ok_iff _ _ _ target).1 hread
      rw [toNat_entry harm] at hinside
      omega
    · exact address.toNat_lt

/-! ## Executions -/

namespace Context

/-- A switch goes to every entry of its table, and on; the table is read with a given arithmetic. -/
def switchWith (arith : Arithmetic) (image : Image) (evaluator : Evaluator) (transfer : Transfer) :
    Guarded Error Effects := do
  let (address, transfer) ← granted transfer.pop
  let (_, transfer) ← granted transfer.pop
  let address ← granted (evaluator.resolveSingle address transfer.offset "switch table")
  let next := transfer.post.ip
  let targets ← image.switchTargetsWith arith transfer.offset address next
  return branch transfer (targets ++ [next])

/-- Executes an instruction that has been decoded, with a given arithmetic.  Only the place behind
it and the entries of a switch table take some. -/
def transferWith (arith : Arithmetic) (context : Context) (findings : Findings)
    (instruction : Instruction) (state : State) (key : Key) : Guarded Error Effects := do
  let evaluator : Evaluator := ⟨findings, context.settings⟩
  let next ← ExceptT.lift (instruction.nextWith arith)
  let transfer : Transfer :=
    { offset := instruction.offset, post := { state with ip := next, key } }
  match instruction.flow with
  | .sequential => granted (sequential instruction transfer)
  | .jump => granted (jump evaluator transfer)
  | .conditionalJump => granted (conditionalJump evaluator transfer)
  | .switch => switchWith arith context.image evaluator transfer
  | .call => granted (context.call evaluator transfer)
  | .ret => granted (ret state transfer)
  | .enter => granted (context.enter evaluator transfer)
  | .leave => granted (leave evaluator transfer)
  | .helper => granted (helper context.image evaluator transfer)

/-- Decodes and executes the instruction at a state, with a given arithmetic. -/
def executeWith (arith : Arithmetic) (context : Context) (findings : Findings) (state : State) :
    Guarded Error (Finding × Effects) := do
  let (instruction, key) ←
    decodeAtWith arith context.image.table context.image.blob state.ip state.key
  let effects ← context.transferWith arith findings instruction state key
  let finding : Finding := {
    toInstruction := instruction
    state
    meaning? := effects.meaning?
    consumed := effects.consumed }
  return (finding, effects)

variable {context : Context}

/-- A switch stays within the machine words where the blob is addressable, under any exact
arithmetic. -/
lemma switchWith_eq (harith : arith.IsExact) {image : Image} (hblob : image.blob.Addressable)
    (evaluator : Evaluator) (transfer : Transfer) :
    switchWith arith image evaluator transfer = granted (switch image evaluator transfer) := by
  refine bind_eq_granted rfl fun address _ => ?_
  refine bind_eq_granted rfl fun selector _ => ?_
  refine bind_eq_granted rfl fun address _ => ?_
  refine bind_eq_granted (Image.switchTargetsWith_eq harith hblob _ _ _) fun targets _ => ?_
  exact pure_eq_granted _

/-- A decoded instruction is executed without overflow. -/
lemma transferWith_eq (harith : arith.IsExact) (hblob : context.image.blob.Addressable)
    (findings : Findings) {instruction : Instruction} {state : State} {key : Key}
    (hnext : instruction.nextWith arith = some instruction.next) :
    context.transferWith arith findings instruction state key
      = granted (context.transfer findings instruction state key) := by
  unfold transferWith transfer
  simp only [lift_bind_eq hnext]
  cases instruction.flow with
  | switch => exact switchWith_eq harith hblob _ _
  | sequential | jump | conditionalJump | call | ret | enter | leave | helper => rfl

/-- **Every execution is done without overflow**, of any state and on any findings. -/
theorem executeWith_eq (harith : arith.IsExact) (hblob : context.image.blob.Addressable)
    (findings : Findings) (state : State) :
    context.executeWith arith findings state = granted (context.execute findings state) := by
  refine bind_eq_granted (decodeAtWith_eq harith hblob _ _) fun (instruction, key) hdecode => ?_
  have hnext := nextWith_of_decodeAt harith hblob hdecode
  refine bind_eq_granted (transferWith_eq harith hblob findings hnext) fun effects _ => ?_
  exact pure_eq_granted _

end Context

/-! ## Whole analyses -/

/-- A way to execute states on what was found so far. -/
abbrev Executor := Findings → State → Guarded Error (Finding × Effects)

namespace Run

variable (executor : Executor) (context : Context)

/-- The result of a step that may fail or be refused. -/
def attemptBy {α : Type} (run : Run) (result : Guarded Error α) : Guarded Aborted α :=
  ExceptT.mk (result.run.map run.attempt)

/-- Executes a state and takes over the result. -/
def visitBy (state : State) (run : Run) : Guarded Aborted Run := do
  let (finding, effects) ← run.attemptBy (executor run.findings state)
  granted (run.commit context finding effects)

/-- Lets a state arrive at its offset. -/
def arriveBy (incoming : State) (run : Run) : Guarded Aborted Run :=
  match run.states[incoming.ip]? with
  | none =>
    { run with states := run.states.insert incoming.ip incoming }.visitBy executor context incoming
  | some stored => do
    let merged ← granted (run.attempt (stored.merge incoming))
    let run := run.joined context incoming merged
    if merged.changed then run.visitBy executor context merged.state else return run

/-- Looks at the first state of the worklist; none if the worklist is empty. -/
def stepBy (run : Run) : Guarded Aborted (Option Run) :=
  match run.queue with
  | [] => return none
  | incoming :: rest => do
    let run ← granted ({ run with queue := rest }.tick context)
    let run ← run.arriveBy executor context incoming
    return some run

/-- Executes the state stored at an offset once more. -/
def recheckBy (offset : Offset) (run : Run) : Guarded Aborted (Bool × Run) := do
  let run ← granted (run.tick context)
  match run.states[offset]? with
  | none => return (false, run)
  | some state =>
    let (finding, effects) ← run.attemptBy (executor run.findings state)
    if (run.findings[offset]?.map (·.meaning?)) ≠ some finding.meaning? then
      let run ← granted (run.commit context finding effects)
      return (true, run)
    else return (false, run)

/-- Rechecks offsets one after the other. -/
def recheckAllBy (changed : Bool) (run : Run) : List Offset → Guarded Aborted (Bool × Run)
  | [] => return (changed, run)
  | offset :: rest => do
    let (stale, run) ← run.recheckBy executor context offset
    recheckAllBy (changed || stale) run rest

/-- Works until the worklist is empty, for at most `rounds` steps. -/
def drainBy : Nat → Run → Guarded Aborted Run
  | 0, run => granted (run.abort (.iterationLimit context.settings.maxIterations))
  | rounds + 1, run => do
    match ← run.stepBy executor context with
    | none => return run
    | some run => drainBy rounds run

/-- Works until nothing changes, for at most `rounds` revalidations. -/
def settleBy : Nat → Run → Guarded Aborted Run
  | 0, run => granted (run.abort (.iterationLimit context.settings.maxIterations))
  | rounds + 1, run => do
    let run ← run.drainBy executor context
      (context.settings.maxIterations - run.iterations + 1)
    let (changed, run) ← run.recheckAllBy executor context false run.states.keys
    if changed then settleBy rounds run else return run

end Run

namespace Context

/-- Analyses the function; states are executed in a given way. -/
def inferBy (executor : Executor) (context : Context) (log : Log) :
    Option (Log × Except Error Inference) := do
  let subject := context.subject
  let log := context.announce log (.started subject.id subject.offset context.entryKey)
  let seed := Run.seed subject.offset context.entryKey log
  match ← (seed.settleBy executor context (context.settings.maxIterations + 1)).run with
  | .error aborted => return (aborted.log, .error aborted.error)
  | .ok run =>
    let inference := Inference.ofRun subject run
    let log := context.announce run.log
      (.finished subject.id inference.findings.size inference.headers.size inference.iterations)
    return (log, .ok inference)

/-- Analyses the function with a given arithmetic; none if the arithmetic refuses to answer. -/
def inferWith (arith : Arithmetic) (context : Context) (log : Log) :
    Option (Log × Except Error Inference) :=
  context.inferBy (context.executeWith arith) log

end Context

namespace Run

variable {executor : Executor} {context : Context}
  (hexecutor : ∀ findings state, executor findings state = granted (context.execute findings state))
include hexecutor

/-- An execution that is not refused ends the analysis, or not, as the reference does. -/
lemma attemptBy_eq (state : State) (run : Run) :
    run.attemptBy (executor run.findings state)
      = granted (run.attempt (context.execute run.findings state)) := by
  rw [hexecutor]
  rfl

/-- A visit with an executor that refuses nothing is a visit. -/
lemma visitBy_eq (state : State) (run : Run) :
    run.visitBy executor context state = granted (run.visit context state) :=
  bind_eq_granted (attemptBy_eq hexecutor state run) fun _ _ => rfl

/-- An arrival with such an executor is an arrival. -/
lemma arriveBy_eq (incoming : State) (run : Run) :
    run.arriveBy executor context incoming = granted (run.arrive context incoming) := by
  unfold arriveBy
  cases hstored : run.states[incoming.ip]? with
  | none =>
    rw [arrive, hstored]
    exact visitBy_eq hexecutor incoming _
  | some stored =>
    rw [arrive_of_stored hstored]
    refine bind_eq_granted rfl fun merged _ => ?_
    exact ite_eq_granted (visitBy_eq hexecutor merged.state _) (pure_eq_granted _)

/-- A step of the worklist with an executor that refuses nothing is a step of the worklist. -/
lemma stepBy_eq (run : Run) : run.stepBy executor context = granted (run.step context) := by
  unfold stepBy step
  cases run.queue with
  | nil => rfl
  | cons incoming rest =>
    refine bind_eq_granted rfl fun run _ => ?_
    exact bind_eq_granted (arriveBy_eq hexecutor incoming run) fun _ _ => pure_eq_granted _

/-- Executing a state once more comes out the same with an executor that refuses nothing. -/
lemma recheckBy_eq (offset : Offset) (run : Run) :
    run.recheckBy executor context offset = granted (run.recheck context offset) := by
  refine bind_eq_granted rfl fun run _ => ?_
  cases run.states[offset]? with
  | none => rfl
  | some state =>
    refine bind_eq_granted (attemptBy_eq hexecutor state run) fun executed _ => ?_
    refine ite_eq_granted ?_ (pure_eq_granted _)
    exact bind_eq_granted rfl fun _ _ => pure_eq_granted _

/-- Executing all stored states once more comes out the same with an executor that refuses
nothing. -/
lemma recheckAllBy_eq (changed : Bool) (run : Run) (offsets : List Offset) :
    run.recheckAllBy executor context changed offsets
      = granted (run.recheckAll context changed offsets) := by
  induction offsets generalizing changed run with
  | nil => rfl
  | cons offset rest ih =>
    exact bind_eq_granted (recheckBy_eq hexecutor offset run) fun rechecked _ => ih _ rechecked.2

/-- The worklist is worked off in the same way with an executor that refuses nothing. -/
lemma drainBy_eq (rounds : Nat) (run : Run) :
    run.drainBy executor context rounds = granted (run.drainWithin context rounds) := by
  induction rounds generalizing run with
  | zero => rfl
  | succ rounds ih =>
    refine bind_eq_granted (stepBy_eq hexecutor run) fun step? _ => ?_
    cases step? with
    | none => rfl
    | some next => exact ih next

/-- The whole loop comes out the same with an executor that refuses nothing. -/
lemma settleBy_eq (rounds : Nat) (run : Run) :
    run.settleBy executor context rounds = granted (run.settleWithin context rounds) := by
  induction rounds generalizing run with
  | zero => rfl
  | succ rounds ih =>
    refine bind_eq_granted (drainBy_eq hexecutor _ run) fun drained _ => ?_
    refine bind_eq_granted (recheckAllBy_eq hexecutor false drained _) fun checked _ => ?_
    exact ite_eq_granted (ih checked.2) (pure_eq_granted _)

end Run

namespace Context

variable {context : Context}

/-- **An analysis asks for nothing but executions**: if none of them is refused, then neither is
the analysis. -/
theorem inferBy_eq {executor : Executor}
    (hexecutor : ∀ findings state,
      executor findings state = granted (context.execute findings state)) (log : Log) :
    context.inferBy executor log = some (context.infer log) := by
  unfold inferBy infer run Run.settle
  simp only [Run.settleBy_eq hexecutor]
  cases Run.settleWithin context (context.settings.maxIterations + 1)
    (.seed context.subject.offset context.entryKey _) with
  | error aborted => rfl
  | ok run => rfl

/-- **The arithmetic of an analysis is exact.**  Take any function in addressable code, wherever it
starts and whatever key it starts with, under any table.  The analysis is the one with the
arithmetic of the machine; and the arithmetic that refuses every result that is no machine word
refuses nothing, however the analysis ends.  Every instruction that can be decoded, at any place and
with any key, lies inside the code. -/
theorem infer_exact (hblob : context.image.blob.Addressable) (log : Log) :
    context.inferWith .wrapping log = some (context.infer log) ∧
    context.inferWith .trapping log = some (context.infer log) ∧
    ∀ position key instruction key',
      decodeAt context.image.table context.image.blob position key = .ok (instruction, key') →
      instruction.offset.toNat + instruction.size.toNat ≤ context.image.blob.size := by
  refine ⟨?_, ?_, ?_⟩
  · exact inferBy_eq (executeWith_eq Arithmetic.isExact_wrapping hblob) log
  · exact inferBy_eq (executeWith_eq Arithmetic.isExact_trapping hblob) log
  · intro position key instruction key' hdecode
    obtain ⟨rfl, hbound⟩ := decodeAt_bounds hblob hdecode
    rwa [instruction.toNat_size]

/-- A switch whose table lies over the code: `PUSHI 0`, `PUSHI 3`, `SWITCH`.  What stands before the
address counts far more entries than there are bytes. -/
def overlaid : Context := .ofBlocks
  [(0, [(.pushi .dword, .dword 0), (.pushi .dword, .dword 3), (.switch, .none)])]

/-- Entries are looked up until one of them does not lie inside the code. -/
theorem infer_exact_overlaid : overlaid.image.blob.Addressable ∧
    overlaid.image.blob.switchCount 3 = 36665 ∧
    ∃ log, overlaid.inferWith .trapping {}
      = some (log, .error (.unresolvable 12 (.switchOutside 3))) := by
  have hblob : overlaid.image.blob.size < UInt64.size := by decide +kernel
  have hcount : overlaid.image.blob.switchCount 3 = 36665 := by decide +kernel
  have hfails : (overlaid.infer {}).2 = .error (.unresolvable 12 (.switchOutside 3)) :=
    eq_error_of_failsWith (by decide +kernel)
  obtain ⟨-, htrapping, -⟩ := infer_exact hblob {}
  refine ⟨hblob, hcount, (overlaid.infer {}).1, ?_⟩
  rw [htrapping, ← hfails]

end Context

end KeyedVM
