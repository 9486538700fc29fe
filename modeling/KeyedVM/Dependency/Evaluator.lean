import KeyedVM.Dependency.Closure
import KeyedVM.Dependency.Replay
import KeyedVM.Settings

set_option relaxedAutoImplicit false
set_option autoImplicit false

/-!
# Evaluating consumed values

A value is evaluated by replaying its dependency closure in the order of offsets: what the last
instruction of the closure leaves on the stack is the value.

## Main definitions

* `KeyedVM.Evaluator` — the findings so far and the settings;
* `KeyedVM.Evaluator.evaluate` — the number that an instruction produces;
* `KeyedVM.Evaluator.resolve` — the numbers that a consumed value may be, ascending;
* `KeyedVM.Evaluator.resolveSingle` — the only number that a consumed value may be.
-/

namespace KeyedVM

/-- What the evaluation of values is based on. -/
structure Evaluator where
  findings : Findings
  settings : Settings

namespace Evaluator

/-- The number that the instruction at `source` produces, for the instruction at `consumer`. -/
def evaluate (evaluator : Evaluator) (source consumer : Offset) : Except Error UInt64 := do
  let closure ← (evaluator.findings.closure evaluator.settings.maxClosure source).mapError
    (.unresolvable consumer)
  let instructions := closure.toList.filterMap fun offset =>
    evaluator.findings[offset]?.map (·.toInstruction)
  let replay ← Replay.run consumer { registers := evaluator.settings.initialRegisters }
    instructions
  match replay.stack with
  | value :: _ => return value
  | [] => throw (.unresolvable consumer .noValue)

/-- The numbers that a consumed value may be, in ascending order. -/
def resolve (evaluator : Evaluator) (value : Provenance) (consumer : Offset) :
    Except Error (List UInt64) :=
  if value.isEmpty then .error (.unresolvable consumer .noProvenance)
  else do
    let candidates ← value.toList.mapM fun source => evaluator.evaluate source consumer
    return (Std.ExtTreeSet.ofList candidates).toList

/-- The only number that a consumed value may be.  Messages name it by its `role`. -/
def resolveSingle (evaluator : Evaluator) (value : Provenance) (consumer : Offset)
    (role : String) : Except Error UInt64 := do
  match ← evaluator.resolve value consumer with
  | [number] => return number
  | candidates => throw (.unresolvable consumer (.ambiguous role candidates.length))

end Evaluator

end KeyedVM
