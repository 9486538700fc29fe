import KeyedVM.Dependency.Action
import KeyedVM.Finding

set_option relaxedAutoImplicit false
set_option autoImplicit false

/-!
# Dependency closures

The instructions that take part in computing a value: its producer, the producers of what that
consumes, and so on.  Every one of them must have been decoded, be replayable and have a single
producer for each value it consumes; only a register that is pushed may have none, since it then
still has its entry value.

## Main definitions

* `KeyedVM.Finding.producers` — the producers of the values that an instruction consumes;
* `KeyedVM.Findings.accept` — an instruction of a closure and its producers;
* `KeyedVM.Findings.expand` — the worklist;
* `KeyedVM.Findings.closure` — the closure of a producer, of bounded size.
-/

namespace KeyedVM

/-- The producer of a consumed value; none for a register that still has its entry value. -/
def Finding.producer (finding : Finding) (value : Provenance) :
    Except ResolveFault (Option Offset) :=
  match value.single? with
  | some producer => .ok (some producer)
  | none =>
    if value.isEmpty then
      if finding.opcode.readsRegister then .ok none
      else .error (.unknownOrigin finding.opcode finding.offset)
    else .error (.manySources finding.opcode finding.offset value.size)

/-- The producers of the values that an instruction consumes, in the order of consumption. -/
def Finding.producers (finding : Finding) : Except ResolveFault (List Offset) :=
  (finding.consumed.mapM finding.producer).map fun producers => producers.filterMap id

namespace Findings

/-- The producers of the instruction at `offset`, if it may take part in a closure. -/
def accept (findings : Findings) (offset : Offset) : Except ResolveFault (List Offset) :=
  match findings[offset]? with
  | none => .error (.neverDecoded offset)
  | some finding =>
    if finding.opcode.isReplayable then finding.producers
    else .error (.unsupported finding.opcode offset)

/-- Takes pending offsets, latest first, into a closure that may still grow by `room`
members.  `limit` is the size that is named if there is no room left. -/
def expand (findings : Findings) (limit : Nat) (room : Nat) (closure : Provenance)
    (pending : List Offset) : Except ResolveFault Provenance :=
  match pending.dropWhile closure.contains with
  | [] => .ok closure
  | offset :: rest =>
    match room with
    | 0 => .error (.closureLimit limit)
    | room + 1 => do
      let producers ← findings.accept offset
      expand findings limit room (closure.insert offset) (producers.reverse ++ rest)

/-- The instructions that take part in computing the value that `source` produces, of which
there may be at most `limit`. -/
def closure (findings : Findings) (limit : Nat) (source : Offset) :
    Except ResolveFault Provenance :=
  findings.expand limit limit ∅ [source]

end Findings

end KeyedVM
