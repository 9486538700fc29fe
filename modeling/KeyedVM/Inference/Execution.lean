import KeyedVM.Decoder
import KeyedVM.Inference.HelperCalls

set_option relaxedAutoImplicit false
set_option autoImplicit false

/-!
# Executing an instruction

One instruction is decoded with the key of the state before it and executed on that state.  The
result says which states may follow and what was learned.

## Main definitions

* `KeyedVM.Context.sequential`, `jump`, `conditionalJump`, `switch`, `call`, `ret`, `enter`,
  `leave`, `helper` — the instructions by their effect on control flow;
* `KeyedVM.Image.switchTargets` — the targets that a switch table lists;
* `KeyedVM.Context.execute` — decoding and execution.
-/

namespace KeyedVM

/-- The targets that the switch table at `address` lists, relative to `base`: the number of
entries stands right before the first entry. -/
def Image.switchTargets (image : Image) (offset address base : Offset) :
    Except Error (List Offset) :=
  if address < 2 then .error (.unresolvable offset (.switchAddress address))
  else do
    let outside : Error := .unresolvable offset (.switchOutside address)
    let count ← (image.blob.read .u16 (address - 2)).mapError fun _ => outside
    (List.range count.toNat).mapM fun arm => do
      let relative ← (image.blob.read .i32 (address + UInt64.ofNat arm * 4)).mapError
        fun _ => outside
      let target : Int := base.toNat + relative
      if 0 ≤ target ∧ target < UInt64.size then return UInt64.ofNat target.toNat
      else throw (.unresolvable offset (.switchArm arm))

namespace Context

/-- Lets execution go on at each of the targets of a jump. -/
def branch (transfer : Transfer) (targets : List Offset) : Effects where
  consumed := transfer.consumed
  meaning? := some (.jump targets)
  successors := targets.map fun target => { transfer.post with ip := target }
  headers := targets

/-- The fixed stack effect of an instruction without influence on control flow. -/
def sequential (instruction : Instruction) (transfer : Transfer) : Except Error Effects := do
  let transfer ← transfer.popMany instruction.opcode.pops
  let transfer :=
    match instruction.opcode, instruction.operand.register? with
    | .pop, some register => transfer.write register
    | _, some register => transfer.read register
    | _, none => transfer
  let transfer := transfer.pushMany instruction.opcode.pushes
  let transfer := if instruction.opcode.writesFlags then transfer.write .fl else transfer
  return { consumed := transfer.consumed, successors := [transfer.post] }

/-- A jump goes to every number that its target may be. -/
def jump (evaluator : Evaluator) (transfer : Transfer) : Except Error Effects := do
  let (target, transfer) ← transfer.pop
  let targets ← evaluator.resolve target transfer.offset
  return branch transfer targets

/-- A conditional jump goes to every number that its target may be, and on. -/
def conditionalJump (evaluator : Evaluator) (transfer : Transfer) : Except Error Effects := do
  let (target, transfer) ← transfer.pop
  let (_, transfer) ← transfer.pop
  let targets ← evaluator.resolve target transfer.offset
  let next := transfer.post.ip
  return branch transfer (targets.filter (· ≠ next) ++ [next])

/-- A switch goes to every entry of its table, and on. -/
def switch (image : Image) (evaluator : Evaluator) (transfer : Transfer) :
    Except Error Effects := do
  let (address, transfer) ← transfer.pop
  let (_, transfer) ← transfer.pop
  let address ← evaluator.resolveSingle address transfer.offset "switch table"
  let next := transfer.post.ip
  let targets ← image.switchTargets transfer.offset address next
  return branch transfer (targets ++ [next])

/-- A call goes on behind it with the exit key of the called function.  If that key is not known
the path ends; if the target is no export, the key rolls on. -/
def call (context : Context) (evaluator : Evaluator) (transfer : Transfer) :
    Except Error Effects := do
  let (address, transfer) ← transfer.resolveArgument evaluator "call target"
  let result := context.settings.returnRegister
  match context.image.exports.atOffset? address with
  | none =>
    let transfer := transfer.write result
    return {
      consumed := transfer.consumed
      meaning? := some (.call { address })
      successors := [transfer.post]
      headers := [address]
      unknownCallee? := some address }
  | some callee =>
    let transfer ← transfer.popMany callee.signature.parameters.length
    let transfer := transfer.write result
    let meaning : Meaning := .call {
      address
      signature? := some callee.signature
      exportId? := some callee.id
      isInstance := callee.signature.isInstance context.image.table.instanceMask }
    return {
      consumed := transfer.consumed
      meaning? := some meaning
      successors :=
        match callee.exitKey? with
        | some key => [{ transfer.post with key }]
        | none => []
      headers := [address]
      waitingFor? := if callee.exitKey?.isNone then some callee.id else none }

/-- A return ends the path.  The depth is that before the return, the key that behind it. -/
def ret (state : State) (transfer : Transfer) : Except Error Effects := do
  let (_, transfer) ← transfer.pop
  return { consumed := transfer.consumed, return? := some (state.depth, transfer.post.key) }

/-- What a handler kind takes besides the handler: the caught type or the filter. -/
def handlerArguments (evaluator : Evaluator) (kind : HandlerKind) (transfer : Transfer) :
    Except Error (Option ReferenceId × Option Offset × Transfer) :=
  match kind with
  | .typed => do
    let (raw, transfer) ← transfer.resolveArgument evaluator "catch type"
    match dword? raw with
    | none => throw (.unresolvable transfer.offset (.caughtTypeRange raw))
    | some caught => return (some caught, none, transfer)
  | .filtered => do
    let (filter, transfer) ← transfer.resolveArgument evaluator "filter"
    return (none, some filter, transfer)
  | .fault | .cleanup => .ok (none, none, transfer)

/-- The state in which a handler or a filter starts: an empty stack, the registers of the entry
with the exception in one of them, and the regions around the protected one. -/
def handlerState (settings : Settings) (transfer : Transfer) (start : Offset) : State where
  ip := start
  key := transfer.post.key
  registers := transfer.post.registers.set settings.exceptionRegister (.of transfer.offset)
  regions := transfer.post.regions

/-- The entry of a protected region: execution goes on inside the region, or at its filter or
handler. -/
def enter (context : Context) (evaluator : Evaluator) (transfer : Transfer) :
    Except Error Effects := do
  let (raw, transfer) ← transfer.resolveArgument evaluator "exception handler type"
  match context.image.table.handlerKind? raw with
  | none => throw (.unresolvable transfer.offset (.unknownHandlerKind raw))
  | some kind =>
    let (caught?, filter?, transfer) ← handlerArguments evaluator kind transfer
    let (handler, transfer) ← transfer.resolveArgument evaluator "handler"
    let region : Region := { opener := transfer.offset, kind, handler, filter?, caught? }
    let entries := filter?.toList ++ [handler]
    let inside := { transfer.post with regions := region :: transfer.post.regions }
    return {
      consumed := transfer.consumed
      successors := entries.map (handlerState context.settings transfer) ++ [inside]
      headers := entries
      region? := some region }

/-- The exit of the innermost protected region, which names the handler of the region. -/
def leave (evaluator : Evaluator) (transfer : Transfer) : Except Error Effects := do
  let (handler, transfer) ← transfer.resolveArgument evaluator "leave target"
  match transfer.post.regions with
  | [] => throw (.inconsistent transfer.offset .noRegion)
  | region :: outer =>
    if region.handler = handler then
      return {
        consumed := transfer.consumed
        successors := [{ transfer.post with regions := outer }] }
    else throw (.inconsistent transfer.offset (.wrongHandler handler region))

/-- A helper call goes on behind it, unless the helper does not come back. -/
def helper (image : Image) (evaluator : Evaluator) (transfer : Transfer) :
    Except Error Effects := do
  let (call, meaning, transfer) ← transfer.helperCall image evaluator
  return {
    consumed := transfer.consumed
    meaning? := some meaning
    successors := if call.endsPath then [] else [transfer.post] }

/-- Executes an instruction that has been decoded. -/
def transfer (context : Context) (findings : Findings) (instruction : Instruction)
    (state : State) (key : Key) : Except Error Effects :=
  let evaluator : Evaluator := ⟨findings, context.settings⟩
  let transfer : Transfer :=
    { offset := instruction.offset, post := { state with ip := instruction.next, key } }
  match instruction.flow with
  | .sequential => sequential instruction transfer
  | .jump => jump evaluator transfer
  | .conditionalJump => conditionalJump evaluator transfer
  | .switch => switch context.image evaluator transfer
  | .call => context.call evaluator transfer
  | .ret => ret state transfer
  | .enter => context.enter evaluator transfer
  | .leave => leave evaluator transfer
  | .helper => helper context.image evaluator transfer

/-- Decodes and executes the instruction at a state.  Values are evaluated on the findings so
far. -/
def execute (context : Context) (findings : Findings) (state : State) :
    Except Error (Finding × Effects) := do
  let (instruction, key) ← decodeAt context.image.table context.image.blob state.ip state.key
  let effects ← context.transfer findings instruction state key
  let finding : Finding := {
    toInstruction := instruction
    state
    meaning? := effects.meaning?
    consumed := effects.consumed }
  return (finding, effects)

end Context

end KeyedVM
