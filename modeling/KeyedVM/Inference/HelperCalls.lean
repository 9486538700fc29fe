import KeyedVM.Inference.Transfer

set_option relaxedAutoImplicit false
set_option autoImplicit false

/-!
# Helper calls

The stack effects of the helpers of the runtime.  A helper takes its arguments from the stack,
first of all its own number.  Numbers and references are constants of the program, possibly
computed ones.

## Main definitions

* `KeyedVM.HelperForm`, `KeyedVM.HelperCall.form` — what a helper takes and leaves;
* `KeyedVM.CallFlavour.arguments` — the number of arguments of an external method;
* `KeyedVM.Transfer.external` — a call of an external method;
* `KeyedVM.Transfer.helperCall` — any helper call.
-/

namespace KeyedVM

/-- What a helper takes and leaves, apart from its number. -/
inductive HelperForm where
  /-- A call of an external method. -/
  | external
  /-- Takes a reference, which messages call `role` and of which bit 31 may be a flag, then some
  slots, and may leave a value. -/
  | naming (role : String) (flagged : Bool) (pops : Nat) (pushes : Nat)
  /-- Takes some slots and may leave a value. -/
  | plain (pops : Nat) (pushes : Nat)
  /-- Takes a number that says whether the current exception goes on, and otherwise a slot. -/
  | throwing

/-- The form of a helper. -/
def HelperCall.form : HelperCall → HelperForm
  | .external => .external
  | .cast => .naming "cast type" true 1 1
  | .box => .naming "box type" false 1 1
  | .unbox => .naming "unbox type" true 1 1
  | .loadFunction => .naming "ldftn method" false 1 1
  | .loadField => .naming "field" false 1 1
  | .storeField => .naming "field" false 2 0
  | .initObject => .naming "initobj type" false 1 0
  | .token | .sizeOf => .naming "token" false 0 1
  | .localAlloc | .checkFinite => .plain 1 1
  | .checkOverflow => .plain 1 0
  | .checkRange => .plain 3 1
  | .exit | .breakpoint => .plain 0 0
  | .throwing => .throwing

/-- The flag bit of the type ids that casts and unboxing take. -/
def typeFlag : UInt64 := 0x80000000

/-- The part of an external method id that is the reference. -/
def methodIdMask : UInt64 := 0x3FFFFFFF

/-- The selector of the call flavour in an external method id, bits 30 and 31. -/
def flavourSelector (raw : UInt64) : UInt8 := ((raw >>> 30) &&& 3).toUInt8

/-- The reference with the number `raw`, on behalf of the instruction at `offset`. -/
def ReferenceTable.named (references : ReferenceTable) (offset : Offset) (raw : UInt64) :
    Except Error NamedReference :=
  match dword? raw with
  | none => .error (.unresolvable offset (.referenceRange raw))
  | some id =>
    match references[id]? with
    | none => .error (.referenceNotFound id offset)
    | some reference => .ok ⟨id, reference⟩

/-- The meaning of a helper that names a reference. -/
def HelperCall.meaningOf (call : HelperCall) (named : NamedReference) (raw : UInt64) :
    Meaning :=
  match call with
  | .cast => .cast named (raw &&& typeFlag != 0)
  | .box => .box named
  | .loadFunction => .loadFunction named
  | _ => .helper call (some named) (some raw)

/-- Whether a call takes a receiver: the method has one, and no object is constructed. -/
def CallFlavour.receives (flavour : CallFlavour) (method : Method) : Bool :=
  method.hasThis && flavour != .construct

/-- The number of arguments that a call takes: the declared parameters and the receiver.  It is
counted in a word, which wraps around. -/
def CallFlavour.arguments (flavour : CallFlavour) (method : Method) : UInt64 :=
  method.parameters + if flavour.receives method then 1 else 0

namespace Transfer

/-- A call of an external method.  The method id holds the flavour of the call; a constrained
call takes the id of the constraint as well.  Then the arguments are popped. -/
def external (image : Image) (evaluator : Evaluator) (transfer : Transfer) :
    Except Error (Meaning × Transfer) := do
  let (raw, transfer) ← transfer.resolveArgument evaluator "ecall method"
  let selector := flavourSelector raw
  match image.table.flavours.entry? selector with
  | none => throw (.unresolvable transfer.offset (.unknownFlavour selector))
  | some flavour =>
    let named ← image.references.named transfer.offset (raw &&& methodIdMask)
    match named.reference.method? with
    | none => throw (.unresolvable transfer.offset (.notAMethod named.reference))
    | some method =>
      let (constraint?, transfer) ←
        if flavour = .constrained then do
          let (raw, transfer) ← transfer.resolveArgument evaluator "constraint type"
          let constraint ← image.references.named transfer.offset raw
          pure (some constraint, transfer)
        else pure (none, transfer)
      let transfer ← transfer.popMany (flavour.arguments method)
      let results := if method.returnsValue || flavour == .construct then 1 else 0
      return (.external flavour named constraint?, transfer.pushMany results)

/-- Executes the helper with a given form. -/
def helperForm (image : Image) (evaluator : Evaluator) (call : HelperCall)
    (transfer : Transfer) : HelperForm → Except Error (Meaning × Transfer)
  | .external => transfer.external image evaluator
  | .naming role flagged pops pushes => do
    let (raw, transfer) ← transfer.resolveArgument evaluator role
    let id := if flagged then raw &&& ~~~typeFlag else raw
    let named ← image.references.named transfer.offset id
    let transfer ← transfer.popMany pops
    return (call.meaningOf named raw, transfer.pushMany pushes)
  | .plain pops pushes => do
    let transfer ← transfer.popMany pops
    return (.helper call none none, transfer.pushMany pushes)
  | .throwing => do
    let (rethrow, transfer) ← transfer.resolveArgument evaluator "throw flag"
    let transfer ← transfer.popMany (if rethrow = 0 then 1 else 0)
    return (.helper call none (some rethrow), transfer)

/-- Executes a helper call: the helper, its meaning, and the transfer behind it. -/
def helperCall (image : Image) (evaluator : Evaluator) (transfer : Transfer) :
    Except Error (HelperCall × Meaning × Transfer) := do
  let (id, transfer) ← transfer.resolveArgument evaluator "vcall id"
  match image.table.helper? id with
  | none => throw (.unresolvable transfer.offset (.unknownHelper id))
  | some call =>
    let (meaning, transfer) ← transfer.helperForm image evaluator call call.form
    return (call, meaning, transfer)

end Transfer

end KeyedVM
