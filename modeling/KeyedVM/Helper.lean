import KeyedVM.Enumeration
import KeyedVM.Text.Camel

set_option relaxedAutoImplicit false
set_option autoImplicit false

/-!
# Helpers of the runtime

The helpers behind the opcode `VCALL`, the flavours of calls that leave the machine, and the
kinds of exception handlers.

## Main definitions

* `KeyedVM.HelperCall` — the helpers;
* `KeyedVM.CallFlavour` — the ways in which an external method is called;
* `KeyedVM.HandlerKind` — the kinds of handlers of a protected region.
-/

namespace KeyedVM

/-- The helpers of the runtime. -/
inductive HelperCall where
  /-- Ends the function. -/
  | exit
  /-- Stops in a debugger. -/
  | breakpoint
  /-- Calls an external method. -/
  | external
  | cast
  | checkFinite
  | checkOverflow
  | checkRange
  | initObject
  | loadField
  /-- Pushes the address of a method. -/
  | loadFunction
  /-- Pushes the token of a reference. -/
  | token
  | throwing
  /-- Pushes the size of a type. -/
  | sizeOf
  | storeField
  | box
  | unbox
  /-- Allocates on the native stack. -/
  | localAlloc
  deriving DecidableEq, Repr

namespace HelperCall

/-- The name of a helper. -/
def name : HelperCall → String
  | exit => "EXIT"
  | breakpoint => "BREAK"
  | external => "ECALL"
  | cast => "CAST"
  | checkFinite => "CKFINITE"
  | checkOverflow => "CKOVERFLOW"
  | checkRange => "RANGECHK"
  | initObject => "INITOBJ"
  | loadField => "LDFLD"
  | loadFunction => "LDFTN"
  | token => "TOKEN"
  | throwing => "THROW"
  | sizeOf => "SIZEOF"
  | storeField => "STFLD"
  | box => "BOX"
  | unbox => "UNBOX"
  | localAlloc => "LOCALLOC"

/-- The helpers in declaration order. -/
def all : List HelperCall :=
  [exit, breakpoint, external, cast, checkFinite, checkOverflow, checkRange, initObject,
    loadField, loadFunction, token, throwing, sizeOf, storeField, box, unbox, localAlloc]

/-- The helpers in declaration order, with their words in messages. -/
instance : Enumeration HelperCall where
  all := all
  mem_all call := by cases call <;> decide
  nodup_all := by decide
  kind := "vmcall"
  spelling call := Text.camel call.name

/-- Whether a helper never comes back to its caller. -/
def endsPath : HelperCall → Bool
  | exit | throwing => true
  | _ => false

end HelperCall

/-- The flavours of an external call. -/
inductive CallFlavour where
  | direct
  /-- Dispatched on the receiver. -/
  | dispatched
  /-- Constructs an object. -/
  | construct
  /-- Dispatched on a receiver whose type is named by the call. -/
  | constrained
  deriving DecidableEq, Repr

namespace CallFlavour

/-- The name of a call flavour. -/
def name : CallFlavour → String
  | direct => "CALL"
  | dispatched => "CALLVIRT"
  | construct => "NEWOBJ"
  | constrained => "CALLVIRT_CONSTRAINED"

/-- The call flavours in declaration order. -/
def all : List CallFlavour := [direct, dispatched, construct, constrained]

/-- The call flavours in declaration order, with their words in messages. -/
instance : Enumeration CallFlavour where
  all := all
  mem_all flavour := by cases flavour <;> decide
  nodup_all := by decide
  kind := "ecall opcode"
  spelling flavour := Text.camel flavour.name

end CallFlavour

/-- The kinds of exception handlers. -/
inductive HandlerKind where
  /-- Catches exceptions of one type. -/
  | typed
  /-- Catches the exceptions that a filter accepts. -/
  | filtered
  /-- Runs if the region fails. -/
  | fault
  /-- Runs in any case. -/
  | cleanup
  deriving DecidableEq, Repr

namespace HandlerKind

/-- The name of a handler kind. -/
def name : HandlerKind → String
  | typed => "CATCH"
  | filtered => "FILTER"
  | fault => "FAULT"
  | cleanup => "FINALLY"

/-- The handler kinds in declaration order. -/
def all : List HandlerKind := [typed, filtered, fault, cleanup]

/-- The handler kinds in declaration order, with their words in messages. -/
instance : Enumeration HandlerKind where
  all := all
  mem_all kind := by cases kind <;> decide
  nodup_all := by decide
  kind := "eh type"
  spelling kind := Text.camel kind.name

end HandlerKind

end KeyedVM
