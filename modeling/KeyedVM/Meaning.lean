import KeyedVM.Export
import KeyedVM.Helper
import KeyedVM.Reference

set_option relaxedAutoImplicit false
set_option autoImplicit false

/-!
# Meanings of instructions

Jumps, calls and helper calls take computed operands.  Once these are resolved, the instruction is
given a meaning.

## Main definitions

* `KeyedVM.NamedReference` — a reference with its number;
* `KeyedVM.CallSite` — a resolved call of a function of the machine;
* `KeyedVM.Meaning` — the resolved meaning of an instruction;
* `KeyedVM.Meaning.text` — its text in a listing.
-/

namespace KeyedVM

open Text

/-- A reference with its number. -/
structure NamedReference where
  id : ReferenceId
  reference : Reference
  deriving DecidableEq, Repr

/-- A reference in a listing. -/
def NamedReference.text (named : NamedReference) : String :=
  named.reference.text ++ " [" ++ hex0x 8 named.id.toNat ++ "]"

/-- A resolved call. -/
structure CallSite where
  /-- Where the called code starts. -/
  address : Offset
  /-- The signature, if the called code is an export. -/
  signature? : Option Signature := none
  /-- The number of the export, if the called code is one. -/
  exportId? : Option ExportId := none
  /-- Whether the signature has a receiver. -/
  isInstance : Bool := false
  deriving DecidableEq, Repr

/-- The resolved meaning of an instruction. -/
inductive Meaning where
  /-- The possible targets of a jump.  A path that goes on comes last. -/
  | jump (targets : List Offset)
  | call (site : CallSite)
  | box (target : NamedReference)
  /-- A cast, which gives null or fails if the value is not of the type. -/
  | cast (target : NamedReference) (safe : Bool)
  /-- A call that leaves the machine. -/
  | external (flavour : CallFlavour) (method : NamedReference)
      (constraint? : Option NamedReference)
  | loadFunction (method : NamedReference)
  /-- Any other helper, with what it names and the number it was given. -/
  | helper (call : HelperCall) (reference? : Option NamedReference) (raw? : Option UInt64)
  deriving DecidableEq, Repr

namespace Meaning

/-- The targets of a jump. -/
def targets? : Meaning → Option (List Offset)
  | jump targets => some targets
  | _ => none

/-- A meaning in a listing. -/
def text : Meaning → String
  | jump targets => "-> " ++ commaSeparated (targets.map fun target => hex 4 target.toNat)
  | call site =>
    (match site.exportId? with
      | some id =>
        (if site.isInstance then "call instance export " else "call export ")
          ++ toString id.toNat ++ " @"
      | none => "call @")
      ++ hex 4 site.address.toNat
  | box target => "box " ++ target.text
  | cast target safe => (if safe then "isinst " else "castclass ") ++ target.text
  | external flavour method constraint? =>
    (constraint?.elim "" fun constraint => "constrained " ++ constraint.text ++ " ")
      ++ flavour.name ++ " " ++ method.text
  | loadFunction method => "ldftn " ++ method.text
  | helper name (some reference) _ => name.name ++ " " ++ reference.text
  | helper name none (some raw) => name.name ++ " " ++ toString raw.toNat
  | helper name none none => name.name

end Meaning

end KeyedVM
