import KeyedVM.Basic
import Std.Data.ExtTreeMap

set_option relaxedAutoImplicit false
set_option autoImplicit false

/-!
# Metadata references

Helper calls name types, methods and fields by number.  The analysis needs little of what a
number stands for: a name to show, and for a method the number of values it takes and whether it
leaves one.

## Main definitions

* `KeyedVM.Reference` — a type, a method or a field;
* `KeyedVM.Reference.text` — its name;
* `KeyedVM.ReferenceTable` — the references of a program by their numbers.
-/

namespace KeyedVM

/-- A method outside the machine. -/
structure Method where
  /-- Name of the declaring type. -/
  declaring : String
  name : String
  /-- Number of declared parameters, without the receiver.  It is recovered with the method, and
  nothing bounds it but the width of a word. -/
  parameters : UInt64
  /-- Whether the method takes a receiver. -/
  hasThis : Bool
  /-- Whether the method leaves a value. -/
  returnsValue : Bool
  deriving DecidableEq, Repr

/-- A field outside the machine. -/
structure Field where
  /-- Name of the declaring type. -/
  declaring : String
  name : String
  isStatic : Bool
  deriving DecidableEq, Repr

/-- What a reference number stands for. -/
inductive Reference where
  | type (name : String)
  | method (method : Method)
  | field (field : Field)
  deriving DecidableEq, Repr

namespace Reference

/-- The method behind a reference. -/
def method? : Reference → Option Method
  | .method m => some m
  | _ => none

/-- The name of a reference; members are qualified by their type. -/
def text : Reference → String
  | .type name => name
  | .method m => m.declaring ++ "::" ++ m.name
  | .field f => f.declaring ++ "::" ++ f.name

end Reference

/-- The references of a program by their numbers. -/
abbrev ReferenceTable := Std.ExtTreeMap ReferenceId Reference

end KeyedVM
