import KeyedVM.Error
import Std.Data.ExtTreeMap

set_option relaxedAutoImplicit false
set_option autoImplicit false

/-!
# Exports

The functions of a protected program that can be entered from outside.  The key that is in force
behind a call is the key with which the called function returns, its exit key; it is not known
until the function has been analysed.

## Main definitions

* `KeyedVM.Signature` — what a caller pushes;
* `KeyedVM.Export` — a function: where it starts and with which keys it is entered and left;
* `KeyedVM.ExportTable` — the functions by their numbers, with `find`, `atOffset?` and
  `setExitKey`.
-/

namespace KeyedVM

/-- The signature of a function. -/
structure Signature where
  flags : UInt8 := 0
  /-- The types of the parameters, with the receiver if there is one. -/
  parameters : List ReferenceId := []
  result : ReferenceId := 0
  deriving DecidableEq, Repr

/-- Whether a signature has a receiver, for the mask that the byte table gives. -/
def Signature.isInstance (signature : Signature) (mask : UInt8) : Bool :=
  signature.flags &&& mask != 0

/-- A function of a protected program. -/
structure Export where
  id : ExportId
  /-- Where the code starts. -/
  offset : Offset
  /-- The key at the start.  A function at offset zero without a key has no code. -/
  entryKey? : Option Key := none
  /-- The key with which the function returns, once it is known. -/
  exitKey? : Option Key := none
  signature : Signature := {}
  deriving DecidableEq, Repr

/-- The functions of a protected program by their numbers. -/
structure ExportTable where
  entries : Std.ExtTreeMap ExportId Export
  /-- Every function is stored under its own number. -/
  id_eq : ∀ {id : ExportId} {item : Export}, entries[id]? = some item → item.id = id

namespace ExportTable

/-- The table without functions. -/
instance : EmptyCollection ExportTable where
  emptyCollection := { entries := ∅, id_eq := by simp }

/-- Stores a function under its number, in place of an earlier one with the same number. -/
def insert (table : ExportTable) (item : Export) : ExportTable where
  entries := table.entries.insert item.id item
  id_eq := by
    intro id other h
    rw [Std.ExtTreeMap.getElem?_insert] at h
    split at h
    · next hid => exact Option.some.inj h ▸ Std.LawfulEqOrd.eq_of_compare hid
    · exact table.id_eq h

/-- The table of a list of functions, of which later ones win. -/
def ofList (items : List Export) : ExportTable := items.foldl insert ∅

/-- The functions by ascending number. -/
def toList (table : ExportTable) : List Export := table.entries.toList.map (·.2)

/-- Number of functions. -/
def size (table : ExportTable) : Nat := table.entries.size

/-- The function with a given number. -/
def find (table : ExportTable) (id : ExportId) : Except Error Export :=
  match table.entries[id]? with
  | some item => .ok item
  | none => .error (.exportNotFound id)

/-- The first function, by number, that starts at an offset.  At offset zero only functions with
an entry key have code. -/
def atOffset? (table : ExportTable) (offset : Offset) : Option Export :=
  table.toList.find? fun item =>
    item.offset = offset ∧ (offset ≠ 0 ∨ item.entryKey?.isSome)

/-- Records the exit key of a function. -/
def setExitKey (table : ExportTable) (id : ExportId) (key : Key) : Except Error ExportTable := do
  let item ← table.find id
  return table.insert { item with exitKey? := some key }

end ExportTable

end KeyedVM
