import KeyedVM.ByteTable.Assignment

set_option relaxedAutoImplicit false
set_option autoImplicit false

/-!
# Byte assignments in arrays

An assignment of bytes to the members of an alphabet is kept in two arrays, so that each look-up
takes one step: one array has a cell for every byte, the other one for every member.  While pairs
are recorded, a cell may be empty; a pair that contradicts a cell is refused.  Afterwards no member
may be without a byte, and the array of bytes is packed.

## Main definitions

* `KeyedVM.Cells` — the cells while pairs are recorded;
* `KeyedVM.Cells.conflict?`, `KeyedVM.Cells.record`, `KeyedVM.Cells.recordAll` — recording pairs;
* `KeyedVM.ByteMap` — the arrays of an accepted assignment, with their look-ups;
* `KeyedVM.ByteMap.ofPairs` — acceptance, or the first objection.
-/

namespace KeyedVM

/-- The place of a member among the cells of its alphabet. -/
def Enumeration.place {α : Type} [DecidableEq α] [Enumeration α] (a : α) :
    Fin (all : List α).length :=
  ⟨ordinal a, ordinal_lt a⟩

variable {α : Type} [DecidableEq α] [Enumeration α]

/-- What is known of an assignment while its pairs are recorded. -/
structure Cells (α : Type) [DecidableEq α] [Enumeration α] where
  /-- For every byte, the member that it stands for. -/
  entries : Vector (Option α) UInt8.size
  /-- For every member, its byte. -/
  bytes : Vector (Option UInt8) (Enumeration.all : List α).length

namespace Cells

/-- Nothing is known. -/
def empty : Cells α where
  entries := .replicate _ none
  bytes := .replicate _ none

/-- The member that a byte is known to stand for. -/
def entry? (cells : Cells α) (byte : UInt8) : Option α := cells.entries[byte.toFin]

/-- The byte that a member is known to have. -/
def byte? (cells : Cells α) (a : α) : Option UInt8 := cells.bytes[Enumeration.place a]

/-- The objection to a pair: first that its byte has another entry, then that its entry has another
byte. -/
def conflict? (cells : Cells α) (pair : UInt8 × α) : Option TableFault :=
  match (cells.entry? pair.1).filter (· ≠ pair.2) with
  | some existing =>
    some (.sharedByte pair.1 (Enumeration.spelling existing) (Enumeration.spelling pair.2))
  | none =>
    match (cells.byte? pair.2).filter (· ≠ pair.1) with
    | some previous => some (.twoBytes (Enumeration.spelling pair.2) previous pair.1)
    | none => none

/-- Fills the two cells of a pair. -/
def record (cells : Cells α) (pair : UInt8 × α) : Cells α where
  entries := cells.entries.set pair.1.toFin (some pair.2)
  bytes := cells.bytes.set (Enumeration.place pair.2) (some pair.1)

/-- Records pairs one after the other, up to the first one that contradicts a cell. -/
def recordAll (cells : Cells α) : List (UInt8 × α) → Except TableFault (Cells α)
  | [] => .ok cells
  | pair :: rest =>
    match cells.conflict? pair with
    | some fault => .error fault
    | none => (cells.record pair).recordAll rest

/-- The members without a byte, in declaration order. -/
def missing (cells : Cells α) : List α := Enumeration.all.filter fun a => (cells.byte? a).isNone

end Cells

/-- An accepted assignment in two arrays. -/
structure ByteMap (α : Type) [DecidableEq α] [Enumeration α] where
  /-- For every byte, the member that it stands for. -/
  entries : Vector (Option α) UInt8.size
  /-- The bytes of the members, in declaration order. -/
  bytes : Array UInt8

namespace ByteMap

/-- The member that a byte stands for. -/
def entry? (map : ByteMap α) (byte : UInt8) : Option α := map.entries[byte.toFin]

/-- The byte at the place of a member, if the array is that long. -/
def byte? (map : ByteMap α) (a : α) : Option UInt8 := map.bytes[Enumeration.ordinal a]?

/-- Accepts a list of pairs, or says what is wrong with it: the first contradiction if there is one,
and otherwise the entries that are missing.  Empty cells are dropped when the bytes are packed. -/
def ofPairs (pairs : List (UInt8 × α)) : Except Error (ByteMap α) :=
  match Cells.empty.recordAll pairs with
  | .error fault => .error (.incompleteTable (Enumeration.kind α) fault)
  | .ok cells =>
    match cells.missing with
    | [] => .ok { entries := cells.entries, bytes := cells.bytes.toArray.filterMap id }
    | entries =>
      .error (.incompleteTable (Enumeration.kind α) (.missing (entries.map Enumeration.spelling)))

end ByteMap

end KeyedVM
