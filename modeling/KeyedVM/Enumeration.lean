set_option relaxedAutoImplicit false
set_option autoImplicit false

/-!
# Enumerations

The alphabets of the machine (opcodes, registers, flags, helper calls, call flavours and handler
kinds) are finite and have a fixed order of declaration, which numbers them and in which messages
list them.

## Main definitions

* `KeyedVM.Enumeration` — a type together with the list of all its members;
* `KeyedVM.Enumeration.ordinal` — the place of a member in that list;
* `KeyedVM.Enumeration.find?` — the first member with a given name.

## Main results

* `KeyedVM.Enumeration.ordinal_inj` — the ordinal tells members apart.
-/

namespace KeyedVM

/-- A finite alphabet in declaration order, with the wording that messages use for it. -/
class Enumeration (α : Type) [DecidableEq α] where
  /-- Every member, in declaration order. -/
  all : List α
  /-- The listing leaves nobody out. -/
  mem_all : ∀ a : α, a ∈ all
  /-- The listing repeats nobody. -/
  nodup_all : all.Nodup
  /-- The word for the alphabet in messages. -/
  kind : String
  /-- The word for a member in messages. -/
  spelling : α → String

namespace Enumeration

variable {α : Type} [DecidableEq α] [Enumeration α]

/-- The number of a member in declaration order, from zero. -/
def ordinal (a : α) : Nat := (all : List α).idxOf a

/-- The first member whose name, as given by `name`, is `text`. -/
def find? (name : α → String) (text : String) : Option α := (all : List α).find? (name · == text)

/-- Every ordinal is a place of the listing. -/
theorem ordinal_lt (a : α) : ordinal a < (all : List α).length :=
  List.idxOf_lt_length_of_mem (mem_all a)

/-- The member at the place of an ordinal is the member itself. -/
theorem getElem?_ordinal (a : α) : (all : List α)[ordinal a]? = some a := by
  rw [List.getElem?_eq_getElem (ordinal_lt a)]
  exact congrArg some (List.getElem_idxOf (ordinal_lt a))

/-- Members with the same ordinal are equal. -/
theorem ordinal_inj {a b : α} : ordinal a = ordinal b ↔ a = b := by
  constructor
  · intro h
    have ha := getElem?_ordinal a
    rw [h, getElem?_ordinal b] at ha
    exact (Option.some.inj ha).symm
  · rintro rfl
    rfl

end Enumeration

end KeyedVM
