import KeyedVM.Basic
import KeyedVM.Text.Hex
import Std.Data.ExtTreeSet

set_option relaxedAutoImplicit false
set_option autoImplicit false

/-!
# Provenance

The analysis does not follow values but where they come from: each stack slot and each register
holds the set of instructions that may have produced its value.  An empty set means that the value
comes from outside the function.  Where paths meet the sets are united, so they only ever grow.

## Main definitions

* `KeyedVM.Provenance` — a finite set of offsets, listed in ascending order;
* `KeyedVM.Provenance.of` — the provenance of a value that one instruction produces;
* `KeyedVM.Provenance.single?` — the only producer, if there is exactly one;
* `KeyedVM.Provenance.grows` — whether a union adds something;
* `KeyedVM.Provenance.text` — a provenance in text.

## Main results

* `KeyedVM.Provenance.grows_eq_true_iff` — a union adds something exactly if it is a new set.
-/

namespace KeyedVM

/-- The instructions that may have produced a value. -/
abbrev Provenance := Std.ExtTreeSet Offset

namespace Provenance

/-- The provenance of a value that comes from outside. -/
def unknown : Provenance := ∅

/-- The provenance of a value that the instruction at `offset` produces. -/
def of (offset : Offset) : Provenance := unknown.insert offset

/-- The only producer, if there is exactly one. -/
def single? (value : Provenance) : Option Offset :=
  match value.toList with
  | [offset] => some offset
  | _ => none

/-- Whether every producer in `a` is one in `b`. -/
def isSubset (a b : Provenance) : Bool := a.toList.all b.contains

/-- Whether uniting `incoming` with `stored` adds a producer. -/
def grows (stored incoming : Provenance) : Bool := !incoming.isSubset stored

/-- A provenance in text: a question mark if it is empty, and otherwise its offsets in braces. -/
def text (value : Provenance) : String :=
  if value.isEmpty then "?"
  else "\x7b" ++ Text.commaSeparated (value.toList.map fun offset => Text.hex 4 offset.toNat)
    ++ "\x7d"

/-- A single producer is a producer of the value, and no other offset is. -/
theorem mem_of {x offset : Offset} : x ∈ of offset ↔ x = offset := by
  simp only [of, unknown, Std.ExtTreeSet.mem_insert, Std.compare_eq_iff_eq]
  simp [eq_comm]

/-- The computed inclusion is that of the producers. -/
theorem isSubset_eq_true_iff {a b : Provenance} :
    a.isSubset b = true ↔ ∀ x ∈ a, x ∈ b := by
  simp [isSubset, List.all_eq_true]

/-- A union adds something exactly if it is a new set. -/
theorem grows_eq_true_iff {stored incoming : Provenance} :
    grows stored incoming = true ↔ stored ∪ incoming ≠ stored := by
  rw [grows, Bool.not_eq_true', ← Bool.not_eq_true, isSubset_eq_true_iff]
  refine not_congr ⟨fun h => ?_, fun h x hx => ?_⟩
  · refine Std.ExtTreeSet.ext_mem fun x => ?_
    rw [Std.ExtTreeSet.mem_union_iff]
    exact ⟨fun hx => hx.elim id (h x), Or.inl⟩
  · rw [← h, Std.ExtTreeSet.mem_union_iff]
    exact Or.inr hx

end Provenance

end KeyedVM
