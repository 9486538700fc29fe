import KeyedVM.Basic
import KeyedVM.Helper
import KeyedVM.Text.Hex
import Std.Data.ExtTreeSet

set_option relaxedAutoImplicit false
set_option autoImplicit false

/-!
# Protected regions

A protected region is opened by a `TRY` instruction, which fixes the kind of its handler, the
handler, and depending on the kind a filter or the type that is caught.

## Main definitions

* `KeyedVM.Region` — a protected region;
* `KeyedVM.Region.text` — a region in a message;
* `KeyedVM.RegionSet` — finite sets of regions, listed by the place of their `TRY`.

## Main results

* `KeyedVM.Region.instLawfulEqOrd` — the order of regions tells different regions apart.
-/

namespace KeyedVM

/-- A protected region. -/
structure Region where
  /-- The instruction that opens the region. -/
  opener : Offset
  kind : HandlerKind
  /-- Where the handler starts. -/
  handler : Offset
  /-- Where the filter starts, for filtered handlers. -/
  filter? : Option Offset
  /-- The caught type, for typed handlers. -/
  caught? : Option ReferenceId
  deriving DecidableEq, Repr

namespace Region

/-- A region in a message. -/
def text (region : Region) : String :=
  region.kind.name ++ " try@" ++ Text.hex 4 region.opener.toNat
    ++ " handler@" ++ Text.hex 4 region.handler.toNat
    ++ (region.filter?.elim "" fun filter => " filter@" ++ Text.hex 4 filter.toNat)
    ++ (region.caught?.elim "" fun caught => " type " ++ Text.hex0x 8 caught.toNat)

/-- Regions are ordered by opener, then by the declaration order of their kinds, then by handler,
filter and caught type, where a missing filter or type comes first. -/
instance instOrd : Ord Region where
  compare := compareLex (compareOn opener) (compareLex
    (compareOn fun region => Enumeration.ordinal region.kind) (compareLex
    (compareOn handler) (compareLex (compareOn filter?) (compareOn caught?))))

/-- Regions are ordered transitively. -/
instance instTransOrd : Std.TransOrd Region :=
  inferInstanceAs (Std.TransCmp (compareLex (compareOn opener) (compareLex
    (compareOn fun region : Region => Enumeration.ordinal region.kind) (compareLex
    (compareOn handler) (compareLex (compareOn filter?) (compareOn caught?))))))

/-- Regions that compare as equal are equal. -/
instance instLawfulEqOrd : Std.LawfulEqOrd Region where
  eq_of_compare {a b} h := by
    obtain ⟨ho, h⟩ := compareLex_eq_eq.1 h
    obtain ⟨hk, h⟩ := compareLex_eq_eq.1 h
    obtain ⟨hh, h⟩ := compareLex_eq_eq.1 h
    obtain ⟨hf, hc⟩ := compareLex_eq_eq.1 h
    have hk' : a.kind = b.kind :=
      Enumeration.ordinal_inj.1 (Std.LawfulEqOrd.eq_of_compare hk)
    rcases a with ⟨o, k, h, f, c⟩
    rcases b with ⟨o', k', h', f', c'⟩
    simp only [mk.injEq]
    exact ⟨Std.LawfulEqOrd.eq_of_compare ho, hk', Std.LawfulEqOrd.eq_of_compare hh,
      Std.LawfulEqOrd.eq_of_compare hf, Std.LawfulEqOrd.eq_of_compare hc⟩

end Region

/-- Finite sets of protected regions. -/
abbrev RegionSet := Std.ExtTreeSet Region

end KeyedVM
