set_option relaxedAutoImplicit false
set_option autoImplicit false

/-!
# Words of the keyed machine

A keyed machine is a stack machine whose code is one stream of bytes, each of them masked by a
key that rolls on with every byte read.  This module fixes the machine words that all other
modules speak about.

## Main definitions

* `KeyedVM.Offset` — a position in the code stream;
* `KeyedVM.Key` — the state of the rolling key;
* `KeyedVM.ExportId`, `KeyedVM.ReferenceId` — names of functions and of metadata items;
* `KeyedVM.byte?`, `KeyedVM.dword?` — words that fit a narrower width;
* `KeyedVM.advance?` — a word that is moved on without wrapping around.

A word stands for a number where a number is needed, and a number for the word that it is modulo
the number of words.
-/

namespace KeyedVM

/-- A position in the code stream.  Positions are 64-bit words, because the code computes them
with the machine's own wrapping arithmetic. -/
abbrev Offset := UInt64

/-- The state of the rolling key.  Its low byte masks the next byte of the stream. -/
abbrev Key := UInt32

/-- The number under which a function of the machine is exported. -/
abbrev ExportId := UInt32

/-- The number under which the code refers to a type, a method or a field. -/
abbrev ReferenceId := UInt32

/-- A word stands for the number that it is. -/
instance wordToNat : Coe UInt64 Nat := ⟨UInt64.toNat⟩

/-- A number stands for a word, modulo the number of words. -/
instance natToWord : Coe Nat UInt64 := ⟨UInt64.ofNat⟩

/-- The word as a byte, if it is one. -/
def byte? (n : UInt64) : Option UInt8 := if n.toNat < UInt8.size then some n.toUInt8 else none

/-- The word as a double word, if it is one. -/
def dword? (n : UInt64) : Option UInt32 :=
  if n.toNat < UInt32.size then some n.toUInt32 else none

/-- The word that is greater by `count`, if there is one. -/
def advance? (word : UInt64) (count : Nat) : Option UInt64 :=
  if word.toNat + count < UInt64.size then some (word + count) else none

/-- A word is moved on to the one that is greater by the count. -/
theorem advance?_eq_some_iff {word next : UInt64} {count : Nat} :
    advance? word count = some next ↔ next.toNat = word.toNat + count := by
  have hsum : word.toNat + count < UInt64.size →
      (word + UInt64.ofNat count).toNat = word.toNat + count := by
    intro hlt
    rw [UInt64.toNat_add, UInt64.toNat_ofNat_of_lt' (by omega)]
    exact Nat.mod_eq_of_lt hlt
  unfold advance?
  constructor
  · intro h
    split at h
    · next hlt =>
      obtain rfl := Option.some.inj h
      exact hsum hlt
    · cases h
  · intro hnext
    have hlt : word.toNat + count < UInt64.size := hnext ▸ next.toNat_lt
    rw [if_pos hlt, Option.some.injEq, ← UInt64.toNat_inj, hsum hlt, hnext]

end KeyedVM
