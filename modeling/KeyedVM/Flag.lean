import KeyedVM.Enumeration

set_option relaxedAutoImplicit false
set_option autoImplicit false

/-!
# Flags

The eight flags of the flags register.  Their canonical layout numbers them by bit in
declaration order; a protected program uses masks of its own, see `KeyedVM.ByteTable`.

## Main definitions

* `KeyedVM.Flag` — the flags, with their names and canonical bits;
* `KeyedVM.Flag.inBits` — the flags of a byte in canonical layout.
-/

namespace KeyedVM

/-- The flags of the machine. -/
inductive Flag where
  | overflow
  | carry
  | zero
  | sign
  /-- The comparison is unsigned. -/
  | unsigned
  /-- Three bits that steer the interpreter. -/
  | behav1
  | behav2
  | behav3
  deriving DecidableEq, Repr

namespace Flag

/-- The name of a flag. -/
def name : Flag → String
  | overflow => "Overflow"
  | carry => "Carry"
  | zero => "Zero"
  | sign => "Sign"
  | unsigned => "Unsigned"
  | behav1 => "Behav1"
  | behav2 => "Behav2"
  | behav3 => "Behav3"

/-- The canonical bit of a flag. -/
def bit : Flag → UInt8
  | overflow => 0x01
  | carry => 0x02
  | zero => 0x04
  | sign => 0x08
  | unsigned => 0x10
  | behav1 => 0x20
  | behav2 => 0x40
  | behav3 => 0x80

/-- The flags in declaration order. -/
def all : List Flag := [overflow, carry, zero, sign, unsigned, behav1, behav2, behav3]

/-- The flags in declaration order, with their words in messages. -/
instance : Enumeration Flag where
  all := all
  mem_all flag := by cases flag <;> decide
  nodup_all := by decide
  kind := "flag"
  spelling := name

/-- The flags that are set in a byte of canonical layout, in declaration order. -/
def inBits (bits : UInt8) : List Flag := all.filter fun flag => bits &&& flag.bit != 0

end Flag

end KeyedVM
