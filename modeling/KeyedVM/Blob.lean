import KeyedVM.LittleEndian

set_option relaxedAutoImplicit false
set_option autoImplicit false

/-!
# Code blobs

The code of all functions of a protected program lies in one blob of bytes.

## Main definitions

* `KeyedVM.Blob` — the bytes;
* `KeyedVM.Blob.slice` — a part of them, if it lies inside the blob;
* `KeyedVM.Blob.read` — a number stored in the clear.
-/

namespace KeyedVM

/-- The code of a protected program. -/
structure Blob where
  bytes : Array UInt8
  deriving DecidableEq

namespace Blob

/-- Number of bytes. -/
def size (blob : Blob) : Nat := blob.bytes.size

/-- The `length` bytes from `offset` on.  The end is computed without wrapping. -/
def slice (blob : Blob) (offset : Offset) (length : Nat) : Except Error (List UInt8) :=
  if offset.toNat + length ≤ blob.size then
    .ok (blob.bytes.extract offset.toNat (offset.toNat + length)).toList
  else .error .outOfBounds

/-- The number stored in the clear at `offset`. -/
def read (blob : Blob) (format : IntFormat) (offset : Offset) : Except Error Int :=
  (blob.slice offset format.width).map format.decode

/-- The one-line description of a blob. -/
def describe (blob : Blob) : String := "BytecodeBlob \x7b len: " ++ toString blob.size ++ " \x7d"

/-- The blob without the bytes from `length` on. -/
def truncate (blob : Blob) (length : Nat) : Blob := ⟨blob.bytes.extract 0 length⟩

/-- The blob with the bytes from `offset` on overwritten; what reaches beyond the end is
dropped. -/
def patch (blob : Blob) (offset : Nat) (bytes : List UInt8) : Blob :=
  ⟨blob.bytes.mapIdx fun i old => if i < offset then old else bytes.getD (i - offset) old⟩

end Blob

end KeyedVM
