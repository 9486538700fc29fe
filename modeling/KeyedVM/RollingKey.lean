import KeyedVM.Blob

set_option relaxedAutoImplicit false
set_option autoImplicit false

/-!
# The rolling key

Every byte of code is masked with the low byte of a 32-bit key.  After each byte the key is
multiplied by seven and the plain byte is added, modulo `2 ^ 32`, so the key at a place depends on
the whole path that led there.

## Main definitions

* `KeyedVM.RollingKey.next` — the key behind a plain byte;
* `KeyedVM.RollingKey.mask` — a byte under a key, in either direction;
* `KeyedVM.RollingKey.encrypt`, `KeyedVM.RollingKey.decrypt` — runs of bytes;
* `KeyedVM.RollingKey.replay` — the key at the end of a part of a blob.

## Main results

* `KeyedVM.RollingKey.decrypt_encrypt` — decryption undoes encryption and ends with its key.
-/

namespace KeyedVM.RollingKey

/-- The key behind the plain byte `plain`. -/
def next (key : Key) (plain : UInt8) : Key := key * 7 + plain.toUInt32

/-- A byte masked with the low byte of the key; masking twice gives the byte back. -/
def mask (key : Key) (byte : UInt8) : UInt8 := byte ^^^ key.toUInt8

/-- Plain bytes as they are stored, and the key behind them. -/
def encrypt (key : Key) : List UInt8 → List UInt8 × Key
  | [] => ([], key)
  | plain :: rest =>
    let (stored, last) := encrypt (next key plain) rest
    (mask key plain :: stored, last)

/-- Stored bytes in plain, and the key behind them. -/
def decrypt (key : Key) : List UInt8 → List UInt8 × Key
  | [] => ([], key)
  | stored :: rest =>
    let plain := mask key stored
    let (plains, last) := decrypt (next key plain) rest
    (plain :: plains, last)

/-- The key at `stop`, if decryption starts at `start` with `key`. -/
def replay (blob : Blob) (start : Offset) (key : Key) (stop : Offset) : Except Error Key :=
  if start ≤ stop then
    (blob.slice start (stop.toNat - start.toNat)).map fun stored => (decrypt key stored).2
  else .error .outOfBounds

/-- Masking twice gives back the byte. -/
@[simp] theorem mask_mask (key : Key) (byte : UInt8) : mask key (mask key byte) = byte := by
  rw [mask, mask, UInt8.xor_assoc, UInt8.xor_self, UInt8.xor_zero]

/-- Decryption undoes encryption and ends with the same key. -/
theorem decrypt_encrypt (key : Key) (plain : List UInt8) :
    decrypt key (encrypt key plain).1 = (plain, (encrypt key plain).2) := by
  induction plain generalizing key with
  | nil => rfl
  | cons byte rest ih => simp [encrypt, decrypt, ih]

/-- Encryption keeps the number of bytes. -/
@[simp] theorem length_encrypt (key : Key) (plain : List UInt8) :
    (encrypt key plain).1.length = plain.length := by
  induction plain generalizing key with
  | nil => rfl
  | cons byte rest ih => simp [encrypt, ih]

end KeyedVM.RollingKey
