import KeyedVM.Error

set_option relaxedAutoImplicit false
set_option autoImplicit false

/-!
# Little-endian numbers

Numbers of several bytes are stored with the least significant byte first; negative numbers are
stored modulo a power of two.

## Main definitions

* `KeyedVM.LittleEndian.toBytes`, `KeyedVM.LittleEndian.ofBytes` — naturals and their bytes;
* `KeyedVM.LittleEndian.capacity` — how many numbers some bytes can hold;
* `KeyedVM.IntFormat` — a width and a choice of sign, with `encode` and `decode`;
* `KeyedVM.IntFormat.read` — a read at a cursor, which moves behind the value;
* `KeyedVM.IntFormat.readAt` — the same, for those who keep a cursor of their own.

## Main results

* `KeyedVM.LittleEndian.ofBytes_toBytes` — bytes hold a number modulo their capacity;
* `KeyedVM.LittleEndian.toBytes_ofBytes` — a number determines its bytes.
-/

namespace KeyedVM

namespace LittleEndian

/-- The `width` little-endian bytes of `n`; higher digits are dropped. -/
def toBytes : Nat → Nat → List UInt8
  | 0, _ => []
  | width + 1, n => UInt8.ofNat (n % 256) :: toBytes width (n / 256)

/-- The number that little-endian bytes stand for. -/
def ofBytes : List UInt8 → Nat
  | [] => 0
  | byte :: rest => byte.toNat + 256 * ofBytes rest

/-- The number of different values of `width` bytes. -/
def capacity : Nat → Nat
  | 0 => 1
  | width + 1 => 256 * capacity width

/-- Some number fits every width. -/
theorem capacity_pos (width : Nat) : 0 < capacity width := by
  induction width with
  | zero => decide
  | succ width ih =>
    rw [capacity]
    omega

/-- The bytes of a width are as many as the width. -/
@[simp] theorem length_toBytes (width n : Nat) : (toBytes width n).length = width := by
  induction width generalizing n with
  | zero => rfl
  | succ width ih => simp [toBytes, ih]

/-- Bytes hold a number below their capacity. -/
theorem ofBytes_lt (bytes : List UInt8) : ofBytes bytes < capacity bytes.length := by
  induction bytes with
  | nil => decide
  | cons byte rest ih =>
    have hbyte : byte.toNat < 256 := byte.toNat_lt
    simp only [ofBytes, List.length_cons, capacity]
    omega

/-- Bytes hold a number modulo their capacity. -/
theorem ofBytes_toBytes (width n : Nat) : ofBytes (toBytes width n) = n % capacity width := by
  induction width generalizing n with
  | zero => simp [toBytes, ofBytes, capacity, Nat.mod_one]
  | succ width ih =>
    have hbyte : (UInt8.ofNat (n % 256)).toNat = n % 256 := by
      simp [UInt8.toNat_ofNat']
    rw [toBytes, ofBytes, ih, hbyte, capacity, Nat.mod_mul]

/-- A number determines its bytes. -/
theorem toBytes_ofBytes (bytes : List UInt8) : toBytes bytes.length (ofBytes bytes) = bytes := by
  induction bytes with
  | nil => rfl
  | cons byte rest ih =>
    have hbyte : byte.toNat < 256 := byte.toNat_lt
    rw [List.length_cons, toBytes, ofBytes, Nat.add_mul_mod_self_left, Nat.mod_eq_of_lt hbyte,
      Nat.add_mul_div_left _ _ (by decide), Nat.div_eq_of_lt hbyte, Nat.zero_add, ih]
    simp

end LittleEndian

/-- A way to store a whole number: how many bytes it takes and whether it may be negative. -/
structure IntFormat where
  width : Nat
  signed : Bool
  deriving DecidableEq, Repr

namespace IntFormat

/-- One byte without sign. -/
def u8 : IntFormat := ⟨1, false⟩

/-- Two bytes without sign. -/
def u16 : IntFormat := ⟨2, false⟩

/-- Four bytes with sign. -/
def i32 : IntFormat := ⟨4, true⟩

/-- The number of different values of a format. -/
def capacity (format : IntFormat) : Nat := LittleEndian.capacity format.width

/-- The values that a format can store: from zero on, or centred around zero. -/
def Holds (format : IntFormat) (value : Int) : Prop :=
  if format.signed then -(format.capacity : Int) ≤ 2 * value ∧ 2 * value < format.capacity
  else 0 ≤ value ∧ value < format.capacity

/-- The bytes of a value. -/
def encode (format : IntFormat) (value : Int) : List UInt8 :=
  LittleEndian.toBytes format.width (value % format.capacity).toNat

/-- The value of some bytes. -/
def decode (format : IntFormat) (bytes : List UInt8) : Int :=
  if format.signed then Int.bmod (LittleEndian.ofBytes bytes) format.capacity
  else LittleEndian.ofBytes bytes

/-- Reads a value at a cursor: what is read, and where the cursor stands afterwards.  Nothing is
read beyond the end, or where the place behind the value is no word; the cursor then stays. -/
def read (format : IntFormat) (bytes : Array UInt8) (cursor : UInt64) :
    Except Error Int × UInt64 :=
  match advance? cursor format.width with
  | none => (.error .outOfBounds, cursor)
  | some next =>
    if bytes.size < next.toNat then (.error .outOfBounds, cursor)
    else (.ok (format.decode (bytes.extract cursor.toNat next.toNat).toList), next)

/-- The value stored at a cursor, and the cursor behind it. -/
def readAt (format : IntFormat) (bytes : Array UInt8) (cursor : UInt64) :
    Except Error (Int × UInt64) :=
  let (value, next) := format.read bytes cursor
  value.map (·, next)

/-- The bytes with a value appended. -/
def append (format : IntFormat) (bytes : Array UInt8) (value : Int) : Array UInt8 :=
  bytes ++ format.encode value

/-- An integer takes as many bytes as its format is wide. -/
@[simp] theorem length_encode (format : IntFormat) (value : Int) :
    (format.encode value).length = format.width := by
  simp [encode]

end IntFormat

end KeyedVM
