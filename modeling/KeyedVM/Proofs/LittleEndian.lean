import KeyedVM.LittleEndian
import Mathlib.Tactic.Lemma
import Mathlib.Tactic.Ring

set_option relaxedAutoImplicit false
set_option autoImplicit false

/-!
# Numbers stored one after the other

Numbers of different widths, some of them signed, are appended to a buffer one after the other and
read back at a moving cursor.  A read knows only the bytes that it looks at and the format that it
is asked for, so what is read back is what was written if the formats are asked for in the order of
writing.  A read that would reach beyond the end of the buffer fails, and the cursor stays.

## Main definitions

* `KeyedVM.MachineInt` — a machine integer of one, two, four or eight bytes, with or without sign;
* `KeyedVM.MachineInt.writeAll` — a buffer with integers appended;
* `KeyedVM.IntFormat.readAll` — reads one after the other, with one cursor.

## Main results

* `KeyedVM.IntFormat.decode_encode` — a value that a format can store is read back;
* `KeyedVM.IntFormat.digit_encode` — the bytes of a value are its digits, the lowest one first;
* `KeyedVM.IntFormat.read_fails_iff` — which reads fail;
* `KeyedVM.MachineInt.readAll_writeAll` — reading undoes writing.
-/

namespace KeyedVM

/-! ## Bytes of a number -/

namespace LittleEndian

/-- As many numbers fit a width as bytes can write. -/
lemma capacity_eq_pow (width : Nat) : capacity width = 256 ^ width := by
  induction width with
  | zero => rfl
  | succ width ih => rw [capacity, ih, pow_succ, Nat.mul_comm]

/-- The bytes of a number are its digits, the lowest one first. -/
lemma toNat_getElem_toBytes {width n k : Nat} (hk : k < (toBytes width n).length) :
    (toBytes width n)[k].toNat = n / 256 ^ k % 256 := by
  induction width generalizing n k with
  | zero => simp at hk
  | succ width ih =>
    cases k with
    | zero => simp [toBytes]
    | succ k =>
      simp only [toBytes, List.getElem_cons_succ]
      rw [ih, Nat.div_div_eq_div_mul, pow_succ, Nat.mul_comm]

end LittleEndian

namespace IntFormat

variable {format : IntFormat} {value : Int}

/-- The bytes of a value hold it modulo the capacity of the format. -/
lemma ofBytes_encode (format : IntFormat) (value : Int) :
    (LittleEndian.ofBytes (format.encode value) : Int) = value % format.capacity := by
  have hpos : (0 : Int) < format.capacity := by
    exact_mod_cast LittleEndian.capacity_pos format.width
  have hnonneg := Int.emod_nonneg value (Int.ne_of_gt hpos)
  have hlt := Int.emod_lt_of_pos value hpos
  rw [encode, LittleEndian.ofBytes_toBytes]
  change ((((value % format.capacity).toNat % format.capacity : Nat)) : Int) = _
  rw [Nat.mod_eq_of_lt (by omega), Int.toNat_of_nonneg hnonneg]

/-- **A value that a format can store is read back.** -/
theorem decode_encode (h : format.Holds value) : format.decode (format.encode value) = value := by
  unfold Holds at h
  unfold decode
  split at h
  · next hsigned =>
    rw [if_pos hsigned, ofBytes_encode, Int.emod_bmod]
    exact Int.bmod_eq_of_le (by omega) (by omega)
  · next hsigned =>
    rw [if_neg hsigned, ofBytes_encode, Int.emod_eq_of_lt h.1 h.2]

/-- **The bytes of a value are its digits, the lowest one first.**  Division rounds down, so this
holds for negative values as well. -/
theorem digit_encode (format : IntFormat) (value : Int) {k : Nat}
    (hk : k < (format.encode value).length) :
    ((format.encode value)[k].toNat : Int) = value / 256 ^ k % 256 := by
  have hwidth : k < format.width := by simpa using hk
  -- all higher digits than those that are stored drop out
  obtain ⟨above, habove⟩ : ∃ above : Int, (format.capacity : Int) = 256 ^ k * (256 * above) := by
    refine ⟨256 ^ (format.width - (k + 1)), ?_⟩
    rw [capacity, LittleEndian.capacity_eq_pow, Nat.cast_pow, Nat.cast_ofNat, ← mul_assoc,
      ← pow_succ, ← pow_add]
    congr 1
    omega
  have hpos : (0 : Int) < format.capacity := by
    exact_mod_cast LittleEndian.capacity_pos format.width
  have hdigit : (value % format.capacity) / 256 ^ k
      = value / 256 ^ k + 256 * (-(above * (value / format.capacity))) := by
    have hsplit : value % format.capacity
        = value + 256 ^ k * (256 * (-(above * (value / format.capacity)))) := by
      rw [Int.emod_def]
      nth_rewrite 1 [habove]
      ring
    rw [hsplit, Int.add_mul_ediv_left _ _ (pow_ne_zero k (by decide))]
  have hbyte : (format.encode value)[k].toNat
      = (value % format.capacity).toNat / 256 ^ k % 256 :=
    LittleEndian.toNat_getElem_toBytes hk
  rw [hbyte]
  push_cast
  rw [Int.toNat_of_nonneg (Int.emod_nonneg value (Int.ne_of_gt hpos)), hdigit,
    Int.add_mul_emod_self_left]

/-! ## Reading at a cursor -/

/-- Reads of some formats, one after the other, whether they succeed or not. -/
def readAll (bytes : Array UInt8) : List IntFormat → UInt64 → List (Except Error Int) × UInt64
  | [], cursor => ([], cursor)
  | format :: rest, cursor =>
    let (first, cursor) := format.read bytes cursor
    let (others, cursor) := readAll bytes rest cursor
    (first :: others, cursor)

variable {bytes : Array UInt8} {cursor next : UInt64}

/-- A read for which there are enough bytes gives their value, and the cursor moves behind them. -/
lemma read_of_le (hnext : next.toNat = cursor.toNat + format.width)
    (hle : next.toNat ≤ bytes.size) :
    format.read bytes cursor
      = (.ok (format.decode (bytes.extract cursor.toNat next.toNat).toList), next) := by
  unfold read
  rw [advance?_eq_some_iff.2 hnext]
  exact if_neg (Nat.not_lt.2 hle)

/-- A read that would reach beyond the end fails, and the cursor stays. -/
lemma read_of_lt (hlt : bytes.size < cursor.toNat + format.width) :
    format.read bytes cursor = (.error .outOfBounds, cursor) := by
  unfold read
  cases hnext : advance? cursor format.width with
  | none => rfl
  | some next =>
    rw [← advance?_eq_some_iff.1 hnext] at hlt
    exact if_pos hlt

/-- **What a read does** in a buffer whose end is a word: it fails exactly if it would reach beyond
the end. -/
theorem read_fails_iff (hbytes : bytes.size < UInt64.size) :
    (∃ error, (format.read bytes cursor).1 = .error error) ↔
      bytes.size < cursor.toNat + format.width := by
  constructor
  · rintro ⟨error, hfails⟩
    by_contra hle
    obtain ⟨next, hnext⟩ : ∃ next : UInt64, next.toNat = cursor.toNat + format.width :=
      ⟨UInt64.ofNat (cursor.toNat + format.width), UInt64.toNat_ofNat_of_lt' (by omega)⟩
    rw [read_of_le hnext (by omega)] at hfails
    cases hfails
  · intro hlt
    exact ⟨.outOfBounds, by rw [read_of_lt hlt]⟩

/-- A read that fails leaves the cursor where it is, in any buffer. -/
lemma cursor_of_read_fails {error : Error} (h : (format.read bytes cursor).1 = .error error) :
    (format.read bytes cursor).2 = cursor := by
  unfold read at h ⊢
  cases hnext : advance? cursor format.width with
  | none => rfl
  | some next =>
    simp only [hnext] at h ⊢
    split at h
    · next hlt => rw [if_pos hlt]
    · cases h

/-- The bytes of a value that stands between other bytes. -/
lemma extract_of_append {front back : List UInt8}
    (hbytes : bytes.toList = front ++ (format.encode value ++ back)) :
    (bytes.extract front.length (front.length + format.width)).toList = format.encode value := by
  rw [Array.toList_extract, List.extract_eq_take_drop, hbytes, List.drop_left,
    Nat.add_sub_cancel_left, List.take_left' (format.length_encode value)]

/-- A value that stands between other bytes is read, and the cursor moves behind it. -/
lemma read_of_append (h : format.Holds value) {front back : List UInt8}
    (hbytes : bytes.toList = front ++ (format.encode value ++ back))
    (hsize : bytes.size < UInt64.size) (hcursor : cursor.toNat = front.length) :
    ∃ next : UInt64, next.toNat = front.length + format.width ∧
      format.read bytes cursor = (.ok value, next) := by
  have hlength : bytes.size = front.length + (format.width + back.length) := by
    rw [← Array.length_toList, hbytes]
    simp
  obtain ⟨next, hnext⟩ : ∃ next : UInt64, next.toNat = front.length + format.width :=
    ⟨UInt64.ofNat (front.length + format.width), UInt64.toNat_ofNat_of_lt' (by omega)⟩
  refine ⟨next, hnext, ?_⟩
  rw [read_of_le (by rw [hnext, hcursor]) (by omega), hnext, hcursor, extract_of_append hbytes,
    decode_encode h]

end IntFormat

/-! ## Machine integers -/

/-- A machine integer of one of the eight kinds. -/
inductive MachineInt where
  | u8 (n : UInt8)
  | u16 (n : UInt16)
  | u32 (n : UInt32)
  | u64 (n : UInt64)
  | i8 (n : Int8)
  | i16 (n : Int16)
  | i32 (n : Int32)
  | i64 (n : Int64)
  deriving DecidableEq

namespace MachineInt

/-- How a machine integer is stored. -/
def format : MachineInt → IntFormat
  | u8 _ => .u8
  | u16 _ => .u16
  | u32 _ => ⟨4, false⟩
  | u64 _ => ⟨8, false⟩
  | i8 _ => ⟨1, true⟩
  | i16 _ => ⟨2, true⟩
  | i32 _ => .i32
  | i64 _ => ⟨8, true⟩

/-- The number that a machine integer stands for. -/
def value : MachineInt → Int
  | u8 n => n.toNat
  | u16 n => n.toNat
  | u32 n => n.toNat
  | u64 n => n.toNat
  | i8 n => n.toInt
  | i16 n => n.toInt
  | i32 n => n.toInt
  | i64 n => n.toInt

/-- The digits of a machine integer to the base of 256, the lowest one first. -/
def digits (n : MachineInt) : List Int :=
  (List.range n.format.width).map fun k => n.value / 256 ^ k % 256

/-- A buffer with integers appended, one after the other. -/
def writeAll (front : Array UInt8) (ints : List MachineInt) : Array UInt8 :=
  ints.foldl (fun bytes n => n.format.append bytes n.value) front

/-- The format of a machine integer can store it. -/
lemma holds (n : MachineInt) : n.format.Holds n.value := by
  cases n with
  | u8 n | u16 n | u32 n | u64 n =>
    have hlt := n.toNat_lt
    refine ⟨Int.natCast_nonneg _, ?_⟩
    show (n.toNat : Int) < _
    exact_mod_cast hlt
  | i8 n | i16 n | i32 n | i64 n =>
    have hlow := n.le_toInt
    have hhigh := n.toInt_lt
    constructor
    · show -(_ : Int) ≤ 2 * n.toInt
      simp only [format, IntFormat.i32, IntFormat.capacity, LittleEndian.capacity]
      omega
    · show 2 * n.toInt < _
      simp only [format, IntFormat.i32, IntFormat.capacity, LittleEndian.capacity]
      omega

/-- The bytes of a machine integer are its digits. -/
lemma map_toNat_encode (n : MachineInt) :
    (n.format.encode n.value).map (fun byte => (byte.toNat : Int)) = n.digits := by
  apply List.ext_getElem
  · simp [digits]
  · intro k hk _
    rw [List.length_map] at hk
    simp only [List.getElem_map, digits, List.getElem_range]
    exact n.format.digit_encode n.value hk

/-- Writing appends the bytes of all the integers. -/
lemma toList_writeAll (front : Array UInt8) (ints : List MachineInt) :
    (writeAll front ints).toList
      = front.toList ++ ints.flatMap fun n => n.format.encode n.value := by
  induction ints generalizing front with
  | nil => simp [writeAll]
  | cons n ints ih =>
    have hfirst : (n.format.append front n.value).toList
        = front.toList ++ n.format.encode n.value := Array.toList_appendList
    rw [List.flatMap_cons, ← List.append_assoc, ← hfirst]
    exact ih _

/-- Integers that stand between other bytes are read, and the cursor moves behind the last one.

**Proof sketch.** Induction on the integers.  The first one stands behind the front, and the others
behind the front that is longer by its bytes. -/
lemma readAll_of_append {bytes : Array UInt8} (hsize : bytes.size < UInt64.size)
    (ints : List MachineInt) {front back : List UInt8}
    (hbytes : bytes.toList
      = front ++ ((ints.flatMap fun n => n.format.encode n.value) ++ back))
    {cursor : UInt64} (hcursor : cursor.toNat = front.length) :
    (IntFormat.readAll bytes (ints.map format) cursor).1 = ints.map (fun n => .ok n.value) ∧
      (IntFormat.readAll bytes (ints.map format) cursor).2.toNat = bytes.size - back.length := by
  induction ints generalizing front cursor with
  | nil =>
    have hlength : bytes.size = front.length + back.length := by
      rw [← Array.length_toList, hbytes]
      simp
    refine ⟨rfl, ?_⟩
    show cursor.toNat = _
    omega
  | cons n ints ih =>
    rw [List.flatMap_cons, List.append_assoc] at hbytes
    obtain ⟨next, hnext, hfirst⟩ := IntFormat.read_of_append n.holds hbytes hsize hcursor
    rw [← List.append_assoc] at hbytes
    obtain ⟨hvalues, hlast⟩ := ih hbytes (by rw [hnext]; simp)
    simp only [List.map_cons, IntFormat.readAll, hfirst]
    exact ⟨congrArg _ hvalues, hlast⟩

/-- **Reading undoes writing.**  Take any buffer and append any integers to it, of the eight kinds
in any order.  Behind the buffer stand the digits of the integers, the lowest one first.  If the end
of the result is a word, then reading the same kinds in the same order from the end of the buffer on
gives the same integers, and leaves the cursor at the end.  In any such buffer, and with the cursor
at any word, a read fails exactly if it would reach beyond the end, where the sum is taken without
wrapping; and whenever a read fails, the cursor stays where it is. -/
theorem readAll_writeAll (front : Array UInt8) (ints : List MachineInt) :
    (∃ written : List UInt8, writeAll front ints = front ++ written ∧
      written.map (fun byte => (byte.toNat : Int)) = ints.flatMap digits) ∧
    ((writeAll front ints).size < UInt64.size →
      IntFormat.readAll (writeAll front ints) (ints.map format) (UInt64.ofNat front.size)
        = (ints.map fun n => .ok n.value, UInt64.ofNat (writeAll front ints).size)) ∧
    ∀ (format : IntFormat) (bytes : Array UInt8) (cursor : UInt64),
      (bytes.size < UInt64.size →
        ((∃ error, (format.read bytes cursor).1 = .error error) ↔
          bytes.size < cursor.toNat + format.width)) ∧
      ((∃ error, (format.read bytes cursor).1 = .error error) →
        (format.read bytes cursor).2 = cursor) := by
  have hbytes : (writeAll front ints).toList
      = front.toList ++ ((ints.flatMap fun n => n.format.encode n.value) ++ []) := by
    rw [toList_writeAll, List.append_nil]
  refine ⟨⟨ints.flatMap fun n => n.format.encode n.value, ?_, ?_⟩, fun hsize => ?_,
    fun format bytes cursor => ⟨IntFormat.read_fails_iff, fun ⟨error, hfails⟩ => ?_⟩⟩
  · apply Array.toList_inj.1
    rw [toList_writeAll, Array.toList_appendList]
  · rw [List.map_flatMap]
    exact congrArg (ints.flatMap ·) (funext map_toNat_encode)
  · have hlength : (writeAll front ints).size = front.size
        + (ints.flatMap fun n => n.format.encode n.value).length := by
      rw [← Array.length_toList, toList_writeAll, List.length_append, Array.length_toList]
    have hcursor : (UInt64.ofNat front.size).toNat = front.toList.length :=
      UInt64.toNat_ofNat_of_lt' (by omega)
    obtain ⟨hvalues, hlast⟩ := readAll_of_append hsize ints hbytes hcursor
    apply Prod.ext
    · exact hvalues
    · apply UInt64.toNat_inj.1
      rw [hlast, UInt64.toNat_ofNat_of_lt' hsize]
      rfl
  · exact IntFormat.cursor_of_read_fails hfails

/-- Integers behind a byte are read back, negative ones included.  A read at the greatest word fails
and leaves the cursor there. -/
theorem readAll_writeAll_negative :
    IntFormat.readAll (writeAll #[7] [.i16 (-2), .u8 200, .i8 (-1)]) [⟨2, true⟩, .u8, ⟨1, true⟩] 1
      = ([.ok (-2), .ok 200, .ok (-1)], 5) ∧
    (∃ error, (IntFormat.u8.read #[7] 0xFFFFFFFFFFFFFFFF).1 = .error error) ∧
    (IntFormat.u8.read #[7] 0xFFFFFFFFFFFFFFFF).2 = 0xFFFFFFFFFFFFFFFF := by
  obtain ⟨-, hread, hfails⟩ := readAll_writeAll #[7] [.i16 (-2), .u8 200, .i8 (-1)]
  obtain ⟨hiff, hstays⟩ := hfails .u8 #[7] 0xFFFFFFFFFFFFFFFF
  have herror := (hiff (by decide)).2 (by decide)
  exact ⟨hread (by decide), herror, hstays herror⟩

end MachineInt

end KeyedVM
