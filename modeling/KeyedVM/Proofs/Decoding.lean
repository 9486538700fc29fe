import KeyedVM.Decoder
import KeyedVM.Proofs.Outcome

set_option relaxedAutoImplicit false
set_option autoImplicit false

/-!
# Places in the code

Reading the stream moves a cursor by machine words.  If the code is short enough for every place in
it to be a machine word, which holds for whatever fits into memory, then no step wraps around: the
cursor behind some bytes stands as far behind the cursor before them as there are bytes, and both
stand inside the code.  Bytes that lie at a known place are read as what they decrypt to.

## Main definitions

* `KeyedVM.Blob.Addressable` — every place in the code, and the end of it, is a machine word.

## Main results

* `KeyedVM.Cursor.byte?_eq`, `KeyedVM.Cursor.bytes?_eq` — bytes at a known place are decrypted;
* `KeyedVM.ByteTable.decode_eq_ok_iff`, `KeyedVM.bytes_of_decodeAt` — what decoding reads;
* `KeyedVM.decodeAt_bounds` — a decoded instruction lies inside the code;
* `KeyedVM.next_of_decodeAt`, `KeyedVM.lt_next_of_decodeAt` — the place behind it does not wrap;
* `KeyedVM.replay_of_decodeAt` — the key behind it is that of a replay of its bytes.
-/

namespace KeyedVM

/-- A sum of machine words that is one itself does not wrap around. -/
lemma toNat_add_of_lt_size {a b : UInt64} (h : a.toNat + b.toNat < UInt64.size) :
    (a + b).toNat = a.toNat + b.toNat := by
  rw [UInt64.toNat_add]
  exact Nat.mod_eq_of_lt h

/-- Every place in the code, and the end of it, is a machine word. -/
def Blob.Addressable (blob : Blob) : Prop := blob.size < UInt64.size

namespace Cursor

variable {blob : Blob}

/-! ## Bytes at a known place -/

/-- A byte at a known place is unmasked. -/
lemma byte?_eq (front : List UInt8) {stored : UInt8} {back : List UInt8}
    (hblob : blob.bytes.toList = front ++ stored :: back) (hfront : front.length < UInt64.size)
    (key : Key) :
    byte? blob ⟨UInt64.ofNat front.length, key⟩
      = some (RollingKey.mask key stored,
          ⟨UInt64.ofNat (front.length + 1), RollingKey.next key (RollingKey.mask key stored)⟩) := by
  have hstored : blob.bytes[front.length]? = some stored := by
    rw [← Array.getElem?_toList, hblob, List.getElem?_append_right (Nat.le_refl _)]
    simp
  simp only [byte?, UInt64.toNat_ofNat_of_lt' hfront, hstored, Option.map_some, UInt64.ofNat_add]
  rfl

/-- Bytes at a known place are decrypted.  The place behind them need not be a machine word. -/
lemma bytes?_eq (front : List UInt8) {stored back : List UInt8}
    (hblob : blob.bytes.toList = front ++ stored ++ back)
    (hsize : front.length + stored.length ≤ UInt64.size) (key : Key) :
    bytes? blob stored.length ⟨UInt64.ofNat front.length, key⟩
      = some ((RollingKey.decrypt key stored).1,
          ⟨UInt64.ofNat (front.length + stored.length), (RollingKey.decrypt key stored).2⟩) := by
  induction stored generalizing front key with
  | nil => rfl
  | cons byte stored ih =>
    have hfront : front.length < UInt64.size := by
      simp only [List.length_cons] at hsize
      omega
    have hsplit : blob.bytes.toList = front ++ byte :: (stored ++ back) := by
      simpa using hblob
    have hbyte := byte?_eq front hsplit hfront key
    have hrest := ih (front ++ [byte]) (by simpa using hblob)
      (by simp only [List.length_append, List.length_cons, List.length_nil] at hsize ⊢; omega)
      (RollingKey.next key (RollingKey.mask key byte))
    have hlength : front.length + 1 + stored.length = front.length + (stored.length + 1) := by
      omega
    simp only [List.length_append, List.length_cons, List.length_nil, Nat.zero_add,
      hlength] at hrest
    simp only [List.length_cons, bytes?, hbyte, Option.bind_eq_bind, Option.bind_some, hrest]
    rfl

/-- Bytes are read one after the other. -/
lemma bytes?_succ_eq_some_iff {n : Nat} {cursor after : Cursor} {byte : UInt8}
    {rest : List UInt8} :
    bytes? blob (n + 1) cursor = some (byte :: rest, after) ↔
      ∃ middle, cursor.byte? blob = some (byte, middle) ∧
        bytes? blob n middle = some (rest, after) := by
  simp only [bytes?, Option.bind_eq_bind, Option.bind_eq_some_iff, Prod.exists, Option.pure_def,
    Option.some.injEq, Prod.mk.injEq, List.cons.injEq]
  constructor
  · rintro ⟨_, middle, hbyte, _, _, hrest, ⟨rfl, rfl⟩, rfl⟩
    exact ⟨middle, hbyte, hrest⟩
  · rintro ⟨middle, hbyte, hrest⟩
    exact ⟨byte, middle, hbyte, rest, after, hrest, ⟨rfl, rfl⟩, rfl⟩

/-! ## Bounds -/

/-- A byte that is read lies inside the code, and the cursor behind it stands one place
further. -/
lemma byte?_bounds (hblob : blob.Addressable) {cursor after : Cursor} {plain : UInt8}
    (h : cursor.byte? blob = some (plain, after)) :
    after.position.toNat = cursor.position.toNat + 1 ∧ after.position.toNat ≤ blob.size := by
  obtain ⟨stored, hstored, hafter⟩ := Option.map_eq_some_iff.1 h
  obtain ⟨hlt, -⟩ := Array.getElem?_eq_some_iff.1 hstored
  simp only [Prod.mk.injEq] at hafter
  obtain ⟨-, rfl⟩ := hafter
  have hsize : blob.bytes.size < UInt64.size := hblob
  have hposition : (cursor.position + 1).toNat = cursor.position.toNat + 1 :=
    toNat_add_of_lt_size (Nat.lt_of_le_of_lt hlt hsize)
  exact ⟨hposition, by rw [hposition]; exact hlt⟩

/-- Bytes that are read lie inside the code, and the cursor behind them stands as many places
further. -/
lemma bytes?_bounds (hblob : blob.Addressable) {n : Nat} {cursor after : Cursor}
    {plain : List UInt8} (hcursor : cursor.position.toNat ≤ blob.size)
    (h : bytes? blob n cursor = some (plain, after)) :
    after.position.toNat = cursor.position.toNat + n ∧ after.position.toNat ≤ blob.size := by
  induction n generalizing cursor plain with
  | zero =>
    simp only [bytes?, Option.some.injEq, Prod.mk.injEq] at h
    obtain ⟨-, rfl⟩ := h
    exact ⟨rfl, hcursor⟩
  | succ n ih =>
    simp only [bytes?, Option.bind_eq_bind, Option.bind_eq_some_iff, Prod.exists] at h
    obtain ⟨byte, middle, hbyte, rest, after', hrest, hafter⟩ := h
    obtain ⟨-, rfl⟩ : byte :: rest = plain ∧ after' = after := by simpa using hafter
    obtain ⟨hmiddle, hle⟩ := byte?_bounds hblob hbyte
    obtain ⟨hlast, hbound⟩ := ih hle hrest
    exact ⟨by omega, hbound⟩

/-- **Bytes that are read are what the bytes stored there decrypt to.** -/
lemma bytes?_eq_decrypt (hblob : blob.Addressable) {n : Nat} {cursor after : Cursor}
    {plain : List UInt8} (hcursor : cursor.position.toNat ≤ blob.size)
    (h : bytes? blob n cursor = some (plain, after)) :
    ∃ stored, blob.slice cursor.position n = .ok stored ∧ stored.length = n ∧
      RollingKey.decrypt cursor.key stored = (plain, after.key) := by
  obtain ⟨hafter, hbound⟩ := bytes?_bounds hblob hcursor h
  have hfits : cursor.position.toNat + n ≤ blob.size := by omega
  have hsize : blob.bytes.toList.length = blob.size := Array.length_toList
  have haddressable : blob.size < UInt64.size := hblob
  -- the bytes that are read, and those before and behind them
  set front := blob.bytes.toList.take cursor.position.toNat
  set stored := (blob.bytes.toList.drop cursor.position.toNat).take n
  have hfront : front.length = cursor.position.toNat := by
    rw [List.length_take]
    omega
  have hstored : stored.length = n := by
    rw [List.length_take, List.length_drop]
    omega
  have hsplit : blob.bytes.toList
      = front ++ stored ++ (blob.bytes.toList.drop cursor.position.toNat).drop n := by
    rw [List.append_assoc, List.take_append_drop, List.take_append_drop]
  have hread := bytes?_eq front hsplit (by omega) cursor.key
  rw [hfront, hstored, UInt64.ofNat_toNat, h, Option.some.injEq, Prod.mk.injEq] at hread
  obtain ⟨rfl, rfl⟩ := hread
  refine ⟨stored, ?_, hstored, rfl⟩
  rw [Blob.slice, if_pos hfits, Array.toList_extract, List.extract_eq_take_drop,
    Nat.add_sub_cancel_left]

end Cursor

/-! ## Decoded instructions -/

variable {table : ByteTable} {blob : Blob}

/-- **What decoding reads**: as many bytes as the opcode says, of which the first one stands for the
opcode, the second one is ignored and the others hold the operand. -/
lemma ByteTable.decode_eq_ok_iff {cursor after : Cursor} {opcode : Opcode} {operand : Operand} :
    table.decode blob cursor = .ok (opcode, operand, after) ↔
      ∃ first filler rest,
        Cursor.bytes? blob opcode.size cursor = some (first :: filler :: rest, after) ∧
        table.opcodes.entry? first = some opcode ∧
        table.operand opcode.operandKind (LittleEndian.ofBytes rest) = .ok operand := by
  rw [Opcode.size, Nat.add_comm]
  constructor
  · intro h
    unfold decode at h
    split at h
    · cases h
    next first one hfirst =>
    split at h
    · cases h
    next opcode' hopcode =>
    split at h
    · cases h
    next filler two hfiller =>
    split at h
    · cases h
    next rest last hrest =>
    obtain ⟨read, hread, hsame⟩ := map_eq_ok_iff.1 h
    simp only [Prod.mk.injEq] at hsame
    obtain ⟨rfl, rfl, rfl⟩ := hsame
    exact ⟨first, filler, rest, Cursor.bytes?_succ_eq_some_iff.2
      ⟨one, hfirst, Cursor.bytes?_succ_eq_some_iff.2 ⟨two, hfiller, hrest⟩⟩, hopcode, hread⟩
  · rintro ⟨first, filler, rest, hbytes, hopcode, hread⟩
    obtain ⟨one, hfirst, hbytes⟩ := Cursor.bytes?_succ_eq_some_iff.1 hbytes
    obtain ⟨two, hfiller, hrest⟩ := Cursor.bytes?_succ_eq_some_iff.1 hbytes
    simp only [decode, hfirst, hopcode, hfiller, hrest, hread, Except.map]

/-- The operand that is read has the kind that was asked for. -/
lemma ByteTable.kind_of_operand {kind : OperandKind} {raw : Nat} {read : Operand}
    (h : table.operand kind raw = .ok read) : read.kind = kind := by
  unfold operand at h
  cases kind with
  | none | dword | qword =>
    obtain rfl := Except.ok.inj h
    rfl
  | register =>
    simp only at h
    split at h
    · obtain rfl := Except.ok.inj h
      rfl
    · cases h

variable {position : Offset} {key key' : Key} {instruction : Instruction}

/-- An instruction at a place is what decoding reads there, with the key behind it. -/
lemma decodeAt_eq_ok_iff :
    decodeAt table blob position key = .ok (instruction, key') ↔
      instruction.offset = position ∧ ∃ after, after.key = key' ∧
        table.decode blob ⟨position, key⟩
          = .ok (instruction.opcode, instruction.operand, after) := by
  unfold decodeAt
  constructor
  · intro h
    split at h
    · next opcode operand after hdecode =>
      simp only [Except.ok.injEq, Prod.mk.injEq] at h
      obtain ⟨rfl, rfl⟩ := h
      exact ⟨rfl, after, rfl, hdecode⟩
    · cases h
  · rintro ⟨rfl, after, rfl, hdecode⟩
    rw [hdecode]

/-- A decoded instruction stands where decoding began. -/
lemma offset_of_decodeAt (h : decodeAt table blob position key = .ok (instruction, key')) :
    instruction.offset = position :=
  (decodeAt_eq_ok_iff.1 h).1

/-- A decoded instruction has the operand that its opcode asks for. -/
lemma kind_of_decodeAt (h : decodeAt table blob position key = .ok (instruction, key')) :
    instruction.operand.kind = instruction.opcode.operandKind := by
  obtain ⟨-, after, -, hdecode⟩ := decodeAt_eq_ok_iff.1 h
  obtain ⟨_, _, _, -, -, hread⟩ := ByteTable.decode_eq_ok_iff.1 hdecode
  exact ByteTable.kind_of_operand hread

/-- **The bytes of a decoded instruction** lie in the code, and decrypt to the byte of its opcode, a
filler and the bytes of its operand. -/
lemma bytes_of_decodeAt (hblob : blob.Addressable)
    (h : decodeAt table blob position key = .ok (instruction, key')) :
    ∃ stored first filler rest, blob.slice position instruction.opcode.size = .ok stored ∧
      stored.length = instruction.opcode.size ∧
      RollingKey.decrypt key stored = (first :: filler :: rest, key') ∧
      table.opcodes.entry? first = some instruction.opcode ∧
      table.operand instruction.opcode.operandKind (LittleEndian.ofBytes rest)
        = .ok instruction.operand := by
  obtain ⟨-, after, rfl, hdecode⟩ := decodeAt_eq_ok_iff.1 h
  obtain ⟨first, filler, rest, hbytes, hopcode, hoperand⟩ :=
    ByteTable.decode_eq_ok_iff.1 hdecode
  -- a place at which a byte can be read lies inside the code
  have hposition : position.toNat ≤ blob.size := by
    rw [Opcode.size, Nat.add_comm] at hbytes
    obtain ⟨_, hfirst, -⟩ := Cursor.bytes?_succ_eq_some_iff.1 hbytes
    obtain ⟨hone, hle⟩ : _ = position.toNat + 1 ∧ _ := Cursor.byte?_bounds hblob hfirst
    omega
  obtain ⟨stored, hslice, hlength, hdecrypt⟩ := Cursor.bytes?_eq_decrypt hblob hposition hbytes
  exact ⟨stored, first, filler, rest, hslice, hlength, hdecrypt, hopcode, hoperand⟩

/-- **A decoded instruction lies inside the code**, and stands where decoding began. -/
theorem decodeAt_bounds (hblob : blob.Addressable)
    (h : decodeAt table blob position key = .ok (instruction, key')) :
    instruction.offset = position ∧ position.toNat + instruction.opcode.size ≤ blob.size := by
  obtain ⟨stored, -, -, -, hslice, -⟩ := bytes_of_decodeAt hblob h
  refine ⟨offset_of_decodeAt h, ?_⟩
  by_contra hbound
  rw [Blob.slice, if_neg hbound] at hslice
  cases hslice

/-- The size of an instruction is a machine word, so no part of it is lost. -/
lemma Instruction.toNat_size (instruction : Instruction) :
    instruction.size.toNat = instruction.opcode.size :=
  UInt64.toNat_ofNat_of_lt' (Nat.lt_of_le_of_lt instruction.opcode.size_le_ten (by decide))

/-- The place behind a decoded instruction does not wrap around. -/
lemma next_of_decodeAt (hblob : blob.Addressable)
    (h : decodeAt table blob position key = .ok (instruction, key')) :
    instruction.next.toNat = instruction.offset.toNat + instruction.opcode.size := by
  obtain ⟨rfl, hbound⟩ := decodeAt_bounds hblob h
  rw [Instruction.next, toNat_add_of_lt_size, instruction.toNat_size]
  rw [instruction.toNat_size]
  exact Nat.lt_of_le_of_lt hbound hblob

/-- The place behind a decoded instruction comes after it. -/
lemma lt_next_of_decodeAt (hblob : blob.Addressable)
    (h : decodeAt table blob position key = .ok (instruction, key')) :
    instruction.offset < instruction.next := by
  have htwo := instruction.opcode.two_le_size
  rw [UInt64.lt_iff_toNat_lt, next_of_decodeAt hblob h]
  omega

/-- **The key behind a decoded instruction is the one that a replay of its bytes ends with.** -/
theorem replay_of_decodeAt (hblob : blob.Addressable)
    (h : decodeAt table blob position key = .ok (instruction, key')) :
    RollingKey.replay blob instruction.offset key instruction.next = .ok key' := by
  obtain ⟨stored, _, _, _, hslice, -, hdecrypt, -⟩ := bytes_of_decodeAt hblob h
  obtain rfl := offset_of_decodeAt h
  have hle : instruction.offset ≤ instruction.next := UInt64.le_of_lt (lt_next_of_decodeAt hblob h)
  rw [RollingKey.replay, if_pos hle, next_of_decodeAt hblob h, Nat.add_sub_cancel_left, hslice,
    Except.map, hdecrypt]

end KeyedVM
