import KeyedVM.Proofs.Assembler.RoundTrip

set_option relaxedAutoImplicit false
set_option autoImplicit false

/-!
# Writing decoded instructions again

Decoding ignores the filler byte of an instruction, and the assembler always writes a zero there.
An instruction that was decoded and is written again under the same key therefore takes as many
bytes as before, but they are the same bytes only if the filler was zero.  The filler also enters
the key, and since seven is invertible modulo `2 ^ 32`, no operand behind it can make up for that:
the key behind the instruction is the same only if the filler was zero.

## Main results

* `KeyedVM.RollingKey.encrypt_decrypt` — encryption undoes decryption and ends with its key;
* `KeyedVM.RollingKey.encrypt_inj`, `KeyedVM.RollingKey.key_encrypt_inj` — stored bytes tell plain
  bytes apart, and the key behind some bytes tells the keys before them apart;
* `KeyedVM.ByteTable.operandValue_of_operand` — an operand is stored as what it was read from;
* `KeyedVM.Assembler.emit_decoded` — what a decoded instruction is written as.
-/

namespace KeyedVM

/-! ## Keys and bytes -/

namespace RollingKey

variable {key other : Key}

/-- Encryption undoes decryption and ends with the same key. -/
theorem encrypt_decrypt (key : Key) (stored : List UInt8) :
    encrypt key (decrypt key stored).1 = (stored, (decrypt key stored).2) := by
  induction stored generalizing key with
  | nil => rfl
  | cons byte rest ih => simp [encrypt, decrypt, ih]

/-- Decryption keeps the number of bytes. -/
lemma length_decrypt (key : Key) (stored : List UInt8) :
    (decrypt key stored).1.length = stored.length := by
  rw [← length_encrypt key, encrypt_decrypt]

/-- Under the same key, different bytes are stored as different bytes. -/
lemma encrypt_inj {plain plain' : List UInt8} :
    (encrypt key plain).1 = (encrypt key plain').1 ↔ plain = plain' := by
  constructor
  · intro h
    have hplain := congrArg (fun stored => (decrypt key stored).1) h
    simpa only [decrypt_encrypt] using hplain
  · rintro rfl
    rfl

/-- The key behind a byte tells bytes apart. -/
lemma next_right_inj {byte byte' : UInt8} : next key byte = next key byte' ↔ byte = byte' := by
  rw [next, next, UInt32.add_right_inj]
  constructor
  · intro h
    have hnat := congrArg UInt32.toNat h
    rw [UInt8.toNat_toUInt32, UInt8.toNat_toUInt32] at hnat
    exact UInt8.toNat_inj.1 hnat
  · rintro rfl
    rfl

/-- The key behind a byte tells the keys before it apart, because seven is invertible. -/
lemma next_left_inj {byte : UInt8} : next key byte = next other byte ↔ key = other := by
  rw [next, next, UInt32.add_left_inj]
  constructor
  · intro h
    have hinverse : (7 : UInt32) * 3067833783 = 1 := by decide
    calc key = key * (7 * 3067833783) := by rw [hinverse, UInt32.mul_one]
      _ = other * (7 * 3067833783) := by rw [← UInt32.mul_assoc, h, UInt32.mul_assoc]
      _ = other := by rw [hinverse, UInt32.mul_one]
  · rintro rfl
    rfl

/-- The key behind some bytes tells the keys before them apart. -/
lemma key_encrypt_inj {plain : List UInt8} :
    (encrypt key plain).2 = (encrypt other plain).2 ↔ key = other := by
  induction plain generalizing key other with
  | nil => exact Iff.rfl
  | cons byte rest ih => exact ih.trans next_left_inj

end RollingKey

/-! ## Operands -/

/-- **An operand is stored as what it was read from**, if that is a number of the right size. -/
lemma ByteTable.operandValue_of_operand {table : ByteTable} {kind : OperandKind} {raw : Nat}
    {operand : Operand} (h : table.operand kind raw = .ok operand)
    (hraw : raw < LittleEndian.capacity kind.size) : table.operandValue operand = raw := by
  cases kind with
  | none =>
    obtain rfl := Except.ok.inj h
    exact (Nat.lt_one_iff.1 hraw).symm
  | register =>
    simp only [ByteTable.operand] at h
    split at h
    · next register hregister =>
      obtain rfl := Except.ok.inj h
      have hbyte : table.registers.byteOf register = UInt8.ofNat raw :=
        Assignment.byteOf_eq_iff_entry.2 hregister
      rw [ByteTable.operandValue, hbyte]
      exact UInt8.toNat_ofNat_of_lt' hraw
    · cases h
  | dword =>
    obtain rfl := Except.ok.inj h
    exact UInt32.toNat_ofNat_of_lt' hraw
  | qword =>
    obtain rfl := Except.ok.inj h
    exact UInt64.toNat_ofNat_of_lt' hraw

/-! ## Instructions -/

/-- **A decoded instruction and its bytes**: what is stored decrypts to the plain bytes of the
instruction, except that the filler need not be zero. -/
lemma encode_of_decodeAt {table : ByteTable} {blob : Blob} {position : Offset} {key key' : Key}
    {instruction : Instruction} (hblob : blob.Addressable)
    (h : decodeAt table blob position key = .ok (instruction, key')) :
    ∃ stored first filler rest, blob.slice position instruction.opcode.size = .ok stored ∧
      RollingKey.decrypt key stored = (first :: filler :: rest, key') ∧
      table.encode instruction.opcode instruction.operand = first :: 0 :: rest := by
  obtain ⟨stored, first, filler, rest, hslice, hlength, hdecrypt, hopcode, hoperand⟩ :=
    bytes_of_decodeAt hblob h
  have hrest : rest.length = instruction.opcode.operandKind.size := by
    have hplain : (first :: filler :: rest).length = stored.length := by
      rw [← RollingKey.length_decrypt key stored, hdecrypt]
    rw [hlength, Opcode.size, List.length_cons, List.length_cons] at hplain
    omega
  have hfirst : table.opcodes.byteOf instruction.opcode = first :=
    Assignment.byteOf_eq_iff_entry.2 hopcode
  have hvalue : table.operandValue instruction.operand = LittleEndian.ofBytes rest :=
    ByteTable.operandValue_of_operand hoperand (hrest ▸ LittleEndian.ofBytes_lt rest)
  refine ⟨stored, first, filler, rest, hslice, hdecrypt, ?_⟩
  rw [ByteTable.encode, hfirst, hvalue, ← hrest, LittleEndian.toBytes_ofBytes]

namespace Assembler

/-- **What a decoded instruction is written as.**  An instruction that was decoded under the key in
force can be appended, and takes as many bytes as it has in the code.  These are the bytes of the
code exactly if the filler there is zero, and the key behind them is the one behind the decoded
instruction exactly if the filler is zero. -/
theorem emit_decoded {table : ByteTable} {blob : Blob} (hblob : blob.Addressable)
    (assembler : Assembler) {position : Offset} {instruction : Instruction} {last : Key}
    (h : decodeAt table blob position assembler.key = .ok (instruction, last)) :
    ∃ stored filler added after,
      blob.slice position instruction.size.toNat = .ok stored ∧
      (RollingKey.decrypt assembler.key stored).1[1]? = some filler ∧
      assembler.emit table instruction.opcode instruction.operand = .ok after ∧
      after.bytes.toList = assembler.bytes.toList ++ added ∧
      added.length = instruction.size.toNat ∧
      (added = stored ↔ filler = 0) ∧ (after.key = last ↔ filler = 0) := by
  obtain ⟨stored, first, filler, rest, hslice, hdecrypt, hencode⟩ := encode_of_decodeAt hblob h
  have hsize := instruction.toNat_size
  -- what was stored is what the decrypted bytes are encrypted to
  have hencrypt := RollingKey.encrypt_decrypt assembler.key stored
  rw [hdecrypt] at hencrypt
  obtain ⟨-, hemit⟩ | ⟨hkind, -⟩ :=
    emit_cases table assembler instruction.opcode instruction.operand
  · refine ⟨stored, filler, _, _, hsize ▸ hslice, by rw [hdecrypt]; rfl, hemit,
      Array.toList_appendList, ?_, ?_, ?_⟩
    · rw [RollingKey.length_encrypt, ByteTable.length_encode, hsize]
    · calc (RollingKey.encrypt assembler.key (table.encode _ _)).1 = stored
          ↔ (RollingKey.encrypt assembler.key (first :: 0 :: rest)).1
            = (RollingKey.encrypt assembler.key (first :: filler :: rest)).1 := by
            rw [hencode, hencrypt]
        _ ↔ first :: 0 :: rest = first :: filler :: rest := RollingKey.encrypt_inj
        _ ↔ filler = 0 := by simp [eq_comm]
    · let between := RollingKey.next assembler.key first
      calc (RollingKey.encrypt assembler.key (table.encode _ _)).2 = last
          ↔ (RollingKey.encrypt assembler.key (first :: 0 :: rest)).2
            = (RollingKey.encrypt assembler.key (first :: filler :: rest)).2 := by
            rw [hencode, hencrypt]
        _ ↔ (RollingKey.encrypt (RollingKey.next between 0) rest).2
            = (RollingKey.encrypt (RollingKey.next between filler) rest).2 := Iff.rfl
        _ ↔ RollingKey.next between 0 = RollingKey.next between filler :=
          RollingKey.key_encrypt_inj
        _ ↔ filler = 0 := RollingKey.next_right_inj.trans eq_comm
  · exact absurd (kind_of_decodeAt h) hkind

/-- An instruction with the filler 5: written again it has as many bytes as before, but other ones,
and leaves another key. -/
theorem emit_decoded_filled :
    let blob : Blob := ⟨(RollingKey.encrypt 7
      (ByteTable.sequential.opcodes.byteOf (.pushi .dword) :: 5 :: [26, 0, 0, 0])).1.toArray⟩
    ∃ last after, decodeAt .sequential blob 0 7 = .ok (⟨0, .pushi .dword, .dword 26⟩, last) ∧
      (start 7).emit .sequential (.pushi .dword) (.dword 26) = .ok after ∧
      after.bytes.size = 6 ∧ after.bytes ≠ blob.bytes ∧ after.key ≠ last := by
  intro blob
  have hblob : blob.Addressable := show blob.size < UInt64.size by decide +kernel
  obtain ⟨⟨_, last⟩, hdecode, rfl⟩ :=
    exists_eq_ok (p := fun answer => answer.1 = ⟨0, .pushi .dword, .dword 26⟩)
      (x := decodeAt .sequential blob 0 7) (by decide +kernel)
  obtain ⟨stored, filler, added, after, hslice, hfiller, hemit, hadded, hlength, hsame, hkey⟩ :=
    emit_decoded hblob (start 7) hdecode
  have hstored : stored = blob.bytes.toList := by
    have hwhole : (blob.slice 0 6).toOption = some blob.bytes.toList := by decide +kernel
    rw [show blob.slice 0 6 = .ok stored from hslice] at hwhole
    exact Option.some.inj hwhole
  have hfive : filler = 5 := by
    have hplain : (RollingKey.decrypt 7 blob.bytes.toList).1[1]? = some 5 := by decide +kernel
    rw [← hstored] at hplain
    exact Option.some.inj (hfiller.symm.trans hplain)
  refine ⟨last, after, hdecode, hemit, size_of_emit hemit, ?_, ?_⟩
  · intro hbytes
    rw [hbytes, ← hstored] at hadded
    exact absurd (hsame.1 hadded.symm) (by rw [hfive]; decide)
  · exact fun h => absurd (hkey.1 h) (by rw [hfive]; decide)

end Assembler

end KeyedVM
