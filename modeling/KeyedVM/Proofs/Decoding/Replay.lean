import KeyedVM.Proofs.ByteTable.Sequential
import KeyedVM.Proofs.Decoding
import Mathlib.Logic.Relation

set_option relaxedAutoImplicit false
set_option autoImplicit false

/-!
# Decoding and replay agree on the key

The key at a place can be found in two ways.  Decoding reads the bytes of an instruction one after
the other, stops at the first one that is missing or unknown, and carries the key along; a replay
decrypts a whole part of the code at once and only looks at its bounds.  Both come to the same key,
for one instruction and for any number of instructions that follow each other.

## Main definitions

* `KeyedVM.Blob.between` — the bytes between two places;
* `KeyedVM.Decodes` — from one cursor to the cursor behind the instruction that is decoded there.

## Main results

* `KeyedVM.RollingKey.replay_eq_ok_iff`, `KeyedVM.RollingKey.replay_eq_error_iff` — when a replay
  succeeds, with which key, and when it fails;
* `KeyedVM.RollingKey.replay_trans` — replays of adjacent parts follow each other;
* `KeyedVM.decodeAt_congr` — decoding depends on the bytes of the instruction only;
* `KeyedVM.decoding_replays` — decoding agrees with replay.
-/

namespace KeyedVM

/-! ## Replays -/

/-- The bytes between two places, as far as they lie in the code. -/
def Blob.between (blob : Blob) (start stop : Offset) : List UInt8 :=
  (blob.bytes.extract start.toNat stop.toNat).toList

/-- What lies between two places lies before or behind any place between them. -/
lemma Blob.between_append (blob : Blob) {start middle stop : Offset} (hfirst : start ≤ middle)
    (hsecond : middle ≤ stop) :
    blob.between start middle ++ blob.between middle stop = blob.between start stop := by
  rw [UInt64.le_iff_toNat_le] at hfirst hsecond
  rw [between, between, between, ← Array.toList_append, Array.extract_append_extract,
    Nat.min_eq_left hfirst, Nat.max_eq_right hsecond]

namespace RollingKey

variable {blob : Blob} {start middle stop : Offset} {key between last : Key}

/-- Bytes in two parts are decrypted one part after the other. -/
lemma decrypt_append (key : Key) (front back : List UInt8) :
    decrypt key (front ++ back) = ((decrypt key front).1 ++ (decrypt (decrypt key front).2 back).1,
      (decrypt (decrypt key front).2 back).2) := by
  induction front generalizing key with
  | nil => rfl
  | cons stored rest ih => simp only [List.cons_append, decrypt, ih]

/-- The outcome of a replay: it succeeds exactly if its end lies neither before its start nor beyond
the code. -/
lemma replay_eq (blob : Blob) (start : Offset) (key : Key) (stop : Offset) :
    replay blob start key stop =
      if start ≤ stop ∧ stop.toNat ≤ blob.size then .ok (decrypt key (blob.between start stop)).2
      else .error .outOfBounds := by
  by_cases hle : start ≤ stop
  · have hend : start.toNat + (stop.toNat - start.toNat) = stop.toNat := by
      rw [UInt64.le_iff_toNat_le] at hle
      omega
    rw [replay, if_pos hle, Blob.slice, hend]
    by_cases hbound : stop.toNat ≤ blob.size
    · rw [if_pos hbound, if_pos ⟨hle, hbound⟩]
      rfl
    · rw [if_neg hbound, if_neg fun h => hbound h.2]
      rfl
  · rw [replay, if_neg hle, if_neg fun h => hle h.1]

/-- A replay succeeds between places of the blob, and then gives the key behind the bytes there. -/
lemma replay_eq_ok_iff :
    replay blob start key stop = .ok last ↔
      start ≤ stop ∧ stop.toNat ≤ blob.size ∧ (decrypt key (blob.between start stop)).2 = last := by
  rw [replay_eq]
  by_cases h : start ≤ stop ∧ stop.toNat ≤ blob.size
  · simp [h]
  · simp only [if_neg h, reduceCtorEq, false_iff]
    exact fun hall => h ⟨hall.1, hall.2.1⟩

/-- A replay fails exactly if its end lies before its start or behind the blob. -/
lemma replay_eq_error_iff {error : Error} :
    replay blob start key stop = .error error ↔
      error = .outOfBounds ∧ (stop < start ∨ blob.size < stop.toNat) := by
  rw [replay_eq, ← UInt64.not_le, ← Nat.not_le, ← not_and_or]
  by_cases h : start ≤ stop ∧ stop.toNat ≤ blob.size
  · simp [h]
  · rw [if_neg h, Except.error.injEq, eq_comm]
    exact (and_iff_left h).symm

/-- A replay of nothing keeps the key. -/
lemma replay_self (h : start.toNat ≤ blob.size) : replay blob start key start = .ok key := by
  refine replay_eq_ok_iff.2 ⟨UInt64.le_refl start, h, ?_⟩
  rw [Blob.between, Array.extract_eq_empty_of_le (Nat.min_le_left _ _)]
  rfl

/-- **Replays of adjacent parts follow each other.** -/
lemma replay_trans (hfirst : replay blob start key middle = .ok between)
    (hsecond : replay blob middle between stop = .ok last) :
    replay blob start key stop = .ok last := by
  obtain ⟨hle, -, rfl⟩ := replay_eq_ok_iff.1 hfirst
  obtain ⟨hle', hbound, rfl⟩ := replay_eq_ok_iff.1 hsecond
  refine replay_eq_ok_iff.2 ⟨UInt64.le_trans hle hle', hbound, ?_⟩
  rw [← blob.between_append hle hle', decrypt_append]

end RollingKey

/-! ## Decoding is local -/

/-- The bytes at a cursor are the same in any code that has the same bytes there. -/
lemma Cursor.bytes?_congr {blob other : Blob} (hblob : blob.Addressable) {n : Nat}
    {cursor after : Cursor} {plain : List UInt8} (h : bytes? blob n cursor = some (plain, after))
    (hsame : ∀ i, cursor.position.toNat ≤ i → i < cursor.position.toNat + n →
      other.bytes[i]? = blob.bytes[i]?) :
    bytes? other n cursor = some (plain, after) := by
  induction n generalizing cursor plain with
  | zero => exact h
  | succ n ih =>
    cases plain with
    | nil => simp [bytes?, Option.bind_eq_some_iff] at h
    | cons byte rest =>
      obtain ⟨middle, hbyte, hrest⟩ := bytes?_succ_eq_some_iff.1 h
      obtain ⟨hmiddle, -⟩ := byte?_bounds hblob hbyte
      refine bytes?_succ_eq_some_iff.2 ⟨middle, ?_, ih hrest fun i hfrom hto => ?_⟩
      · rw [← hbyte, byte?, byte?, hsame _ (Nat.le_refl _) (by omega)]
      · exact hsame i (by omega) (by omega)

section Decoding

variable {table : ByteTable} {blob other : Blob} {position : Offset} {key key' : Key}
  {instruction : Instruction}

/-- **Decoding depends on the bytes of the instruction only.** -/
lemma decodeAt_congr (hblob : blob.Addressable)
    (h : decodeAt table blob position key = .ok (instruction, key'))
    (hsame : ∀ i, position.toNat ≤ i → i < instruction.next.toNat →
      other.bytes[i]? = blob.bytes[i]?) :
    decodeAt table other position key = .ok (instruction, key') := by
  have hnext := next_of_decodeAt hblob h
  obtain ⟨rfl, after, rfl, hdecode⟩ := decodeAt_eq_ok_iff.1 h
  obtain ⟨first, filler, rest, hbytes, hopcode, hoperand⟩ := ByteTable.decode_eq_ok_iff.1 hdecode
  rw [hnext] at hsame
  have hother := Cursor.bytes?_congr hblob hbytes hsame
  exact decodeAt_eq_ok_iff.2 ⟨rfl, after, rfl,
    ByteTable.decode_eq_ok_iff.2 ⟨first, filler, rest, hother, hopcode, hoperand⟩⟩

/-- Decoding fails only with what is wrong at the place where it began. -/
lemma decodeAt_fails :
    FailsOnly (fun error => ∃ fault, error = .decode position fault)
      (decodeAt table blob position key) := by
  intro error h
  unfold decodeAt at h
  split at h
  · cases h
  · next fault _ => exact ⟨fault, (Except.error.inj h).symm⟩

/-! ## Instructions that follow each other -/

/-- From one cursor to the cursor behind the instruction that is decoded there. -/
def Decodes (table : ByteTable) (blob : Blob) (start stop : Cursor) : Prop :=
  ∃ instruction, decodeAt table blob start.position start.key = .ok (instruction, stop.key) ∧
    instruction.next = stop.position

/-- Whether one instruction is decoded between two cursors can be computed. -/
instance (table : ByteTable) (blob : Blob) (start stop : Cursor) :
    Decidable (Decodes table blob start stop) :=
  decidable_of_iff (((decodeAt table blob start.position start.key).toOption.any fun answer =>
      decide (answer.2 = stop.key ∧ answer.1.next = stop.position)) = true) <| by
    rw [Decodes]
    cases decodeAt table blob start.position start.key with
    | error error => simp [Except.toOption]
    | ok answer =>
      obtain ⟨instruction, key⟩ := answer
      simp [Except.toOption, and_assoc]

/-- What is decoded between two cursors replays the key of the first one to that of the second. -/
lemma Decodes.replay (hblob : blob.Addressable) {start stop : Cursor}
    (h : Decodes table blob start stop) :
    RollingKey.replay blob start.position start.key stop.position = .ok stop.key := by
  obtain ⟨instruction, hdecode, hnext⟩ := h
  have hreplay := replay_of_decodeAt hblob hdecode
  rwa [hnext, offset_of_decodeAt hdecode] at hreplay

/-- A replay over instructions that follow each other ends with the key behind the last one. -/
lemma replay_of_transGen (hblob : blob.Addressable) {start stop : Cursor}
    (h : Relation.TransGen (Decodes table blob) start stop) :
    RollingKey.replay blob start.position start.key stop.position = .ok stop.key := by
  induction h with
  | single hstep => exact hstep.replay hblob
  | tail _ hstep ih => exact RollingKey.replay_trans ih (hstep.replay hblob)

end Decoding

/-- **Decoding agrees with replay.**  A decoded instruction ends inside the code, the key behind it
is that of a replay of its bytes, and any other code with the same bytes there gives the same
answer; where decoding fails, the error is about the place where it began.  A replay over
instructions that follow each other ends with the key behind the last of them, and over no
instruction it keeps the key.  A replay can be cut at any place inside it, and fails exactly if its
end lies before its start or beyond the code. -/
theorem decoding_replays (table : ByteTable) (blob : Blob) (hblob : blob.Addressable) :
    (∀ position key instruction last,
      decodeAt table blob position key = .ok (instruction, last) →
        instruction.next.toNat ≤ blob.size ∧
        RollingKey.replay blob position key instruction.next = .ok last ∧
        ∀ other : Blob,
          (∀ i, position.toNat ≤ i → i < instruction.next.toNat →
            other.bytes[i]? = blob.bytes[i]?) →
          decodeAt table other position key = .ok (instruction, last)) ∧
    (∀ position key error, decodeAt table blob position key = .error error →
      ∃ fault, error = .decode position fault) ∧
    (∀ start stop, Relation.TransGen (Decodes table blob) start stop →
      RollingKey.replay blob start.position start.key stop.position = .ok stop.key) ∧
    (∀ position key, position.toNat ≤ blob.size →
      RollingKey.replay blob position key position = .ok key) ∧
    (∀ a b c key, a ≤ b → b ≤ c → c.toNat ≤ blob.size → ∃ middle last,
      RollingKey.replay blob a key b = .ok middle ∧
      RollingKey.replay blob b middle c = .ok last ∧
      RollingKey.replay blob a key c = .ok last) ∧
    (∀ start key stop, (∃ error, RollingKey.replay blob start key stop = .error error) ↔
      stop < start ∨ blob.size < stop.toNat) := by
  refine ⟨?_, fun position key error h => decodeAt_fails error h,
    fun start stop h => replay_of_transGen hblob h, fun _ _ h => RollingKey.replay_self h, ?_, ?_⟩
  · intro position key instruction last h
    obtain ⟨rfl, hbound⟩ := decodeAt_bounds hblob h
    refine ⟨?_, replay_of_decodeAt hblob h, fun other hsame => decodeAt_congr hblob h hsame⟩
    rw [next_of_decodeAt hblob h]
    exact hbound
  · intro a b c key hab hbc hc
    have hb : b.toNat ≤ blob.size := Nat.le_trans (UInt64.le_iff_toNat_le.1 hbc) hc
    obtain ⟨middle, hmiddle⟩ : ∃ middle, RollingKey.replay blob a key b = .ok middle :=
      ⟨_, RollingKey.replay_eq_ok_iff.2 ⟨hab, hb, rfl⟩⟩
    obtain ⟨last, hlast⟩ : ∃ last, RollingKey.replay blob b middle c = .ok last :=
      ⟨_, RollingKey.replay_eq_ok_iff.2 ⟨hbc, hc, rfl⟩⟩
    exact ⟨middle, last, hmiddle, hlast, RollingKey.replay_trans hmiddle hlast⟩
  · intro start key stop
    simp only [RollingKey.replay_eq_error_iff, exists_eq_left]

/-- Code of three instructions with operands of all sizes and a single byte behind them: the replay
over the instructions, decoding at the last byte, and a replay that reaches beyond the code. -/
theorem decoding_replays_threeLines :
    let blob : Blob := ⟨(Blob.ofBlocks .sequential [(0x5EED, [(.pushr .qword, .register .bp),
      (.pushi .dword, .dword 0xDEADBEEF), (.pushi .qword, .qword 0x0102030405060708)])]).bytes.push
        0xFF⟩
    blob.Addressable ∧ RollingKey.replay blob 0 0x5EED 19 = .ok 107320268 ∧
      (∃ fault, decodeAt .sequential blob 19 107320268 = .error (.decode 19 fault)) ∧
      ∃ error, RollingKey.replay blob 0 0x5EED 21 = .error error := by
  intro blob
  have hblob : blob.Addressable := show blob.size < UInt64.size by decide +kernel
  obtain ⟨-, hfails, hchain, -, -, hbounds⟩ := decoding_replays .sequential blob hblob
  have hone : Decodes .sequential blob ⟨0, 0x5EED⟩ ⟨3, 8337995⟩ := by decide +kernel
  have htwo : Decodes .sequential blob ⟨3, 8337995⟩ ⟨9, 1705280986⟩ := by decide +kernel
  have hthree : Decodes .sequential blob ⟨9, 1705280986⟩ ⟨19, 107320268⟩ := by decide +kernel
  have hnone : (decodeAt .sequential blob 19 107320268).toOption = none := by decide +kernel
  refine ⟨hblob, hchain _ _ (((Relation.TransGen.single hone).tail htwo).tail hthree), ?_,
    (hbounds 0 0x5EED 21).2 (Or.inr (by decide +kernel))⟩
  cases hlast : decodeAt .sequential blob 19 107320268 with
  | ok answer =>
    rw [hlast] at hnone
    cases hnone
  | error error =>
    obtain ⟨fault, rfl⟩ := hfails 19 107320268 error hlast
    exact ⟨fault, rfl⟩

end KeyedVM
