import KeyedVM.Proofs.Assembler.Passes
import KeyedVM.Proofs.Inference.Faults
import KeyedVM.Proofs.LittleEndian
import Mathlib.Data.Bool.AllAny

set_option relaxedAutoImplicit false
set_option autoImplicit false

/-!
# Switch tables are read back

The assembler writes the number of entries of a switch table in front of the first entry and answers
with the address of the first entry.  The analysis is given this address and finds the number two
bytes before it.  The number is stored in two bytes, so a table with more entries than these can
count is read back only in part.  Entries are signed and relative to a base, and what is read back
are places in the code: a sum that is none is an error.

Both sides meet at the numbers that stand in the blob at a place.

## Main definitions

* `KeyedVM.Blob.numberAt` — the number that stands at a place;
* `KeyedVM.Blob.switchCount`, `KeyedVM.Blob.switchEntry` — a switch table as it stands in a blob;
* `KeyedVM.Blob.HoldsSwitch` — the table lies inside the blob and all its targets are offsets.

## Main results

* `KeyedVM.Image.switchTargets_eq_ok_iff` — a table is read exactly if the blob holds it;
* `KeyedVM.Pass.runThrough_switchTable` — whatever table a pass has written is read back in the end.
-/

namespace KeyedVM

/-! ## Stored numbers -/

namespace Blob

variable {blob : Blob} {format : IntFormat} {value : Int}

/-- The number that stands at a place. -/
def numberAt (blob : Blob) (format : IntFormat) (place : Nat) : Int :=
  format.decode (blob.bytes.extract place (place + format.width)).toList

/-- A number can be read exactly if all its bytes lie inside the blob. -/
lemma read_eq_ok_iff {offset : Offset} :
    blob.read format offset = .ok value ↔
      offset.toNat + format.width ≤ blob.size ∧ blob.numberAt format offset.toNat = value := by
  unfold read slice
  split
  · next h => simp [h, Except.map, numberAt]
  · next h => simp [h, Except.map]

/-- The number that stands between other bytes. -/
lemma numberAt_of_append {front back : List UInt8}
    (hblob : blob.bytes.toList = front ++ (format.encode value ++ back)) :
    blob.numberAt format front.length = format.decode (format.encode value) := by
  rw [numberAt, IntFormat.extract_of_append hblob]

end Blob

/-! ## Reading a table -/

/-- A number that is an offset. -/
def IsOffset (value : Int) : Prop := 0 ≤ value ∧ value < UInt64.size

/-- Whether a number is an offset can be computed. -/
instance (value : Int) : Decidable (IsOffset value) := inferInstanceAs (Decidable (_ ∧ _))

namespace Blob

/-- The number of entries that stands right before an address. -/
def switchCount (blob : Blob) (address : Offset) : Nat :=
  (blob.numberAt .u16 (address.toNat - 2)).toNat

/-- An entry of the table at an address. -/
def switchEntry (blob : Blob) (address : Offset) (arm : Nat) : Int :=
  blob.numberAt .i32 (address.toNat + 4 * arm)

/-- The table at an address lies inside the blob, and all its targets are offsets. -/
structure HoldsSwitch (blob : Blob) (address base : Offset) : Prop where
  room : 2 ≤ address.toNat
  count : address.toNat - 2 + 2 ≤ blob.size
  entries : ∀ arm < blob.switchCount address, address.toNat + 4 * arm + 4 ≤ blob.size
  targets : ∀ arm < blob.switchCount address,
    IsOffset (base.toNat + blob.switchEntry address arm)

end Blob

/-- The distance of an entry from the first one does not wrap around if it is an offset. -/
lemma toNat_distance {arm : Nat} (h : 4 * arm < UInt64.size) :
    (UInt64.ofNat arm * 4).toNat = 4 * arm := by
  rw [UInt64.toNat_mul, UInt64.toNat_ofNat']
  change arm % UInt64.size * 4 % UInt64.size = _
  rw [Nat.mod_eq_of_lt (by omega : arm < UInt64.size), Nat.mul_comm, Nat.mod_eq_of_lt h]

/-- The place of an entry does not wrap around if it is an offset. -/
lemma toNat_entry {address : Offset} {arm : Nat} (h : address.toNat + 4 * arm < UInt64.size) :
    (address + UInt64.ofNat arm * 4).toNat = address.toNat + 4 * arm := by
  have hdistance : (UInt64.ofNat arm * 4).toNat = 4 * arm := toNat_distance (by omega)
  rw [toNat_add_of_lt_size (by rwa [hdistance]), hdistance]

/-- Whether entries lie inside a blob can be told from the places that are looked at.

**Proof sketch.** Induction on the entry.  Before a place could wrap around, the entry before it
does not lie inside the blob. -/
lemma Blob.entries_inside_iff {blob : Blob} (hblob : blob.Addressable) (address : Offset)
    (count : Nat) :
    (∀ arm < count, (address + UInt64.ofNat arm * 4).toNat + 4 ≤ blob.size) ↔
      ∀ arm < count, address.toNat + 4 * arm + 4 ≤ blob.size := by
  have hsize : blob.size < UInt64.size := hblob
  constructor
  · intro h arm harm
    induction arm with
    | zero =>
      rw [← toNat_entry address.toNat_lt]
      exact h 0 harm
    | succ arm ih =>
      have hbefore := ih (Nat.lt_of_succ_lt harm)
      rw [← toNat_entry (by omega)]
      exact h (arm + 1) harm
  · intro h arm harm
    have hinside := h arm harm
    rwa [toNat_entry (by omega)]

namespace Image

variable {image : Image} {offset address base : Offset} {targets : List Offset}

/-- An entry is read exactly if it lies inside the blob and its target is an offset. -/
lemma switchArm_eq_ok_iff (place : Offset) (outside fault : Error) (target : Offset) :
    (do
      let relative ← (image.blob.read .i32 place).mapError fun _ => outside
      let target : Int := base.toNat + relative
      if 0 ≤ target ∧ target < UInt64.size then return UInt64.ofNat target.toNat
      else throw fault) = .ok target ↔
      (place.toNat + 4 ≤ image.blob.size ∧
        IsOffset (base.toNat + image.blob.numberAt .i32 place.toNat)) ∧
      UInt64.ofNat (base.toNat + image.blob.numberAt .i32 place.toNat).toNat = target := by
  simp only [bind_eq_ok_iff, mapError_eq_ok_iff, Blob.read_eq_ok_iff]
  constructor
  · rintro ⟨_, ⟨hinside, rfl⟩, h⟩
    split at h
    · next hoffset => exact ⟨⟨hinside, hoffset⟩, pure_eq_ok_iff.1 h⟩
    · exact absurd h throw_ne_ok
  · rintro ⟨⟨hinside, hoffset⟩, rfl⟩
    exact ⟨_, ⟨hinside, rfl⟩, if_pos hoffset⟩

/-- The entries are read exactly if they lie inside the blob and their targets are offsets. -/
lemma switchArms_eq_ok_iff (hblob : image.blob.Addressable) (count : Nat) (outside : Error)
    (fault : Nat → Error) :
    ((List.range count).mapM fun arm => do
      let relative ← (image.blob.read .i32 (address + UInt64.ofNat arm * 4)).mapError
        fun _ => outside
      let target : Int := base.toNat + relative
      if 0 ≤ target ∧ target < UInt64.size then return UInt64.ofNat target.toNat
      else throw (fault arm)) = .ok targets ↔
      ((∀ arm < count, address.toNat + 4 * arm + 4 ≤ image.blob.size) ∧
        ∀ arm < count, IsOffset (base.toNat + image.blob.switchEntry address arm)) ∧
      (List.range count).map (fun arm =>
        UInt64.ofNat (base.toNat + image.blob.switchEntry address arm).toNat) = targets := by
  have hsize : image.blob.size < UInt64.size := hblob
  rw [mapM_eq_ok_iff_of_forall fun arm _ => switchArm_eq_ok_iff _ outside (fault arm)]
  simp only [List.mem_range, forall_and]
  rw [image.blob.entries_inside_iff hblob, and_assoc, and_assoc]
  refine and_congr_right fun hinside => ?_
  have hentry : ∀ arm < count, image.blob.numberAt .i32 (address + UInt64.ofNat arm * 4).toNat
      = image.blob.switchEntry address arm := by
    intro arm harm
    have hlast := hinside arm harm
    rw [toNat_entry (by omega), Blob.switchEntry]
  refine and_congr (forall₂_congr fun arm harm => by rw [hentry arm harm]) ?_
  rw [List.map_congr_left fun arm harm => by rw [hentry arm (List.mem_range.1 harm)]]

/-- **A table is read exactly if the blob holds it**, and then its targets are the sums of the base
and the entries. -/
theorem switchTargets_eq_ok_iff (hblob : image.blob.Addressable) :
    image.switchTargets offset address base = .ok targets ↔
      image.blob.HoldsSwitch address base ∧
      (List.range (image.blob.switchCount address)).map (fun arm =>
        UInt64.ofNat (base.toNat + image.blob.switchEntry address arm).toNat) = targets := by
  unfold switchTargets
  by_cases hlow : address < 2
  · have hroom : ¬ 2 ≤ address.toNat := Nat.not_le.2 (UInt64.lt_iff_toNat_lt.1 hlow)
    rw [if_pos hlow]
    constructor
    · intro h
      cases h
    · intro h
      exact absurd h.1.room hroom
  · have hroom : 2 ≤ address.toNat := Nat.not_lt.1 fun h => hlow (UInt64.lt_iff_toNat_lt.2 h)
    have hplace : (address - 2).toNat = address.toNat - 2 :=
      UInt64.toNat_sub_of_le _ _ (UInt64.le_iff_toNat_le.2 hroom)
    rw [if_neg hlow, bind_eq_ok_iff]
    simp only [mapError_eq_ok_iff, Blob.read_eq_ok_iff, hplace]
    constructor
    · rintro ⟨_, ⟨hcount, rfl⟩, hread⟩
      obtain ⟨⟨hentries, hoffsets⟩, htargets⟩ := (switchArms_eq_ok_iff hblob _ _ _).1 hread
      exact ⟨⟨hroom, hcount, hentries, hoffsets⟩, htargets⟩
    · rintro ⟨hholds, htargets⟩
      exact ⟨_, ⟨hholds.count, rfl⟩,
        (switchArms_eq_ok_iff hblob _ _ _).2 ⟨⟨hholds.entries, hholds.targets⟩, htargets⟩⟩

end Image

/-! ## Reading what was written -/

/-- The entries that are read back: as many as two bytes count. -/
def Assembler.countedEntries (entries : List Int32) : List Int32 :=
  entries.take (entries.length % 65536)

namespace Blob

open Assembler

variable {blob : Blob} {address base : Offset} {front back : List UInt8} {entries : List Int32}

/-- The count of a table that was emitted is the number of its entries as far as a count goes. -/
lemma switchCount_of_append (hblob : blob.bytes.toList = front ++ (switchBytes entries ++ back))
    (haddress : address.toNat = front.length + 2) :
    blob.switchCount address = (countedEntries entries).length := by
  rw [switchBytes, List.append_assoc] at hblob
  have hnumber : blob.numberAt .u16 front.length = (entries.length : Int) % 65536 :=
    (numberAt_of_append hblob).trans (IntFormat.ofBytes_encode .u16 entries.length)
  rw [switchCount, haddress, Nat.add_sub_cancel, hnumber, countedEntries, List.length_take]
  omega

/-- An entry of a table that was emitted is the word that was given for it. -/
lemma switchEntry_of_append (hblob : blob.bytes.toList = front ++ (switchBytes entries ++ back))
    (haddress : address.toNat = front.length + 2) {arm : Nat} (harm : arm < entries.length) :
    blob.switchEntry address arm = entries[arm].toInt := by
  -- the bytes before the entry are the count and the entries before it
  set encode : Int32 → List UInt8 := fun entry => IntFormat.i32.encode entry.toInt with hencode
  have hsplit : entries.flatMap encode = (entries.take arm).flatMap encode
      ++ (encode entries[arm] ++ (entries.drop (arm + 1)).flatMap encode) := by
    rw [← List.flatMap_cons, ← List.drop_eq_getElem_cons harm, ← List.flatMap_append,
      List.take_append_drop]
  have hbefore : (front ++ (IntFormat.u16.encode entries.length
      ++ (entries.take arm).flatMap encode)).length = address.toNat + 4 * arm := by
    rw [List.length_append, List.length_append, IntFormat.length_encode, length_switchEntries,
      List.length_take, Nat.min_eq_left (Nat.le_of_lt harm), haddress, ← Nat.add_assoc]
    rfl
  have hplace : blob.bytes.toList = (front ++ (IntFormat.u16.encode entries.length
      ++ (entries.take arm).flatMap encode)) ++ (IntFormat.i32.encode entries[arm].toInt
      ++ ((entries.drop (arm + 1)).flatMap encode ++ back)) := by
    rw [hblob, switchBytes, ← hencode, hsplit]
    simp only [hencode, List.append_assoc]
  have hholds : IntFormat.i32.Holds entries[arm].toInt := by
    have hlow := entries[arm].le_toInt
    have hhigh := entries[arm].toInt_lt
    show -(4294967296 : Int) ≤ 2 * entries[arm].toInt ∧ 2 * entries[arm].toInt < 4294967296
    omega
  rw [switchEntry, ← hbefore, numberAt_of_append hplace, IntFormat.decode_encode hholds]

/-- A table that was emitted is one for a base exactly if its counted entries lead to offsets from
there. -/
lemma holdsSwitch_iff_of_append
    (hblob : blob.bytes.toList = front ++ (switchBytes entries ++ back))
    (haddress : address.toNat = front.length + 2) :
    blob.HoldsSwitch address base ↔
      ∀ entry ∈ countedEntries entries, IsOffset (base.toNat + entry.toInt) := by
  have hcount := switchCount_of_append hblob haddress
  have hsize : blob.size = front.length + (2 + 4 * entries.length) + back.length := by
    rw [size, ← Array.length_toList, hblob, List.length_append, List.length_append,
      length_switchBytes]
    omega
  have hle : (countedEntries entries).length ≤ entries.length := List.length_take_le' _ _
  constructor
  · intro h entry hentry
    obtain ⟨arm, harm, rfl⟩ := List.getElem_of_mem hentry
    have htarget := h.targets arm (hcount ▸ harm)
    rw [switchEntry_of_append hblob haddress (Nat.lt_of_lt_of_le harm hle)] at htarget
    simpa only [countedEntries, List.getElem_take] using htarget
  · intro h
    refine ⟨by omega, by omega, fun arm harm => by omega, fun arm harm => ?_⟩
    rw [hcount] at harm
    rw [switchEntry_of_append hblob haddress (Nat.lt_of_lt_of_le harm hle)]
    have htarget := h _ (List.getElem_mem harm)
    simpa only [countedEntries, List.getElem_take] using htarget

end Blob

/-- An offset is the number that it was made from. -/
lemma IsOffset.toNat_ofNat {value : Int} (h : IsOffset value) :
    ((UInt64.ofNat value.toNat).toNat : Int) = value := by
  have hlt : value.toNat < UInt64.size := (Int.toNat_lt h.1).2 h.2
  rw [UInt64.toNat_ofNat_of_lt' hlt, Int.toNat_of_nonneg h.1]

/-- **A table is read back from its bytes**, up to what two bytes count, wherever they lie. -/
theorem Image.switchTargets_switchBytes {image : Image} {front back : List UInt8}
    {entries : List Int32} {address base : Offset} (haddressable : image.blob.Addressable)
    (hblob : image.blob.bytes.toList = front ++ (Assembler.switchBytes entries ++ back))
    (haddress : address.toNat = front.length + 2)
    (hoffsets : ∀ entry ∈ Assembler.countedEntries entries, IsOffset (base.toNat + entry.toInt))
    (offset : Offset) :
    ∃ targets, image.switchTargets offset address base = .ok targets ∧
      targets.map (fun target => (target.toNat : Int))
        = (Assembler.countedEntries entries).map fun entry => (base.toNat : Int) + entry.toInt := by
  have hholds := (Blob.holdsSwitch_iff_of_append hblob haddress).2 hoffsets
  refine ⟨_, (switchTargets_eq_ok_iff haddressable).2 ⟨hholds, rfl⟩, ?_⟩
  have hcount := Blob.switchCount_of_append hblob haddress
  refine List.ext_getElem (by simp [hcount]) fun arm hleft hright => ?_
  rw [List.length_map] at hright
  have hentry := Blob.switchEntry_of_append hblob haddress
    (Nat.lt_of_lt_of_le hright (List.length_take_le' _ _))
  have htarget := (hholds.targets arm (hcount ▸ hright)).toNat_ofNat
  rw [hentry] at htarget
  simp only [List.getElem_map, List.getElem_range, hentry, htarget, Assembler.countedEntries,
    List.getElem_take]

namespace Pass

open Assembler

/-- The address of the first entry lies behind what was written before and the number of entries. -/
lemma toNat_firstEntry {assembler : Assembler}
    (h : assembler.bytes.toList.length + 2 < UInt64.size) :
    (assembler.position + 2).toNat = assembler.bytes.toList.length + 2 := by
  have hposition : assembler.position.toNat = assembler.bytes.toList.length :=
    UInt64.toNat_ofNat_of_lt' (by rw [← Array.length_toList]; omega)
  rw [← hposition] at h ⊢
  exact toNat_add_of_lt_size h

/-- A pass always writes a table, and answers with the address of its first entry. -/
lemma runThrough_switchTable_answer (table : ByteTable) (pass : Pass)
    (past future : List Statement) (sources : List ((String → Offset) → Int32)) :
    let before := (pass.runThrough table past).2
    let entries := sources.map fun source => source before.assembler.labels.offset
    let session := pass.runThrough table (past ++ .switchTable sources :: future)
    (∃ after, session.1[past.length]? = some (.ok (some (before.assembler.position + 2)), after)) ∧
      ∃ back, session.2.assembler.bytes.toList
        = before.assembler.bytes.toList ++ (switchBytes entries ++ back) := by
  intro before entries session
  set after : Pass := { before with assembler := before.assembler.raw (switchBytes entries) }
  have hstep : before.execute table before.assembler.labels (.switchTable sources)
      = .ok (some (before.assembler.position + 2), after) := rfl
  obtain ⟨hanswer, hlast⟩ := runThrough_middle pass past future (.switchTable sources)
    (.ok (some (before.assembler.position + 2))) after (by rw [hstep]; exact ⟨rfl, rfl⟩)
  obtain ⟨back, hback⟩ := runThrough_extends table after future
  refine ⟨⟨after, hanswer⟩, back, ?_⟩
  rw [hlast, hback, ← List.append_assoc]
  exact congrArg (· ++ back) Array.toList_appendList

/-- **Whatever table a pass has written is read back in the end.**  Take any pass that goes on after
errors, and a switch table somewhere in its program.  The pass answers with an address, at which the
table is found in what the pass has written in the end.  What is read are the sums of the base and
the entries, in their order, as many as two bytes count; so all of them are read exactly if there
are fewer than 65536.  If one of these sums is no offset, then the operand cannot be resolved.  In
any code at all, a table is read exactly if it lies inside the code and all the sums are offsets. -/
theorem runThrough_switchTable (table : ByteTable) (key : Key) (past future : List Statement)
    (sources : List ((String → Offset) → Int32)) :
    let before := ((start key).runThrough table past).2
    let entries := sources.map fun source => source before.assembler.labels.offset
    let session := (start key).runThrough table (past ++ .switchTable sources :: future)
    (∃ address after, session.1[past.length]? = some (.ok (some address), after) ∧
      ∀ image : Image, image.blob = ⟨session.2.assembler.bytes⟩ → image.blob.Addressable →
        ∀ offset base : Offset,
          ((∀ entry ∈ countedEntries entries, IsOffset (base.toNat + entry.toInt)) →
            ∃ targets, image.switchTargets offset address base = .ok targets ∧
              targets.map (fun target => (target.toNat : Int))
                = (countedEntries entries).map (fun entry => (base.toNat : Int) + entry.toInt) ∧
              (targets.map (fun target => (target.toNat : Int))
                = entries.map (fun entry => (base.toNat : Int) + entry.toInt) ↔
                entries.length < 65536)) ∧
          ((∃ entry ∈ countedEntries entries, ¬ IsOffset (base.toNat + entry.toInt)) →
            ∃ fault, image.switchTargets offset address base
              = .error (.unresolvable offset fault))) ∧
    ∀ image : Image, image.blob.Addressable → ∀ offset address base : Offset,
      (∃ targets, image.switchTargets offset address base = .ok targets) ↔
        image.blob.HoldsSwitch address base := by
  intro before entries session
  obtain ⟨⟨after, hanswer⟩, back, hwritten⟩ :=
    runThrough_switchTable_answer table (start key) past future sources
  refine ⟨⟨_, after, hanswer, fun image himage haddressable offset base => ?_⟩,
    fun image haddressable offset address base => ?_⟩
  · have hblob : image.blob.bytes.toList
        = before.assembler.bytes.toList ++ (switchBytes entries ++ back) := himage ▸ hwritten
    have haddress : (before.assembler.position + 2).toNat
        = before.assembler.bytes.toList.length + 2 := by
      have hsize : image.blob.bytes.toList.length < UInt64.size := haddressable
      rw [hblob, List.length_append, List.length_append, length_switchBytes] at hsize
      exact toNat_firstEntry (by omega)
    constructor
    · intro hoffsets
      obtain ⟨targets, hread, htargets⟩ :=
        Image.switchTargets_switchBytes haddressable hblob haddress hoffsets offset
      refine ⟨targets, hread, htargets, ?_⟩
      rw [htargets]
      constructor
      · intro heq
        have hlength := congrArg List.length heq
        rw [List.length_map, List.length_map, countedEntries, List.length_take] at hlength
        omega
      · intro hlength
        rw [countedEntries, Nat.mod_eq_of_lt hlength, List.take_length]
    · rintro ⟨entry, hentry, hwrong⟩
      cases hread : image.switchTargets offset (before.assembler.position + 2) base with
      | ok targets =>
        have hholds := ((Image.switchTargets_eq_ok_iff haddressable).1 hread).1
        exact absurd ((Blob.holdsSwitch_iff_of_append hblob haddress).1 hholds entry hentry) hwrong
      | error error =>
        obtain ⟨fault, rfl, -⟩ := image.switchTargets_fails _ _ _ error hread
        exact ⟨fault, rfl⟩
  · constructor
    · rintro ⟨targets, hread⟩
      exact ((Image.switchTargets_eq_ok_iff haddressable).1 hread).1
    · intro hholds
      exact ⟨_, (Image.switchTargets_eq_ok_iff haddressable).2 ⟨hholds, rfl⟩⟩

/-- A table with a negative entry and one that depends on a label, between other bytes.  Behind the
base 10 all entries are read; behind the base 1 the negative entry leads before the code; and no
table has its first entry at 1. -/
theorem runThrough_switchTable_relative :
    let past : List Statement := [.emit .nop .none, .label "here", .raw [1, 2, 3]]
    let sources : List ((String → Offset) → Int32) := [fun _ => 4, fun _ => -2,
      fun offsets => (offsets "here").toUInt32.toInt32]
    let future : List Statement := [.emit .ret .none, .padTo 40]
    let session := (start 7).runThrough .sequential (past ++ .switchTable sources :: future)
    let image : Image := ⟨⟨session.2.assembler.bytes⟩, .sequential, ∅, ∅⟩
    (∃ address after, session.1[3]? = some (.ok (some address), after) ∧
      (∃ targets, image.switchTargets 20 address 10 = .ok targets ∧
        targets.map (fun target => (target.toNat : Int)) = [14, 8, 12]) ∧
      ∃ fault, image.switchTargets 20 address 1 = .error (.unresolvable 20 fault)) ∧
    ¬ ∃ targets, image.switchTargets 20 1 10 = .ok targets := by
  intro past sources future session image
  have haddressable : image.blob.Addressable := show image.blob.size < UInt64.size by decide +kernel
  obtain ⟨⟨address, after, hanswer, hread⟩, hheld⟩ :=
    runThrough_switchTable .sequential 7 past future sources
  refine ⟨⟨address, after, hanswer, ?_, ?_⟩, ?_⟩
  · -- decided entry by entry of the table, and not over all 32-bit numbers
    obtain ⟨targets, htargets, hsums, -⟩ := (hread image rfl haddressable 20 10).1
      (List.all_iff_forall_prop.1 (by decide +kernel))
    exact ⟨targets, htargets, hsums.trans (by decide +kernel)⟩
  · exact (hread image rfl haddressable 20 1).2 ⟨-2, by decide +kernel, by decide⟩
  · intro hsome
    exact absurd ((hheld image haddressable 20 1 10).1 hsome).room (by decide)

end Pass

end KeyedVM
