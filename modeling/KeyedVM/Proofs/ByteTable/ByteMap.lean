import KeyedVM.ByteTable.ByteMap
import KeyedVM.Proofs.ByteTable.Validation

set_option relaxedAutoImplicit false
set_option autoImplicit false

/-!
# The arrays of an assignment

An assignment is given by its list of pairs, in which both look-ups search.  The arrays of
`KeyedVM.ByteMap` answer in one step.  They accept the same lists of pairs, raise the same first
objection against the others, and every look-up in them agrees with the search.

While pairs are recorded, the two arrays hold exactly the pairs recorded so far, one by bytes and
one by members (`KeyedVM.Cells.Holds`).  So the two cells of a pair tell whether it contradicts any
earlier pair, and recording it keeps the arrays in step with the list.

## Main definitions

* `KeyedVM.Cells.Holds` — the cells hold a list of pairs;
* `KeyedVM.ByteMap.Represents` — the arrays give the answers of an assignment;
* `KeyedVM.ByteMap.Refines` — the arrays are accepted, or refused, as the assignment is.

## Main results

* `KeyedVM.Cells.Holds.conflict?_eq` — two cells decide whether a pair is objected to;
* `KeyedVM.Cells.Holds.recordAll` — the scan of the arrays against the scan of the list;
* `KeyedVM.ByteMap.ofPairs_refines` — the arrays refine the assignment;
* `KeyedVM.ByteTable.Draft.exists_represents` — the arrays behind a valid table.
-/

namespace KeyedVM

/-! ## Lists and cells -/

/-- The first pair with a given key whose value is not the expected one, against the one value that
is known under the key: both are found, or neither, and they tell the same value. -/
lemma find?_map_eq_filter {α β : Type} [DecidableEq β] {seen : List (UInt8 × α)}
    {key : UInt8 × α → Prop} [DecidablePred key] {value : UInt8 × α → β} {known : Option β}
    (expected : β)
    (h : ∀ x, known = some x ↔ ∃ p ∈ seen, key p ∧ value p = x) :
    (seen.find? fun p => key p ∧ value p ≠ expected).map value = known.filter (· ≠ expected) := by
  cases hfind : seen.find? fun p => key p ∧ value p ≠ expected with
  | some p =>
    have hp : key p ∧ value p ≠ expected := by simpa using List.find?_some hfind
    have hknown : known = some (value p) :=
      (h _).2 ⟨p, List.mem_of_find?_eq_some hfind, hp.1, rfl⟩
    rw [hknown, Option.map_some, Option.filter_some, if_pos (by simpa using hp.2)]
  | none =>
    simp only [List.find?_eq_none, decide_eq_true_eq, ne_eq, not_and, not_not] at hfind
    refine (Option.filter_eq_none_iff.2 fun x hx => ?_).symm
    obtain ⟨p, hp, hkey, rfl⟩ := (h x).1 hx
    simpa using hfind p hp hkey

/-- A cell that is filled under the key `k'` holds what was put there, and under other keys what was
known before; nothing else is lost if only the same was known under `k'`. -/
lemma ite_eq_some_iff_or {α β : Type} [DecidableEq α] {k k' : α} {x x' : β} {known : Option β}
    {P : Prop} (h : known = some x ↔ P) (hagrees : k = k' → P → x = x') :
    (if k = k' then some x' else known) = some x ↔ k = k' ∧ x = x' ∨ P := by
  split
  · next hkey =>
    rw [Option.some.injEq]
    exact ⟨fun hx => .inl ⟨hkey, hx.symm⟩,
      fun hor => (hor.elim And.right (hagrees hkey)).symm⟩
  · next hkey => rw [h, or_iff_right fun hboth => hkey hboth.1]

/-- What an array of filled cells holds is found at the same places after packing. -/
lemma getElem?_filterMap_id {β : Type} {slots : List (Option β)} (h : ∀ slot ∈ slots, slot.isSome)
    (i : Nat) : (slots.filterMap id)[i]? = slots[i]?.join := by
  have hpacked : (slots.filterMap id).map some = slots := by
    induction slots with
    | nil => rfl
    | cons slot rest ih =>
      obtain ⟨x, rfl⟩ := Option.isSome_iff_exists.1 (h slot (by simp))
      simpa using ih fun slot hslot => h slot (by simp [hslot])
  conv_rhs => rw [← hpacked, List.getElem?_map]
  cases (slots.filterMap id)[i]? <;> rfl

variable {α : Type} [DecidableEq α] [Enumeration α] {pairs seen : List (UInt8 × α)}

/-- Members at the same place are equal. -/
@[simp] lemma Enumeration.place_inj {a a' : α} : place a = place a' ↔ a = a' := by
  rw [Fin.ext_iff]
  exact ordinal_inj

/-- Every cell is the place of a member. -/
lemma Enumeration.exists_place (i : Fin (all : List α).length) : ∃ a : α, place a = i :=
  ⟨all[i], Fin.ext (nodup_all.idxOf_getElem i.val i.isLt)⟩

/-! ## Refusal of an assignment -/

namespace Assignment

/-- A contradiction is objected to before anything else. -/
lemma ofPairs_eq_error_of_conflict {fault : TableFault} (h : firstConflict? [] pairs = some fault) :
    ofPairs pairs = .error (.incompleteTable (Enumeration.kind α) fault) := by
  unfold ofPairs
  split
  · next hconflict => rw [Option.some.inj (h.symm.trans hconflict)]
  · next hconflict => cases h.symm.trans hconflict

/-- Without a contradiction, the members that are missing are objected to. -/
lemma ofPairs_eq_error_of_missing {a : α} {rest : List α} (h : firstConflict? [] pairs = none)
    (hmissing : missing pairs = a :: rest) :
    ofPairs pairs = .error (.incompleteTable (Enumeration.kind α)
      (.missing ((a :: rest).map Enumeration.spelling))) := by
  unfold ofPairs
  split
  · next hconflict => cases h.symm.trans hconflict
  · split
    · next hnil => cases hmissing.symm.trans hnil
    · rw [hmissing]

end Assignment

/-! ## The cells -/

namespace Cells

variable {cells : Cells α} {pair : UInt8 × α}

/-- No byte stands for anything at first. -/
@[simp] lemma entry?_empty (byte : UInt8) : entry? (empty : Cells α) byte = none := by
  simp [Cells.entry?, empty]

/-- No member has a byte at first. -/
@[simp] lemma byte?_empty (a : α) : (empty : Cells α).byte? a = none := by
  simp [byte?, empty]

/-- A pair is recorded at its byte, and no other byte is affected. -/
lemma entry?_record (byte : UInt8) :
    entry? (cells.record pair) byte = if byte = pair.1 then some pair.2 else cells.entry? byte := by
  have hplace : pair.1.toFin.val = byte.toFin.val ↔ byte = pair.1 := by
    rw [← Fin.ext_iff, eq_comm, UInt8.toFin_inj]
  simp only [Cells.entry?, record, Fin.getElem_fin, Vector.getElem_set, hplace]

/-- A pair is recorded at its member, and no other member is affected. -/
lemma byte?_record (a : α) :
    (cells.record pair).byte? a = if a = pair.2 then some pair.1 else cells.byte? a := by
  have hplace : (Enumeration.place pair.2).val = (Enumeration.place a).val ↔ a = pair.2 := by
    rw [← Fin.ext_iff, eq_comm, Enumeration.place_inj]
  simp only [byte?, record, Fin.getElem_fin, Vector.getElem_set, hplace]

/-- The byte of a member stands at its ordinal. -/
lemma getElem?_bytes_ordinal (a : α) :
    cells.bytes.toList[Enumeration.ordinal a]? = some (cells.byte? a) := by
  rw [List.getElem?_eq_getElem (by simpa using Enumeration.ordinal_lt a), Vector.getElem_toList]
  rfl

/-- Every cell of the second array belongs to a member. -/
lemma exists_byte?_of_mem {slot : Option UInt8} (h : slot ∈ cells.bytes.toList) :
    ∃ a, cells.byte? a = slot := by
  obtain ⟨i, hi, rfl⟩ := List.getElem_of_mem h
  obtain ⟨a, ha⟩ := Enumeration.exists_place (α := α) ⟨i, by simpa using hi⟩
  refine ⟨a, Option.some.inj ?_⟩
  have hordinal : Enumeration.ordinal a = i := congrArg Fin.val ha
  rw [← getElem?_bytes_ordinal, hordinal, List.getElem?_eq_getElem hi]

/-- The cells hold the pairs `seen`, by bytes and by members. -/
structure Holds (cells : Cells α) (seen : List (UInt8 × α)) : Prop where
  /-- A byte stands for the member that it was recorded with. -/
  entry : ∀ byte a, cells.entry? byte = some a ↔ (byte, a) ∈ seen
  /-- A member has the byte that it was recorded with. -/
  byte : ∀ byte a, cells.byte? a = some byte ↔ (byte, a) ∈ seen

namespace Holds

/-- At first nothing is held. -/
lemma empty : (Cells.empty : Cells α).Holds [] where
  entry byte a := by simp
  byte byte a := by simp

/-- Only which pairs are held matters, not in which order. -/
lemma of_mem_iff (h : cells.Holds seen) (hmem : ∀ p, p ∈ seen ↔ p ∈ pairs) : cells.Holds pairs where
  entry byte a := (h.entry byte a).trans (hmem _)
  byte byte a := (h.byte byte a).trans (hmem _)

/-- **The two cells of a pair show whether it contradicts a pair that is held**, and the objection
is the one that a search finds. -/
lemma conflict?_eq (h : cells.Holds seen) (pair : UInt8 × α) :
    cells.conflict? pair = Assignment.conflict? seen pair := by
  have hentry : (seen.find? fun p => p.1 = pair.1 ∧ p.2 ≠ pair.2).map Prod.snd =
      (cells.entry? pair.1).filter (· ≠ pair.2) :=
    find?_map_eq_filter pair.2 fun x => by simp [h.entry]
  have hbyte : (seen.find? fun p => p.2 = pair.2 ∧ p.1 ≠ pair.1).map Prod.fst =
      (cells.byte? pair.2).filter (· ≠ pair.1) :=
    find?_map_eq_filter pair.1 fun x => by simp [h.byte]
  rw [Cells.conflict?, ← hentry, ← hbyte, Assignment.conflict?]
  cases seen.find? fun p => p.1 = pair.1 ∧ p.2 ≠ pair.2 with
  | some p => rfl
  | none => cases seen.find? fun p => p.2 = pair.2 ∧ p.1 ≠ pair.1 <;> rfl

/-- A pair without an objection joins the pairs that are held. -/
lemma record (h : cells.Holds seen) (hconflict : cells.conflict? pair = none) :
    (cells.record pair).Holds (pair :: seen) := by
  obtain ⟨byte', a'⟩ := pair
  -- a pair that is held has the byte of the new pair exactly if it has its member
  have hagrees := Assignment.conflict?_eq_none_iff.1 ((h.conflict?_eq _).symm.trans hconflict)
  constructor
  · intro byte a
    rw [Cells.entry?_record, List.mem_cons, Prod.mk.injEq]
    exact ite_eq_some_iff_or (h.entry byte a) fun hbyte hp => (hagrees _ hp).1 hbyte
  · intro byte a
    rw [byte?_record, List.mem_cons, Prod.mk.injEq, and_comm]
    exact ite_eq_some_iff_or (h.byte byte a) fun ha hp => (hagrees _ hp).2 ha

/-- **The scan of the arrays raises the first objection that the scan of the pairs raises**, and
otherwise holds all pairs at its end. -/
lemma recordAll (h : cells.Holds seen) (pairs : List (UInt8 × α)) :
    match cells.recordAll pairs with
    | .ok filled => Assignment.firstConflict? seen pairs = none ∧
        filled.Holds (pairs.reverse ++ seen)
    | .error fault => Assignment.firstConflict? seen pairs = some fault := by
  induction pairs generalizing cells seen with
  | nil => exact ⟨rfl, h⟩
  | cons pair rest ih =>
    rw [Cells.recordAll, Assignment.firstConflict?, ← h.conflict?_eq pair]
    cases hconflict : cells.conflict? pair with
    | some fault => rfl
    | none => simpa using ih (h.record hconflict)

/-- The members without a byte are those that no pair mentions. -/
lemma missing_eq (h : cells.Holds seen) : cells.missing = Assignment.missing seen := by
  refine List.filter_congr fun a _ => ?_
  rw [Bool.eq_iff_iff, Option.isNone_iff_eq_none, Option.eq_none_iff_forall_ne_some,
    decide_eq_true_iff]
  simp only [ne_eq, h.byte]
  grind

end Holds

end Cells

/-! ## The accepted arrays -/

namespace ByteMap

variable {map : ByteMap α} {assignment : Assignment α}

/-- The arrays give the answers of an assignment.  In particular every member has a place in the
array of bytes, so that no look-up fails. -/
structure Represents (map : ByteMap α) (assignment : Assignment α) : Prop where
  /-- A byte stands for the same member. -/
  entry? : ∀ byte, map.entry? byte = assignment.entry? byte
  /-- A member has the same byte. -/
  byte? : ∀ a, map.byte? a = some (assignment.byteOf a)

/-- The arrays are accepted where the assignment is, and represent it; they are refused where the
assignment is refused, with the same objection. -/
inductive Refines : Except Error (ByteMap α) → Except Error (Assignment α) → Prop
  /-- Both are accepted. -/
  | accepted {map : ByteMap α} {assignment : Assignment α} (h : map.Represents assignment) :
    Refines (.ok map) (.ok assignment)
  /-- Both are refused. -/
  | refused (error : Error) : Refines (.error error) (.error error)

/-- Packing the filled cells of an assignment gives arrays that represent it. -/
lemma Represents.of_holds {cells : Cells α} (h : cells.Holds assignment.pairs) :
    Represents ⟨cells.entries, cells.bytes.toArray.filterMap id⟩ assignment where
  entry? byte := by
    ext a
    exact (h.entry byte a).trans Assignment.entry?_eq_some_iff.symm
  byte? a := by
    have hbyte : ∀ a, cells.byte? a = some (assignment.byteOf a) := fun a =>
      (h.byte _ a).2 (assignment.byteOf_mem a)
    have hfilled : ∀ slot ∈ cells.bytes.toList, slot.isSome := by
      intro slot hslot
      obtain ⟨a, rfl⟩ := Cells.exists_byte?_of_mem hslot
      rw [hbyte, Option.isSome_some]
    calc (cells.bytes.toArray.filterMap id)[Enumeration.ordinal a]?
        = (cells.bytes.toList.filterMap id)[Enumeration.ordinal a]? := by
          rw [← Array.getElem?_toList, Array.toList_filterMap, Vector.toList_toArray]
      _ = (some (cells.byte? a)).join := by
          rw [getElem?_filterMap_id hfilled, Cells.getElem?_bytes_ordinal]
      _ = some (assignment.byteOf a) := by rw [hbyte, Option.join_some]

/-- **The arrays refine the assignment.**  For every list of pairs, they are accepted or refused as
the assignment is, with the same objection, and their look-ups are those of the assignment. -/
theorem ofPairs_refines (pairs : List (UInt8 × α)) :
    Refines (ofPairs pairs) (Assignment.ofPairs pairs) := by
  have hscan := Cells.Holds.empty.recordAll pairs
  rw [ofPairs]
  cases hcells : Cells.empty.recordAll pairs with
  | error fault =>
    rw [hcells] at hscan
    rw [Assignment.ofPairs_eq_error_of_conflict hscan]
    exact .refused _
  | ok cells =>
    rw [hcells] at hscan
    have hholds : cells.Holds pairs := hscan.2.of_mem_iff fun p => by simp
    cases hmissing : Assignment.missing pairs with
    | nil =>
      let assignment : Assignment α := ⟨pairs, Assignment.firstConflict?_eq_none_iff.1 hscan.1,
        Assignment.missing_eq_nil_iff.1 hmissing⟩
      have haccepted : Assignment.ofPairs pairs = .ok assignment :=
        Assignment.ofPairs_eq_ok_iff.2 rfl
      simp only [hholds.missing_eq, hmissing, haccepted]
      exact .accepted (.of_holds hholds)
    | cons a rest =>
      simp only [hholds.missing_eq, hmissing,
        Assignment.ofPairs_eq_error_of_missing hscan.1 hmissing]
      exact .refused _

/-- Whatever is accepted as an assignment is accepted in arrays that represent it. -/
lemma exists_represents (h : Assignment.ofPairs pairs = .ok assignment) :
    ∃ map, ofPairs pairs = .ok map ∧ map.Represents assignment := by
  have hrefines := ofPairs_refines pairs
  rw [h] at hrefines
  cases hmap : ofPairs pairs with
  | ok map =>
    rw [hmap] at hrefines
    cases hrefines with
    | accepted hrepresents => exact ⟨map, rfl, hrepresents⟩
  | error error =>
    rw [hmap] at hrefines
    cases hrefines

end ByteMap

/-- **Every part of a valid table is represented by the arrays of its draft.** -/
theorem ByteTable.Draft.exists_represents {draft : ByteTable.Draft} {table : ByteTable}
    (h : draft.validate = .ok table) (alphabet : Alphabet) :
    ∃ map, ByteMap.ofPairs (draft.pairs alphabet) = .ok map ∧
      map.Represents (table.assignment alphabet) :=
  ByteMap.exists_represents
    (Assignment.ofPairs_eq_ok_iff.2 ((ByteTable.Draft.validate_eq_ok_iff.1 h).2.2 alphabet))

end KeyedVM
