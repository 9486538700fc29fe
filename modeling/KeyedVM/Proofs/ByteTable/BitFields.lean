import KeyedVM.Proofs.ByteTable.Validation
import KeyedVM.Proofs.Inference.Effects
import Mathlib.Algebra.Group.Nat.Defs

set_option relaxedAutoImplicit false
set_option autoImplicit false

/-!
# Bytes that are read as bit fields

Validation treats all six alphabets alike: any byte may stand for any entry.  Two of them, however,
are not read as bytes.  The flags are read bit by bit, so that a flag can be found only if its mask
is a single bit; and the selector of a call flavour is read from two bits of a method id, so that
only the selectors below four can be found.  For masks and selectors in these ranges a valid table
serves its readers: the flags of a byte are the ones whose masks it meets, and an external call is
taken with the flavour and the method that its method id was put together from.

## Main definitions

* `KeyedVM.ByteTable.methodId` — the method id of a call with a given flavour;
* `KeyedVM.Transfer.Selects` — a helper call that is an external call with a given method id;
* `KeyedVM.Transfer.invoke` — an external call whose flavour and method are known;
* `KeyedVM.Transfer.TakenAs` — a helper call that is such an external call.

## Main results

* `KeyedVM.ByteTable.mem_canonicalFlags` — which flags are found in a byte;
* `KeyedVM.ByteTable.entry?_flavourSelector`, `KeyedVM.ByteTable.methodId_and_mask` — how a method
  id is taken apart;
* `KeyedVM.Transfer.takenAs_of_selects` — an external call is taken as its method id says;
* `KeyedVM.ByteTable.Draft.validate_serves` — what a valid table is good for.
-/

namespace KeyedVM

/-! ## Flags -/

namespace Flag

/-- The flags in a byte are those whose bit is set. -/
lemma mem_inBits {flag : Flag} {bits : UInt8} : flag ∈ inBits bits ↔ bits &&& flag.bit ≠ 0 := by
  have hall : flag ∈ all := Enumeration.mem_all flag
  simp [inBits, hall]

/-- The canonical bits of two flags overlap only if the flags are the same. -/
lemma bit_and_bit {flag other : Flag} : other.bit &&& flag.bit ≠ 0 ↔ flag = other := by
  cases flag <;> cases other <;> decide

/-- Setting the bit of a flag adds this flag to those in a byte, and no other. -/
lemma mem_inBits_or {flag other : Flag} {bits : UInt8} :
    flag ∈ inBits (bits ||| other.bit) ↔ flag ∈ inBits bits ∨ flag = other := by
  have hdistrib : (bits ||| other.bit) &&& flag.bit
      = (bits &&& flag.bit) ||| (other.bit &&& flag.bit) := by
    apply UInt8.toBitVec_inj.1
    simp only [UInt8.toBitVec_and, UInt8.toBitVec_or, BitVec.and_or_distrib_right]
  rw [mem_inBits, mem_inBits, hdistrib, ← bit_and_bit, Ne, UInt8.or_eq_zero_iff, not_and_or]

/-- Setting the bits of some flags, one after the other, adds these flags and no others. -/
lemma mem_inBits_foldl {flag : Flag} {flags : List Flag} {bits : UInt8} :
    flag ∈ inBits (flags.foldl (fun bits flag => bits ||| flag.bit) bits) ↔
      flag ∈ inBits bits ∨ flag ∈ flags := by
  induction flags generalizing bits with
  | nil => simp
  | cons other flags ih => rw [List.foldl_cons, ih, mem_inBits_or, List.mem_cons, or_assoc]

end Flag

namespace ByteTable

variable {table : ByteTable} {flag : Flag}

/-- **A flag is found in a byte exactly if its mask is a single bit, which the byte has set.** -/
lemma mem_canonicalFlags {raw : UInt8} : flag ∈ Flag.inBits (table.canonicalFlags raw) ↔
    table.flags.byteOf flag ∈ singleBits ∧ raw &&& table.flags.byteOf flag ≠ 0 := by
  have hzero : flag ∉ Flag.inBits 0 := by simp [Flag.mem_inBits]
  simp only [canonicalFlags, Flag.mem_inBits_foldl, hzero, false_or, List.mem_filterMap,
    List.mem_filter, bne_iff_ne, ← Assignment.byteOf_eq_iff_entry]
  constructor
  · rintro ⟨mask, hmask, rfl⟩
    exact hmask
  · exact fun h => ⟨_, h, rfl⟩

/-- The flags of a byte are the ones whose masks it meets, as far as these are no more than one bit
each. -/
lemma forall_mem_canonicalFlags_iff :
    (∀ raw, flag ∈ Flag.inBits (table.canonicalFlags raw) ↔
      raw &&& table.flags.byteOf flag ≠ 0) ↔
    table.flags.byteOf flag = 0 ∨ table.flags.byteOf flag ∈ singleBits := by
  simp only [mem_canonicalFlags]
  constructor
  · intro h
    by_cases hmask : table.flags.byteOf flag = 0
    · exact .inl hmask
    · -- the byte that is the mask itself meets the mask
      have hself := h (table.flags.byteOf flag)
      rw [UInt8.and_self] at hself
      exact .inr (hself.2 hmask).1
  · rintro (hmask | hmask) raw
    · simp [hmask]
    · simp [hmask]

end ByteTable

/-! ## Method ids -/

/-- The selector of a call flavour is read from two bits. -/
lemma toNat_flavourSelector (raw : UInt64) :
    (flavourSelector raw).toNat = raw.toNat / 2 ^ 30 % 4 := by
  have hfield := Nat.and_two_pow_sub_one_eq_mod (raw.toNat >>> 30) 2
  rw [Nat.shiftRight_eq_div_pow] at hfield
  simp only [flavourSelector, UInt64.toNat_toUInt8, UInt64.toNat_and, UInt64.toNat_shiftRight,
    UInt64.reduceToNat, Nat.shiftRight_eq_div_pow, Nat.reduceMod, Nat.reducePow,
    Nat.add_one_sub_one] at hfield ⊢
  omega

/-- The number of a method is read from the thirty bits below. -/
lemma toNat_and_methodIdMask (raw : UInt64) :
    (raw &&& methodIdMask).toNat = raw.toNat % 2 ^ 30 := by
  rw [UInt64.toNat_and]
  exact Nat.and_two_pow_sub_one_eq_mod raw.toNat 30

namespace ByteTable

/-- The method id of a call: the selector of its flavour, moved to bit 30 of a double word, and the
number of the method. -/
def methodId (table : ByteTable) (flavour : CallFlavour) (method : ReferenceId) : UInt64 :=
  (((table.flavours.byteOf flavour).toUInt32 <<< 30) ||| method).toUInt64

variable {table : ByteTable} {flavour : CallFlavour} {method : ReferenceId}

/-- In a double word there is room for two bits of the selector. -/
lemma toNat_methodId (hmethod : method.toNat < 2 ^ 30) : (table.methodId flavour method).toNat =
    (table.flavours.byteOf flavour).toNat % 4 * 2 ^ 30 + method.toNat := by
  have hshifted : ((table.flavours.byteOf flavour).toUInt32 <<< 30).toNat
      = ((table.flavours.byteOf flavour).toNat % 4) <<< 30 := by
    rw [UInt32.toNat_shiftLeft, Nat.shiftLeft_eq, Nat.shiftLeft_eq]
    simp only [UInt8.toNat_toUInt32, UInt32.reduceToNat, Nat.reduceMod, Nat.reducePow]
    omega
  rw [methodId, UInt32.toNat_toUInt64, UInt32.toNat_or, hshifted,
    ← Nat.shiftLeft_add_eq_or_of_lt hmethod, Nat.shiftLeft_eq]

/-- The flavour that is looked up for a method id is the one that it was put together from, if two
bits hold its selector. -/
lemma entry?_flavourSelector (hselector : table.flavours.byteOf flavour < 4)
    (hmethod : method.toNat < 2 ^ 30) :
    table.flavours.entry? (flavourSelector (table.methodId flavour method)) = some flavour := by
  rw [← Assignment.byteOf_eq_iff_entry, ← UInt8.toNat_inj, toNat_flavourSelector,
    toNat_methodId hmethod]
  have hselector : (table.flavours.byteOf flavour).toNat < 4 := UInt8.lt_iff_toNat_lt.1 hselector
  omega

/-- A flavour that is looked up for a method id has a selector that two bits hold. -/
lemma byteOf_lt_of_flavourSelector {raw : UInt64}
    (h : table.flavours.entry? (flavourSelector raw) = some flavour) :
    table.flavours.byteOf flavour < 4 := by
  rw [Assignment.byteOf_eq_iff_entry.2 h, UInt8.lt_iff_toNat_lt, toNat_flavourSelector]
  exact Nat.mod_lt _ (by decide)

/-- The method that is read from a method id is the one that it was put together from. -/
lemma methodId_and_mask (hmethod : method.toNat < 2 ^ 30) :
    table.methodId flavour method &&& methodIdMask = method.toUInt64 := by
  rw [← UInt64.toNat_inj, toNat_and_methodIdMask, toNat_methodId hmethod, UInt32.toNat_toUInt64]
  omega

end ByteTable

/-! ## External calls -/

/-- The look-up of an id that was widened to a word finds the reference with this id, or fails if
there is none. -/
lemma ReferenceTable.named_toUInt64 (references : ReferenceTable) (offset : Offset)
    (id : ReferenceId) : references.named offset id.toUInt64 =
      match references[id]? with
      | none => .error (.referenceNotFound id offset)
      | some reference => .ok ⟨id, reference⟩ := by
  have hdword : dword? id.toUInt64 = some id := by
    simp [dword?, UInt32.toNat_toUInt64, id.toNat_lt]
  cases hreference : references[id]? with
  | none => simp only [named, hdword, hreference]
  | some reference => simp only [named, hdword, hreference]

namespace Transfer

/-- The helper call of a transfer is an external call, whose method id is resolved to `raw`.  Behind
the number of the helper and the method id is the transfer `chosen`. -/
def Selects (image : Image) (evaluator : Evaluator) (transfer : Transfer) (raw : UInt64)
    (chosen : Transfer) : Prop :=
  ∃ id called, transfer.resolveArgument evaluator "vcall id" = .ok (id, called) ∧
    image.table.helper? id = some .external ∧
    called.resolveArgument evaluator "ecall method" = .ok (raw, chosen)

/-- An external call with a given flavour, of the method with a given number: what is left to do
once the method id has been taken apart. -/
def invoke (image : Image) (evaluator : Evaluator) (flavour : CallFlavour) (id : ReferenceId)
    (transfer : Transfer) : Except Error (Meaning × Transfer) :=
  match image.references[id]? with
  | none => throw (.referenceNotFound id transfer.offset)
  | some reference =>
    match reference.method? with
    | none => throw (.unresolvable transfer.offset (.notAMethod reference))
    | some method => do
      let (constraint?, transfer) ←
        if flavour = .constrained then do
          let (raw, transfer) ← transfer.resolveArgument evaluator "constraint type"
          let constraint ← image.references.named transfer.offset raw
          pure (some constraint, transfer)
        else pure (none, transfer)
      let transfer ← transfer.popMany (flavour.arguments method)
      let results := if method.returnsValue || flavour == .construct then 1 else 0
      return (.external flavour ⟨id, reference⟩ constraint?, transfer.pushMany results)

/-- The helper call of a transfer is taken as an external call with a given flavour, of the method
with a given number. -/
structure TakenAs (image : Image) (evaluator : Evaluator) (flavour : CallFlavour) (id : ReferenceId)
    (transfer chosen : Transfer) : Prop where
  /-- The call succeeds, or fails, as such an external call does. -/
  outcome : transfer.helperCall image evaluator
    = (chosen.invoke image evaluator flavour id).map (Prod.mk .external)
  /-- If it succeeds, then its meaning names the flavour and the method. -/
  meaning : ∀ call meaning after,
    transfer.helperCall image evaluator = .ok (call, meaning, after) →
    ∃ reference constraint?, image.references[id]? = some reference ∧
      meaning = .external flavour ⟨id, reference⟩ constraint?

variable {image : Image} {evaluator : Evaluator} {flavour : CallFlavour} {id : ReferenceId}
  {t u : Transfer} {raw : UInt64}

/-- An external call that succeeds has the flavour and the method that were given. -/
lemma meaning_of_invoke {meaning : Meaning}
    (h : t.invoke image evaluator flavour id = .ok (meaning, u)) :
    ∃ reference constraint?, image.references[id]? = some reference ∧
      meaning = .external flavour ⟨id, reference⟩ constraint? := by
  unfold invoke at h
  split at h
  · exact absurd h throw_ne_ok
  next reference hreference =>
  split at h
  · exact absurd h throw_ne_ok
  by_cases hconstrained : flavour = .constrained
  · rw [if_pos hconstrained] at h
    simp only [bind_eq_ok_iff, Prod.exists, pure_eq_ok_iff, Prod.mk.injEq] at h
    obtain ⟨_, _, -, constraint, -, _, _, ⟨rfl, rfl⟩, _, -, rfl, -⟩ := h
    exact ⟨reference, some constraint, hreference, rfl⟩
  · rw [if_neg hconstrained] at h
    simp only [bind_eq_ok_iff, Prod.exists, pure_eq_ok_iff, Prod.mk.injEq] at h
    obtain ⟨_, _, ⟨rfl, rfl⟩, _, -, rfl, -⟩ := h
    exact ⟨reference, none, hreference, rfl⟩

/-- **An external call is taken with the flavour and the method that its method id selects.** -/
lemma takenAs_of_selects (h : t.Selects image evaluator raw u)
    (hflavour : image.table.flavours.entry? (flavourSelector raw) = some flavour)
    (hid : raw &&& methodIdMask = id.toUInt64) : t.TakenAs image evaluator flavour id u := by
  obtain ⟨number, called, hnumber, hhelper, hraw⟩ := h
  have hexternal : called.external image evaluator = u.invoke image evaluator flavour id := by
    simp only [external, hraw, bind, Except.bind, hflavour, hid, ReferenceTable.named_toUInt64,
      invoke]
    cases image.references[id]? <;> rfl
  have houtcome : t.helperCall image evaluator
      = (u.invoke image evaluator flavour id).map (Prod.mk .external) := by
    simp only [helperCall, hnumber, bind, Except.bind, hhelper, HelperCall.form, helperForm,
      hexternal]
    cases u.invoke image evaluator flavour id <;> rfl
  refine ⟨houtcome, fun call meaning after hcall => ?_⟩
  obtain ⟨⟨_, _⟩, hinvoke, hresult⟩ := map_eq_ok_iff.1 (houtcome.symm.trans hcall)
  cases hresult
  exact meaning_of_invoke hinvoke

/-- A helper call that is an external call of some flavour looks that flavour up. -/
lemma flavour_of_helperCall {call : HelperCall} {named : NamedReference}
    {constraint? : Option NamedReference}
    (h : t.helperCall image evaluator = .ok (call, .external flavour named constraint?, u)) :
    ∃ raw, image.table.flavours.entry? (flavourSelector raw) = some flavour := by
  simp only [helperCall, bind_eq_ok_iff, Prod.exists] at h
  obtain ⟨_, called, -, h⟩ := h
  split at h
  · exact absurd h throw_ne_ok
  simp only [bind_eq_ok_iff, Prod.exists, pure_eq_ok_iff, Prod.mk.injEq] at h
  obtain ⟨_, _, hform, -, rfl, -⟩ := h
  obtain rfl := Option.some.inj (helper?_of_helperForm hform)
  obtain ⟨_, _, _, _, raw, _, _, _, hmeaning, -, -, hflavour, -⟩ := external_cases hform
  obtain ⟨rfl, -, -⟩ := Meaning.external.inj hmeaning
  exact ⟨raw, hflavour⟩

end Transfer

/-! ## A call in two tables -/

/-- Findings about two instructions: `PUSHI` of a method id, and at 10 `PUSHI` of the number of a
helper. -/
def Evaluator.pushing (methodId helper : UInt64) : Evaluator where
  findings := .ofList
    [((0 : Offset), Finding.ofInstruction ⟨0, .pushi .qword, .qword methodId⟩ 0),
      (10, Finding.ofInstruction ⟨10, .pushi .qword, .qword helper⟩ 0)]
  settings := {}

/-- The `VCALL` behind these two instructions. -/
def Transfer.calling : Transfer where
  offset := 20
  post := { ip := 20, stack := [.of 10, .of 0] }

/-- A method without parameters and result. -/
def Reference.action : Reference := .method
  { declaring := "System.Action", name := "Invoke", parameters := 0, hasThis := false,
    returnsValue := false }

/-- A program that knows one method, with the number 5. -/
def Image.withAction (table : ByteTable) : Image where
  blob := ⟨#[]⟩
  table := table
  exports := ∅
  references := .ofList [((5 : ReferenceId), Reference.action)]

/-- The call is an external call with the method id that was pushed, if the other number is the one
of external calls. -/
lemma Transfer.calling_selects (table : ByteTable) (methodId helper : UInt64)
    (h : table.helper? helper = some .external) :
    calling.Selects (.withAction table) (.pushing methodId helper) methodId
      { calling with post := { ip := 20, stack := [] }, consumed := [.of 10, .of 0] } :=
  ⟨helper, _, rfl, h, rfl⟩

/-- A table in which a flag has a mask of two bits, and a call flavour a selector of three. -/
def ByteTable.outOfRange : ByteTable := { sequential with
  flags :=
    { pairs := (0x03, .overflow) :: Flag.all.tail.map fun flag => (flag.bit, flag)
      coherent := by decide
      complete := Assignment.missing_eq_nil_iff.1 (by decide) }
  flavours :=
    { pairs := [(4, .direct), (0, .dispatched), (2, .construct), (3, .constrained)]
      coherent := by decide
      complete := Assignment.missing_eq_nil_iff.1 (by decide) } }

/-! ## What a valid table is good for -/

namespace ByteTable.Draft

/-- **What a valid table is good for.**  The flags of a byte are the ones whose masks it meets, for
the flags whose masks are one bit or none, and for these only.  An external call is taken with the
flavour and the method that its method id was put together from, for every flavour whose selector is
below four; and no other flavour is ever taken. -/
theorem validate_serves (draft : Draft) : ∀ table, draft.validate = .ok table →
    (∀ flag, (∀ raw, flag ∈ Flag.inBits (table.canonicalFlags raw) ↔
        raw &&& table.flags.byteOf flag ≠ 0) ↔
      table.flags.byteOf flag = 0 ∨ table.flags.byteOf flag ∈ singleBits) ∧
    ∀ (flavour : CallFlavour) (image : Image) (evaluator : Evaluator) (transfer : Transfer),
      image.table = table →
      (table.flavours.byteOf flavour < 4 → ∀ (method : ReferenceId) (chosen : Transfer),
        method.toNat < 2 ^ 30 →
        transfer.Selects image evaluator (table.methodId flavour method) chosen →
        transfer.TakenAs image evaluator flavour method chosen) ∧
      ∀ call named constraint? after,
        transfer.helperCall image evaluator
          = .ok (call, .external flavour named constraint?, after) →
        table.flavours.byteOf flavour < 4 := by
  -- a table carries all that validation has checked
  rintro table -
  refine ⟨fun flag => forall_mem_canonicalFlags_iff, fun flavour image evaluator transfer => ?_⟩
  rintro rfl
  constructor
  · intro hselector method chosen hmethod hselects
    exact Transfer.takenAs_of_selects hselects (entry?_flavourSelector hselector hmethod)
      (methodId_and_mask hmethod)
  · intro call named constraint? after h
    obtain ⟨raw, hflavour⟩ := Transfer.flavour_of_helperCall h
    exact byteOf_lt_of_flavourSelector hflavour

/-- Under the sequential table, the byte `0x82` has the carry flag, and a method id that was put
together for the construction of an object makes such a call. -/
theorem validate_serves_construct :
    let raw := ByteTable.sequential.methodId .construct 5
    Draft.sequential.validate = .ok ByteTable.sequential ∧
    .carry ∈ Flag.inBits (ByteTable.sequential.canonicalFlags 0x82) ∧
    ∃ chosen after,
      Transfer.calling.Selects (.withAction .sequential) (.pushing raw 2) raw chosen ∧
      Transfer.calling.helperCall (.withAction .sequential) (.pushing raw 2)
        = .ok (.external, .external .construct ⟨5, .action⟩ none, after) := by
  intro raw
  obtain ⟨hflags, hcalls⟩ := validate_serves .sequential _ validate_sequential
  have hcarry := ((hflags .carry).2 (by decide) 0x82).2 (by decide)
  have hselects := Transfer.calling_selects .sequential raw 2 (by decide)
  have htaken := (hcalls .construct (.withAction .sequential) (.pushing raw 2) .calling rfl).1
    (by decide) 5 _ (by decide) hselects
  exact ⟨validate_sequential, hcarry, _, _, hselects, htaken.outcome⟩

/-- A valid table need not serve its readers.  If the mask of a flag has two bits, then a byte with
one of them does not have the flag; and if the selector of direct calls is 4, then the method id of
such a call is taken for one of another flavour. -/
theorem validate_outOfRange :
    let draft : Draft := { Draft.sequential with
      flags := outOfRange.flags.pairs
      flavours := outOfRange.flavours.pairs }
    let raw := outOfRange.methodId .direct 5
    draft.validate = .ok outOfRange ∧
    (.overflow ∉ Flag.inBits (outOfRange.canonicalFlags 0x01) ∧
      0x01 &&& outOfRange.flags.byteOf .overflow ≠ 0) ∧
    ∃ chosen after,
      Transfer.calling.Selects (.withAction outOfRange) (.pushing raw 2) raw chosen ∧
      Transfer.calling.helperCall (.withAction outOfRange) (.pushing raw 2)
        = .ok (.external, .external .dispatched ⟨5, .action⟩ none, after) := by
  intro draft raw
  have hvalid : draft.validate = .ok outOfRange :=
    validate_eq_ok_iff.2 ⟨rfl, rfl, fun alphabet => by cases alphabet <;> rfl⟩
  have hselects := Transfer.calling_selects outOfRange raw 2 (by decide)
  -- of the selector 4, two bits hold 0
  have hread : outOfRange.flavours.entry? (flavourSelector raw) = some .dispatched := by decide
  have htaken : Transfer.TakenAs _ _ .dispatched 5 _ _ :=
    Transfer.takenAs_of_selects hselects hread (by decide)
  exact ⟨hvalid, ⟨by decide, by decide⟩, _, _, hselects, htaken.outcome⟩

end ByteTable.Draft

end KeyedVM
