import KeyedVM.Error

set_option relaxedAutoImplicit false
set_option autoImplicit false

/-!
# Byte assignments

A protected program gives every member of an alphabet a byte of its own.  The assignment is
recovered from the program as a list of pairs, in which a pair may occur more than once; it is
accepted if no two pairs contradict each other and no member is left out.

## Main definitions

* `KeyedVM.Assignment` — an accepted assignment;
* `KeyedVM.Assignment.entry?`, `KeyedVM.Assignment.byteOf` — its two directions;
* `KeyedVM.Assignment.Coherent` — no byte has two entries and no entry has two bytes;
* `KeyedVM.Assignment.firstConflict?` — the first pair that contradicts an earlier one;
* `KeyedVM.Assignment.ofPairs` — acceptance, or the first objection.

## Main results

* `KeyedVM.Assignment.entry?_eq_some_iff`, `byteOf_eq_iff` — both directions read the pairs;
* `KeyedVM.Assignment.byteOf_eq_iff_entry` — both directions belong together;
* `KeyedVM.Assignment.firstConflict?_eq_none_iff` — the scan passes exactly the coherent lists.
-/

namespace KeyedVM

/-- A complete one-to-one assignment of bytes to the members of an alphabet. -/
structure Assignment (α : Type) [DecidableEq α] [Enumeration α] where
  /-- The recovered pairs. -/
  pairs : List (UInt8 × α)
  /-- Two pairs share their byte exactly if they share their entry. -/
  coherent : ∀ p ∈ pairs, ∀ q ∈ pairs, p.1 = q.1 ↔ p.2 = q.2
  /-- Every entry has a byte. -/
  complete : ∀ a, ∃ b, (b, a) ∈ pairs

namespace Assignment

variable {α : Type} [DecidableEq α] [Enumeration α]

/-! ## Validation -/

/-- No byte has two entries and no entry has two bytes. -/
def Coherent (pairs : List (UInt8 × α)) : Prop :=
  ∀ p ∈ pairs, ∀ q ∈ pairs, p.1 = q.1 ↔ p.2 = q.2

/-- The objection to a pair that comes after the pairs `seen`: first that its byte has another
entry, then that its entry has another byte. -/
def conflict? (seen : List (UInt8 × α)) (pair : UInt8 × α) : Option TableFault :=
  match seen.find? fun p => p.1 = pair.1 ∧ p.2 ≠ pair.2 with
  | some p =>
    some (.sharedByte pair.1 (Enumeration.spelling p.2) (Enumeration.spelling pair.2))
  | none =>
    match seen.find? fun p => p.2 = pair.2 ∧ p.1 ≠ pair.1 with
    | some p => some (.twoBytes (Enumeration.spelling pair.2) p.1 pair.1)
    | none => none

/-- The objection to the first pair that contradicts an earlier one. -/
def firstConflict? (seen : List (UInt8 × α)) : List (UInt8 × α) → Option TableFault
  | [] => none
  | pair :: rest =>
    match conflict? seen pair with
    | some fault => some fault
    | none => firstConflict? (pair :: seen) rest

/-- The members of the alphabet that no pair mentions, in declaration order. -/
def missing (pairs : List (UInt8 × α)) : List α :=
  Enumeration.all.filter fun a => ¬ ∃ p ∈ pairs, p.2 = a

/-- No objection is raised to a pair exactly if it shares its byte and its entry with the same
earlier pairs. -/
theorem conflict?_eq_none_iff {seen : List (UInt8 × α)} {pair : UInt8 × α} :
    conflict? seen pair = none ↔ ∀ p ∈ seen, p.1 = pair.1 ↔ p.2 = pair.2 := by
  have hshared : (seen.find? fun p => p.1 = pair.1 ∧ p.2 ≠ pair.2) = none ↔
      ∀ p ∈ seen, p.1 = pair.1 → p.2 = pair.2 := by
    simp only [List.find?_eq_none, decide_eq_true_eq, ne_eq, not_and, Classical.not_not]
  have htwo : (seen.find? fun p => p.2 = pair.2 ∧ p.1 ≠ pair.1) = none ↔
      ∀ p ∈ seen, p.2 = pair.2 → p.1 = pair.1 := by
    simp only [List.find?_eq_none, decide_eq_true_eq, ne_eq, not_and, Classical.not_not]
  unfold conflict?
  constructor
  · intro h
    split at h
    · cases h
    · split at h
      · cases h
      · next h₁ _ h₂ => exact fun p hp => ⟨hshared.1 h₁ p hp, htwo.1 h₂ p hp⟩
  · intro h
    rw [hshared.2 fun p hp => (h p hp).1, htwo.2 fun p hp => (h p hp).2]

/-- Against a coherent past, the scan passes exactly the lists that stay coherent with it. -/
theorem firstConflict?_eq_none_iff_append {seen pairs : List (UInt8 × α)} (hs : Coherent seen) :
    firstConflict? seen pairs = none ↔ Coherent (seen ++ pairs) := by
  induction pairs generalizing seen with
  | nil => simp [firstConflict?, hs]
  | cons pair rest ih =>
    have hmem : ∀ p, p ∈ (pair :: seen) ++ rest ↔ p ∈ seen ++ pair :: rest := by
      intro p
      simp only [List.cons_append, List.mem_cons, List.mem_append]
      grind
    rw [firstConflict?]
    cases hc : conflict? seen pair with
    | some fault =>
      refine ⟨fun h => by simp at h, fun h => ?_⟩
      have hnone : conflict? seen pair = none := conflict?_eq_none_iff.2 fun p hp =>
        h p (by simp [hp]) pair (by simp)
      rw [hnone] at hc
      cases hc
    | none =>
      have hp := conflict?_eq_none_iff.1 hc
      have hcons : Coherent (pair :: seen) := by
        intro p hmemp q hmemq
        rcases List.mem_cons.1 hmemp with rfl | hpast <;>
          rcases List.mem_cons.1 hmemq with rfl | hqast
        · simp
        · exact ⟨fun h => ((hp q hqast).1 h.symm).symm, fun h => ((hp q hqast).2 h.symm).symm⟩
        · exact hp p hpast
        · exact hs p hpast q hqast
      rw [ih hcons]
      constructor
      · exact fun h p hp q hq => h p ((hmem p).2 hp) q ((hmem q).2 hq)
      · exact fun h p hp q hq => h p ((hmem p).1 hp) q ((hmem q).1 hq)

/-- The scan passes exactly the coherent lists. -/
theorem firstConflict?_eq_none_iff {pairs : List (UInt8 × α)} :
    firstConflict? [] pairs = none ↔ Coherent pairs :=
  firstConflict?_eq_none_iff_append (fun _ h => absurd h (by simp))

/-- Nothing is missing exactly if every entry has a byte. -/
theorem missing_eq_nil_iff {pairs : List (UInt8 × α)} :
    missing pairs = [] ↔ ∀ a, ∃ b, (b, a) ∈ pairs := by
  simp only [missing, List.filter_eq_nil_iff, decide_eq_true_eq, Classical.not_not]
  constructor
  · intro h a
    obtain ⟨⟨b, _⟩, hp, rfl⟩ := h a (Enumeration.mem_all a)
    exact ⟨b, hp⟩
  · intro h a _
    obtain ⟨b, hb⟩ := h a
    exact ⟨(b, a), hb, rfl⟩

/-- Accepts a list of pairs, or says what is wrong with it: the first contradiction if there is
one, and otherwise the entries that are missing. -/
def ofPairs (pairs : List (UInt8 × α)) : Except Error (Assignment α) :=
  match hconflict : firstConflict? [] pairs with
  | some fault => .error (.incompleteTable (Enumeration.kind α) fault)
  | none =>
    match hmissing : missing pairs with
    | [] => .ok ⟨pairs, firstConflict?_eq_none_iff.1 hconflict, missing_eq_nil_iff.1 hmissing⟩
    | entries =>
      .error (.incompleteTable (Enumeration.kind α) (.missing (entries.map Enumeration.spelling)))

/-! ## Look-up -/

/-- The entry of a byte. -/
def entry? (assignment : Assignment α) (byte : UInt8) : Option α :=
  (assignment.pairs.find? fun p => p.1 = byte).map (·.2)

/-- An accepted assignment has a pair for every entry. -/
theorem isSome_find?_entry (assignment : Assignment α) (a : α) :
    (assignment.pairs.find? fun p => p.2 = a).isSome = true := by
  obtain ⟨b, hb⟩ := assignment.complete a
  exact List.find?_isSome.2 ⟨(b, a), hb, by simp⟩

/-- The byte of an entry. -/
def byteOf (assignment : Assignment α) (a : α) : UInt8 :=
  ((assignment.pairs.find? fun p => p.2 = a).get (assignment.isSome_find?_entry a)).1

/-- A byte has the entry that it is paired with. -/
theorem entry?_eq_some_iff {assignment : Assignment α} {byte : UInt8} {a : α} :
    assignment.entry? byte = some a ↔ (byte, a) ∈ assignment.pairs := by
  unfold entry?
  constructor
  · intro h
    obtain ⟨⟨b, a'⟩, hfind, rfl⟩ := Option.map_eq_some_iff.1 h
    have hb : b = byte := by simpa using List.find?_some hfind
    exact hb ▸ List.mem_of_find?_eq_some hfind
  · intro h
    have hsome : (assignment.pairs.find? fun p => p.1 = byte).isSome = true :=
      List.find?_isSome.2 ⟨(byte, a), h, by simp⟩
    obtain ⟨⟨b, a'⟩, hfind⟩ := Option.isSome_iff_exists.1 hsome
    have hb : b = byte := by simpa using List.find?_some hfind
    have ha : a' = a := (assignment.coherent _ (List.mem_of_find?_eq_some hfind) _ h).1 hb
    simp [hfind, ha]

/-- The byte of an entry is paired with it. -/
theorem byteOf_mem (assignment : Assignment α) (a : α) :
    (assignment.byteOf a, a) ∈ assignment.pairs := by
  unfold byteOf
  obtain ⟨⟨b, a'⟩, hfind⟩ := Option.isSome_iff_exists.1 (assignment.isSome_find?_entry a)
  have ha : a' = a := by simpa using List.find?_some hfind
  simp only [hfind, Option.get_some]
  exact ha ▸ List.mem_of_find?_eq_some hfind

/-- The byte of an entry is the one that it is paired with. -/
theorem byteOf_eq_iff {assignment : Assignment α} {byte : UInt8} {a : α} :
    assignment.byteOf a = byte ↔ (byte, a) ∈ assignment.pairs := by
  constructor
  · rintro rfl
    exact assignment.byteOf_mem a
  · intro h
    exact (assignment.coherent _ (assignment.byteOf_mem a) _ h).2 rfl

/-- Both directions of an assignment belong together. -/
theorem byteOf_eq_iff_entry {assignment : Assignment α} {byte : UInt8} {a : α} :
    assignment.byteOf a = byte ↔ assignment.entry? byte = some a :=
  byteOf_eq_iff.trans entry?_eq_some_iff.symm

end Assignment

end KeyedVM
