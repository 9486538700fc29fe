import KeyedVM.Proofs.ByteTable.Sequential
import KeyedVM.Proofs.Outcome
import Mathlib.Logic.Function.Basic

set_option relaxedAutoImplicit false
set_option autoImplicit false

/-!
# Which drafts are valid

Validation scans the recovered pairs in order and objects to the first one that contradicts an
earlier one, and only then looks for entries that were left out.  All that decides about success,
however, is the set of the pairs: a draft is valid exactly if both constants are set and, in each of
its six parts, the pairs are the graph of a one-to-one function from the entries to bytes.  In the
table both directions of this function can be looked up, so that neither the order of the pairs nor
their repetition makes a difference.

## Main definitions

* `KeyedVM.Assignment.IsGraph` — pairs that are the graph of a one-to-one function;
* `KeyedVM.Alphabet` — the six alphabets, with `KeyedVM.ByteTable.assignment` and
  `KeyedVM.ByteTable.Draft.pairs` — what a table and a draft say about one of them;
* `KeyedVM.ByteTable.Draft.IsValid` — what a draft must have recorded;
* `KeyedVM.ByteTable.Draft.RecordsSame` — drafts that differ in the order and the repetition of
  pairs only;
* `KeyedVM.Assignment.Alike`, `KeyedVM.ByteTable.Alike` — the same answers to all look-ups.

## Main results

* `KeyedVM.Assignment.ofPairs_eq_ok_iff` — an accepted assignment holds the recovered pairs;
* `KeyedVM.Assignment.exists_ofPairs_iff` — which lists of pairs are accepted;
* `KeyedVM.ByteTable.Draft.validate_eq_ok_iff` — a valid table holds what its draft has recorded;
* `KeyedVM.ByteTable.Draft.validate_exact` — which drafts are valid, and what their tables answer.
-/

namespace KeyedVM

/-! ## One alphabet -/

namespace Assignment

variable {α : Type} {pairs : List (UInt8 × α)}

/-- The pairs, as a set, are the graph of a one-to-one function from all entries to bytes. -/
def IsGraph (pairs : List (UInt8 × α)) : Prop :=
  ∃ byteOf : α → UInt8, Function.Injective byteOf ∧
    ∀ byte a, (byte, a) ∈ pairs ↔ byteOf a = byte

/-- Pairs are the graph of a one-to-one function exactly if they contradict each other nowhere and
leave no entry out. -/
lemma isGraph_iff : IsGraph pairs ↔ Coherent pairs ∧ ∀ a, ∃ byte, (byte, a) ∈ pairs := by
  constructor
  · rintro ⟨byteOf, hinjective, hmem⟩
    refine ⟨?_, fun a => ⟨byteOf a, (hmem _ a).2 rfl⟩⟩
    rintro ⟨byte, a⟩ hp ⟨byte', a'⟩ hq
    obtain rfl := (hmem _ _).1 hp
    obtain rfl := (hmem _ _).1 hq
    exact hinjective.eq_iff
  · rintro ⟨hcoherent, hcomplete⟩
    choose byteOf hbyteOf using hcomplete
    refine ⟨byteOf, fun a a' h => ?_, fun byte a => ⟨fun h => ?_, fun h => h ▸ hbyteOf a⟩⟩
    · exact (hcoherent _ (hbyteOf a) _ (hbyteOf a')).1 h
    · exact (hcoherent _ (hbyteOf a) _ h).2 rfl

variable [DecidableEq α] [Enumeration α] {assignment other : Assignment α}

/-- **An accepted assignment holds the recovered pairs.** -/
lemma ofPairs_eq_ok_iff : ofPairs pairs = .ok assignment ↔ assignment.pairs = pairs := by
  constructor
  · intro h
    unfold ofPairs at h
    split at h
    · cases h
    · split at h
      · rw [← Except.ok.inj h]
      · cases h
  · rintro rfl
    exact ofPairs_pairs assignment

/-- **A list of pairs is accepted exactly if it is the graph of a one-to-one function.** -/
lemma exists_ofPairs_iff : (∃ assignment, ofPairs pairs = .ok assignment) ↔ IsGraph pairs := by
  rw [isGraph_iff]
  constructor
  · rintro ⟨assignment, h⟩
    obtain rfl := ofPairs_eq_ok_iff.1 h
    exact ⟨assignment.coherent, assignment.complete⟩
  · rintro ⟨hcoherent, hcomplete⟩
    exact ⟨⟨pairs, hcoherent, hcomplete⟩, ofPairs_eq_ok_iff.2 rfl⟩

/-- Two assignments give the same answers to all look-ups. -/
structure Alike (assignment other : Assignment α) : Prop where
  entry : ∀ byte, assignment.entry? byte = other.entry? byte
  byteOf : ∀ a, assignment.byteOf a = other.byteOf a

/-- Assignments with the same pairs, in any order and number, give the same answers. -/
lemma Alike.of_mem_iff (h : ∀ pair, pair ∈ assignment.pairs ↔ pair ∈ other.pairs) :
    assignment.Alike other where
  entry byte := by
    ext a
    rw [entry?_eq_some_iff, entry?_eq_some_iff, h]
  byteOf a := byteOf_eq_iff.2 ((h _).2 (other.byteOf_mem a))

end Assignment

/-! ## All alphabets -/

/-- The six alphabets of the machine. -/
inductive Alphabet where
  | opcodes
  | registers
  | flags
  | helpers
  | flavours
  | handlers

namespace Alphabet

/-- The entries of an alphabet. -/
@[reducible] def Entry : Alphabet → Type
  | opcodes => Opcode
  | registers => Register
  | flags => Flag
  | helpers => HelperCall
  | flavours => CallFlavour
  | handlers => HandlerKind

/-- Whether two entries of an alphabet are equal can be computed. -/
instance : (alphabet : Alphabet) → DecidableEq alphabet.Entry
  | opcodes => inferInstanceAs (DecidableEq Opcode)
  | registers => inferInstanceAs (DecidableEq Register)
  | flags => inferInstanceAs (DecidableEq Flag)
  | helpers => inferInstanceAs (DecidableEq HelperCall)
  | flavours => inferInstanceAs (DecidableEq CallFlavour)
  | handlers => inferInstanceAs (DecidableEq HandlerKind)

/-- Every alphabet is enumerated. -/
instance : (alphabet : Alphabet) → Enumeration alphabet.Entry
  | opcodes => inferInstanceAs (Enumeration Opcode)
  | registers => inferInstanceAs (Enumeration Register)
  | flags => inferInstanceAs (Enumeration Flag)
  | helpers => inferInstanceAs (Enumeration HelperCall)
  | flavours => inferInstanceAs (Enumeration CallFlavour)
  | handlers => inferInstanceAs (Enumeration HandlerKind)

end Alphabet

namespace ByteTable

/-- The part of a table that is about an alphabet. -/
def assignment (table : ByteTable) : (alphabet : Alphabet) → Assignment alphabet.Entry
  | .opcodes => table.opcodes
  | .registers => table.registers
  | .flags => table.flags
  | .helpers => table.helpers
  | .flavours => table.flavours
  | .handlers => table.handlers

/-- Two tables give the same answers to all look-ups: of bytes and entries, of numbers that need not
be bytes, of raw flags and of the constants. -/
structure Alike (table other : ByteTable) : Prop where
  assignment : ∀ alphabet, (table.assignment alphabet).Alike (other.assignment alphabet)
  helper? : ∀ id, table.helper? id = other.helper? id
  handlerKind? : ∀ id, table.handlerKind? id = other.handlerKind? id
  canonicalFlags : ∀ raw, table.canonicalFlags raw = other.canonicalFlags raw
  initHelper : table.initHelper = other.initHelper
  instanceMask : table.instanceMask = other.instanceMask

/-- Tables whose parts give the same answers, and that have the same constants, give the same
answers to all look-ups. -/
lemma Alike.of_assignment {table other : ByteTable}
    (h : ∀ alphabet, (table.assignment alphabet).Alike (other.assignment alphabet))
    (hinit : table.initHelper = other.initHelper)
    (hmask : table.instanceMask = other.instanceMask) : table.Alike other where
  assignment := h
  helper? id := by
    have hentry : table.helpers.entry? = other.helpers.entry? := funext (h .helpers).entry
    rw [ByteTable.helper?, ByteTable.helper?, hentry]
  handlerKind? id := by
    have hentry : table.handlers.entry? = other.handlers.entry? := funext (h .handlers).entry
    rw [ByteTable.handlerKind?, ByteTable.handlerKind?, hentry]
  canonicalFlags raw := by
    have hentry : table.flags.entry? = other.flags.entry? := funext (h .flags).entry
    rw [ByteTable.canonicalFlags, ByteTable.canonicalFlags, hentry]
  initHelper := hinit
  instanceMask := hmask

namespace Draft

variable {draft other : Draft} {table : ByteTable}

/-- What was recorded for an alphabet. -/
def pairs (draft : Draft) : (alphabet : Alphabet) → List (UInt8 × alphabet.Entry)
  | .opcodes => draft.opcodes
  | .registers => draft.registers
  | .flags => draft.flags
  | .helpers => draft.helpers
  | .flavours => draft.flavours
  | .handlers => draft.handlers

/-- A required constant is found exactly if it was recorded. -/
lemma require_eq_ok_iff {α : Type} {constant? : Option α} {fault : TableFault} {constant : α} :
    require constant? fault = .ok constant ↔ constant? = some constant := by
  cases constant? <;> simp [require]

/-- **A valid table holds what its draft has recorded.** -/
lemma validate_eq_ok_iff : draft.validate = .ok table ↔
    draft.initHelper? = some table.initHelper ∧ draft.instanceMask? = some table.instanceMask ∧
      ∀ alphabet, (table.assignment alphabet).pairs = draft.pairs alphabet := by
  simp only [validate, bind_eq_ok_iff, pure_eq_ok_iff, require_eq_ok_iff,
    Assignment.ofPairs_eq_ok_iff]
  constructor
  · rintro ⟨_, hinit, _, hmask, _, hopcodes, _, hregisters, _, hflags, _, hhelpers, _, hflavours,
      _, hhandlers, rfl⟩
    refine ⟨hinit, hmask, fun alphabet => ?_⟩
    cases alphabet <;> assumption
  · rintro ⟨hinit, hmask, hpairs⟩
    exact ⟨_, hinit, _, hmask, _, hpairs .opcodes, _, hpairs .registers, _, hpairs .flags,
      _, hpairs .helpers, _, hpairs .flavours, _, hpairs .handlers, rfl⟩

/-- What a draft must have recorded: both constants and, for each alphabet, the graph of a
one-to-one function from its entries to bytes. -/
structure IsValid (draft : Draft) : Prop where
  initHelper : draft.initHelper?.isSome = true
  instanceMask : draft.instanceMask?.isSome = true
  pairs : ∀ alphabet, Assignment.IsGraph (draft.pairs alphabet)

/-- **Validation succeeds on the valid drafts and no others.** -/
lemma exists_validate_iff : (∃ table, draft.validate = .ok table) ↔ draft.IsValid := by
  constructor
  · rintro ⟨table, h⟩
    obtain ⟨hinit, hmask, hpairs⟩ := validate_eq_ok_iff.1 h
    refine ⟨by rw [hinit]; rfl, by rw [hmask]; rfl, fun alphabet => ?_⟩
    exact Assignment.exists_ofPairs_iff.1 ⟨_, Assignment.ofPairs_eq_ok_iff.2 (hpairs alphabet)⟩
  · intro h
    obtain ⟨initHelper, hinit⟩ := Option.isSome_iff_exists.1 h.initHelper
    obtain ⟨instanceMask, hmask⟩ := Option.isSome_iff_exists.1 h.instanceMask
    choose assignment hassignment using fun alphabet =>
      Assignment.exists_ofPairs_iff.2 (h.pairs alphabet)
    refine ⟨⟨assignment .opcodes, assignment .registers, assignment .flags, assignment .helpers,
      assignment .flavours, assignment .handlers, initHelper, instanceMask⟩,
      validate_eq_ok_iff.2 ⟨hinit, hmask, fun alphabet => ?_⟩⟩
    have hpairs := Assignment.ofPairs_eq_ok_iff.1 (hassignment alphabet)
    cases alphabet <;> exact hpairs

/-- Two drafts have recorded the same constants and, up to order and repetition, the same pairs. -/
structure RecordsSame (draft other : Draft) : Prop where
  initHelper : draft.initHelper? = other.initHelper?
  instanceMask : draft.instanceMask? = other.instanceMask?
  pairs : ∀ alphabet pair, pair ∈ draft.pairs alphabet ↔ pair ∈ other.pairs alphabet

namespace RecordsSame

/-- Drafts that record the same are both valid, or neither is. -/
lemma isValid_iff (h : draft.RecordsSame other) : draft.IsValid ↔ other.IsValid := by
  have hgraph : ∀ alphabet,
      Assignment.IsGraph (draft.pairs alphabet) ↔ Assignment.IsGraph (other.pairs alphabet) := by
    intro alphabet
    simp only [Assignment.IsGraph, h.pairs alphabet]
  constructor
  · rintro ⟨hinit, hmask, hpairs⟩
    exact ⟨h.initHelper ▸ hinit, h.instanceMask ▸ hmask, fun alphabet => (hgraph _).1 (hpairs _)⟩
  · rintro ⟨hinit, hmask, hpairs⟩
    exact ⟨h.initHelper ▸ hinit, h.instanceMask ▸ hmask, fun alphabet => (hgraph _).2 (hpairs _)⟩

/-- Drafts that have recorded the same lead to tables that give the same answers. -/
lemma alike (h : draft.RecordsSame other) {table' : ByteTable}
    (hdraft : draft.validate = .ok table) (hother : other.validate = .ok table') :
    table.Alike table' := by
  obtain ⟨hinit, hmask, hpairs⟩ := validate_eq_ok_iff.1 hdraft
  obtain ⟨hinit', hmask', hpairs'⟩ := validate_eq_ok_iff.1 hother
  refine .of_assignment (fun alphabet => .of_mem_iff fun pair => ?_) ?_ ?_
  · rw [hpairs, hpairs', h.pairs]
  · exact Option.some.inj (hinit.symm.trans (h.initHelper.trans hinit'))
  · exact Option.some.inj (hmask.symm.trans (h.instanceMask.trans hmask'))

end RecordsSame

/-- **Which drafts are valid, and what their tables answer.**  Validation succeeds exactly if both
constants are set and, for each alphabet, the recorded pairs are the graph of a one-to-one function
from all its entries to bytes.  In a valid table the byte of an entry is the one that the entry is
looked up by.  A draft with the same pairs in another order, or with some of them repeated, is valid
as well, and its table gives the same answers. -/
theorem validate_exact (draft : Draft) :
    ((∃ table, draft.validate = .ok table) ↔ draft.IsValid) ∧
    (∀ table, draft.validate = .ok table → ∀ alphabet entry byte,
      (table.assignment alphabet).byteOf entry = byte ↔
        Assignment.entry? (table.assignment alphabet) byte = some entry) ∧
    ∀ other : Draft, draft.RecordsSame other →
      ((∃ table, draft.validate = .ok table) ↔ ∃ table, other.validate = .ok table) ∧
      ∀ table table', draft.validate = .ok table → other.validate = .ok table' →
        table.Alike table' := by
  refine ⟨exists_validate_iff, fun _ _ _ _ _ => Assignment.byteOf_eq_iff_entry,
    fun other hsame => ⟨?_, fun table table' hdraft hother => hsame.alike hdraft hother⟩⟩
  rw [exists_validate_iff, exists_validate_iff, hsame.isValid_iff]

/-- The sequential draft with all its pairs in reverse order, and then once more, is valid, and its
table gives the same answers as the sequential table. -/
theorem validate_exact_doubled :
    let doubled : Draft := { sequential with
      opcodes := sequential.opcodes.reverse ++ sequential.opcodes
      registers := sequential.registers.reverse ++ sequential.registers
      flags := sequential.flags.reverse ++ sequential.flags
      helpers := sequential.helpers.reverse ++ sequential.helpers
      flavours := sequential.flavours.reverse ++ sequential.flavours
      handlers := sequential.handlers.reverse ++ sequential.handlers }
    ∃ table, doubled.validate = .ok table ∧ ByteTable.sequential.Alike table := by
  intro doubled
  have hsame : sequential.RecordsSame doubled := by
    refine ⟨rfl, rfl, fun alphabet pair => ?_⟩
    cases alphabet <;> simp [doubled, pairs]
  obtain ⟨-, -, hinvariant⟩ := validate_exact sequential
  obtain ⟨hvalid, halike⟩ := hinvariant doubled hsame
  obtain ⟨table, htable⟩ := hvalid.1 ⟨_, validate_sequential⟩
  exact ⟨table, htable, halike _ table validate_sequential htable⟩

end Draft

end ByteTable

end KeyedVM
