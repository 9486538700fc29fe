import KeyedVM.Dependency.Evaluator
import KeyedVM.Proofs.Dependency.Closure
import Mathlib.Data.Multiset.AddSub
import Mathlib.Order.Bounds.Basic

set_option relaxedAutoImplicit false
set_option autoImplicit false

/-!
# Collecting a closure in any order

The offsets that are pending while a closure is collected are a stack, but nothing depends on that.
This module describes a worklist that may take any pending offset next.  Whatever it takes, it
comes to an end, and whether it finds a closure and which one is settled by the findings alone: the
closure is the least set with the source and the sole producers of its members.

## Main definitions

* `KeyedVM.Findings.IsClosure` — the least set with a source and the sole producers of its members,
  if all of them may take part and there are not too many;
* `KeyedVM.Worklist.Step` — a worklist takes any of the pending offsets;
* `KeyedVM.Worklist.Answers` — the outcomes of a worklist that starts with a source;
* `KeyedVM.Worklist.Sound` — the invariant of a worklist;
* `KeyedVM.Evaluator.closure` — the closure that an evaluation asks for.

## Main results

* `KeyedVM.Worklist.wellFounded_step` — every worklist comes to an end;
* `KeyedVM.Worklist.Answers.eq_ok_iff` — a worklist finds a closure if there is one, in any order;
* `KeyedVM.Evaluator.closure_exact` — so does the evaluator, which reports any fault at the
  consumer.
-/

namespace KeyedVM

/-! ## The closure of a source -/

namespace Findings

variable {findings : Findings}

/-- The instruction at `offset` consumes a value that only the one at `producer` can have
produced. -/
def HasSoleProducer (findings : Findings) (offset producer : Offset) : Prop :=
  ∃ finding, findings[offset]? = some finding ∧
    ∃ value ∈ finding.consumed, value.single? = some producer

/-- A set holds `source` and the sole producers of its members. -/
structure ClosedAbove (findings : Findings) (source : Offset) (offsets : Set Offset) : Prop where
  source_mem : source ∈ offsets
  producers : ∀ x ∈ offsets, ∀ y, findings.HasSoleProducer x y → y ∈ offsets

/-- The dependency closure of `source`: the least set that holds it and the sole producers of its
members.  All members may take part, and there are at most `limit` of them. -/
structure IsClosure (findings : Findings) (limit : Nat) (source : Offset) (members : Provenance) :
    Prop where
  least : IsLeast {offsets | findings.ClosedAbove source offsets} {x | x ∈ members}
  size_le : members.size ≤ limit
  accepts : ∀ x ∈ members, findings.Accepts x

/-- A source has at most one closure. -/
lemma IsClosure.unique {limit : Nat} {source : Offset} {a b : Provenance}
    (ha : findings.IsClosure limit source a) (hb : findings.IsClosure limit source b) : a = b := by
  have hsame : {x | x ∈ a} = {x | x ∈ b} := ha.least.unique hb.least
  apply Std.ExtTreeSet.ext_mem
  intro x
  exact Set.ext_iff.1 hsame x

/-- The producers of an instruction that may take part are all sole producers. -/
lemma Accepts.hasSoleProducer_iff {offset producer : Offset} (h : findings.Accepts offset) :
    findings.HasSoleProducer offset producer ↔ findings.DependsOn offset producer := by
  obtain ⟨finding, hfinding, -, hdeterminate⟩ := h
  constructor
  · rintro ⟨finding', hfinding', value, hvalue, hsingle⟩
    refine ⟨finding', hfinding', value, hvalue, ?_⟩
    rw [Provenance.single?_eq_some_iff.1 hsingle]
    exact Provenance.mem_of.2 rfl
  · intro hdepends
    obtain ⟨value, hvalue, hmem⟩ := hdepends.exists_mem hfinding
    refine ⟨finding, hfinding, value, hvalue, ?_⟩
    rcases hdeterminate value hvalue with ⟨only, rfl⟩ | ⟨rfl, -⟩
    · rw [Provenance.mem_of.1 hmem]
      exact Provenance.single?_eq_some_iff.2 rfl
    · exact absurd hmem (Provenance.not_mem_unknown producer)

/-- Accepting an instruction gives its sole producers. -/
lemma mem_of_accept_iff_hasSoleProducer {offset producer : Offset} {producers : List Offset}
    (h : findings.accept offset = .ok producers) :
    producer ∈ producers ↔ findings.HasSoleProducer offset producer := by
  rw [(exists_accept_iff.1 ⟨producers, h⟩).hasSoleProducer_iff, mem_of_accept h]

end Findings

/-! ## Worklists -/

/-- A worklist with its members so far and the offsets that are pending, or its outcome. -/
inductive Worklist where
  | running (members : Provenance) (pending : Multiset Offset)
  | stopped (outcome : Except ResolveFault Provenance)

namespace Worklist

variable {findings : Findings} {limit : Nat} {source : Offset}

/-- A worklist takes one of the pending offsets, no matter which.  A member is passed over.  Any
other offset is taken in with its producers pending, if there is room for it and it may take
part. -/
inductive Step (findings : Findings) (limit : Nat) : Worklist → Worklist → Prop
  | finish {members : Provenance} : Step findings limit (running members 0) (stopped (.ok members))
  | skip {members : Provenance} {pending : Multiset Offset} {offset : Offset} :
      offset ∈ members →
      Step findings limit (running members (offset ::ₘ pending)) (running members pending)
  | full {members : Provenance} {pending : Multiset Offset} {offset : Offset} :
      offset ∉ members → limit ≤ members.size →
      Step findings limit (running members (offset ::ₘ pending))
        (stopped (.error (.closureLimit limit)))
  | refuse {members : Provenance} {pending : Multiset Offset} {offset : Offset}
      {fault : ResolveFault} :
      offset ∉ members → members.size < limit → findings.accept offset = .error fault →
      Step findings limit (running members (offset ::ₘ pending)) (stopped (.error fault))
  | take {members : Provenance} {pending : Multiset Offset} {offset : Offset}
      {producers : List Offset} :
      offset ∉ members → members.size < limit → findings.accept offset = .ok producers →
      Step findings limit (running members (offset ::ₘ pending))
        (running (members.insert offset) (producers + pending))

/-- An outcome of a worklist that starts with `source`. -/
def Answers (findings : Findings) (limit : Nat) (source : Offset)
    (outcome : Except ResolveFault Provenance) : Prop :=
  Relation.ReflTransGen (Step findings limit) (running ∅ {source}) (stopped outcome)

/-! ### Every worklist comes to an end -/

/-- The room for further members, counted from one, and the number of pending offsets. -/
def rank (limit : Nat) : Worklist → Nat × Nat
  | running members pending => (limit - members.size + 1, pending.card)
  | stopped _ => (0, 0)

/-- A step makes the room smaller, or leaves it and makes the pending offsets fewer. -/
lemma Step.rank_lt {work next : Worklist} (h : Step findings limit work next) :
    Prod.Lex (· < ·) (· < ·) (next.rank limit) (work.rank limit) := by
  cases h with
  | finish => exact .left _ _ (Nat.succ_pos _)
  | skip hmem =>
    apply Prod.Lex.right
    rw [Multiset.card_cons]
    exact Nat.lt_succ_self _
  | full hnew hfull => exact .left _ _ (Nat.succ_pos _)
  | refuse hnew hroom hrefused => exact .left _ _ (Nat.succ_pos _)
  | take hnew hroom haccept =>
    apply Prod.Lex.left
    rw [Provenance.size_insert_of_not_mem hnew]
    omega

/-- **Every worklist comes to an end**, no matter which pending offsets it takes. -/
theorem wellFounded_step (findings : Findings) (limit : Nat) :
    WellFounded (flip (Step findings limit)) := by
  have hlex : WellFounded (Prod.Lex (· < ·) (· < ·) : Nat × Nat → Nat × Nat → Prop) :=
    (Prod.lex Nat.lt_wfRel Nat.lt_wfRel).wf
  exact Subrelation.wf Step.rank_lt (InvImage.wf (rank limit) hlex)

/-- A worklist that has not stopped can go on. -/
lemma exists_step (findings : Findings) (limit : Nat) (members : Provenance)
    (pending : Multiset Offset) : ∃ next, Step findings limit (running members pending) next := by
  rcases pending.empty_or_exists_mem with rfl | ⟨offset, hpending⟩
  · exact ⟨_, .finish⟩
  obtain ⟨rest, rfl⟩ := Multiset.exists_cons_of_mem hpending
  by_cases hmem : offset ∈ members
  · exact ⟨_, .skip hmem⟩
  by_cases hroom : members.size < limit
  · cases haccept : findings.accept offset with
    | error fault => exact ⟨_, .refuse hmem hroom haccept⟩
    | ok producers => exact ⟨_, .take hmem hroom haccept⟩
  · exact ⟨_, .full hmem (Nat.le_of_not_lt hroom)⟩

/-! ### Every worklist finds the closure -/

/-- What holds while a worklist runs.  Its members may take part and have their producers among the
members and the pending offsets, and every set that is closed above the source holds all of
these. -/
structure Underway (findings : Findings) (limit : Nat) (source : Offset) (members : Provenance)
    (pending : Multiset Offset) : Prop where
  source_mem : source ∈ members ∨ source ∈ pending
  producers : ∀ x ∈ members, ∀ y, findings.HasSoleProducer x y → y ∈ members ∨ y ∈ pending
  needed : ∀ offsets, findings.ClosedAbove source offsets →
    ∀ x, x ∈ members ∨ x ∈ pending → x ∈ offsets
  size_le : members.size ≤ limit
  accepts : ∀ x ∈ members, findings.Accepts x

/-- The invariant of a worklist: it is underway, or it has found the closure of the source, or there
is none. -/
def Sound (findings : Findings) (limit : Nat) (source : Offset) : Worklist → Prop
  | running members pending => Underway findings limit source members pending
  | stopped (.ok members) => findings.IsClosure limit source members
  | stopped (.error _) => ¬ ∃ members, findings.IsClosure limit source members

namespace Underway

variable {members result : Provenance} {pending : Multiset Offset} {offset : Offset}

/-- At the start only the source is pending. -/
lemma start : Underway findings limit source ∅ {source} where
  source_mem := Or.inr (Multiset.mem_singleton_self source)
  producers x hx := absurd hx Std.ExtTreeSet.not_mem_empty
  needed offsets hclosed x hx := by
    rcases hx with hx | hx
    · exact absurd hx Std.ExtTreeSet.not_mem_empty
    · rw [Multiset.mem_singleton.1 hx]
      exact hclosed.source_mem
  size_le := by
    rw [Std.ExtTreeSet.size_empty]
    exact Nat.zero_le limit
  accepts x hx := absurd hx Std.ExtTreeSet.not_mem_empty

/-- If nothing is pending, then the members are the closure. -/
lemma isClosure (h : Underway findings limit source members 0) :
    findings.IsClosure limit source members where
  least := by
    refine ⟨⟨?_, fun x hx y hy => ?_⟩, fun offsets hclosed x hx => ?_⟩
    · exact h.source_mem.resolve_right (Multiset.notMem_zero source)
    · exact (h.producers x hx y hy).resolve_right (Multiset.notMem_zero y)
    · exact h.needed offsets hclosed x (Or.inl hx)
  size_le := h.size_le
  accepts := h.accepts

/-- A closure holds the members and the pending offsets. -/
lemma mem_of_isClosure (h : Underway findings limit source members pending)
    (hresult : findings.IsClosure limit source result) {x : Offset}
    (hx : x ∈ members ∨ x ∈ pending) : x ∈ result :=
  h.needed {x | x ∈ result} hresult.least.1 x hx

/-- A member that is pending can be passed over. -/
lemma skip (h : Underway findings limit source members (offset ::ₘ pending))
    (hmem : offset ∈ members) : Underway findings limit source members pending := by
  have hkept : ∀ x, x ∈ members ∨ x ∈ offset ::ₘ pending → x ∈ members ∨ x ∈ pending := by
    intro x hx
    rcases hx with hx | hx
    · exact Or.inl hx
    · rcases Multiset.mem_cons.1 hx with rfl | hx
      · exact Or.inl hmem
      · exact Or.inr hx
  exact
    { source_mem := hkept source h.source_mem
      producers := fun x hx y hy => hkept y (h.producers x hx y hy)
      needed := fun offsets hclosed x hx =>
        h.needed offsets hclosed x (hx.imp_right Multiset.mem_cons_of_mem)
      size_le := h.size_le
      accepts := h.accepts }

/-- An offset that is new to a worklist fits into the closure, if there is one. -/
lemma size_lt (h : Underway findings limit source members (offset ::ₘ pending))
    (hnew : offset ∉ members) (hresult : findings.IsClosure limit source result) :
    members.size < limit := by
  have hle : (members.insert offset).size ≤ result.size := by
    apply Provenance.size_le_size
    intro x hx
    apply h.mem_of_isClosure hresult
    rcases Provenance.mem_insert_iff.1 hx with rfl | hx
    · exact Or.inr (Multiset.mem_cons_self x pending)
    · exact Or.inl hx
  rw [Provenance.size_insert_of_not_mem hnew] at hle
  exact Nat.lt_of_lt_of_le hle hresult.size_le

/-- An offset that may take part can be taken in. -/
lemma take {producers : List Offset}
    (h : Underway findings limit source members (offset ::ₘ pending)) (hnew : offset ∉ members)
    (hroom : members.size < limit) (haccept : findings.accept offset = .ok producers) :
    Underway findings limit source (members.insert offset) (producers + pending) := by
  have hproducers : ∀ y, y ∈ producers ↔ findings.HasSoleProducer offset y :=
    fun y => Findings.mem_of_accept_iff_hasSoleProducer haccept
  have hkept : ∀ x, x ∈ members ∨ x ∈ offset ::ₘ pending →
      x ∈ members.insert offset ∨ x ∈ (producers : Multiset Offset) + pending := by
    intro x hx
    rw [Provenance.mem_insert_iff, Multiset.mem_add]
    rw [Multiset.mem_cons] at hx
    tauto
  constructor
  · exact hkept source h.source_mem
  · intro x hx y hy
    rcases Provenance.mem_insert_iff.1 hx with rfl | hx
    · exact Or.inr (Multiset.mem_add.2 (Or.inl ((hproducers y).2 hy)))
    · exact hkept y (h.producers x hx y hy)
  · intro offsets hclosed x hx
    have hoffset : offset ∈ offsets :=
      h.needed offsets hclosed offset (Or.inr (Multiset.mem_cons_self offset pending))
    rw [Provenance.mem_insert_iff, Multiset.mem_add] at hx
    rcases hx with (rfl | hx) | hx | hx
    · exact hoffset
    · exact h.needed offsets hclosed x (Or.inl hx)
    · -- The producers of the new member are in every closed set, since the member is.
      exact hclosed.producers offset hoffset x ((hproducers x).1 hx)
    · exact h.needed offsets hclosed x (Or.inr (Multiset.mem_cons_of_mem hx))
  · rw [Provenance.size_insert_of_not_mem hnew]
    exact hroom
  · intro x hx
    rcases Provenance.mem_insert_iff.1 hx with rfl | hx
    · exact Findings.exists_accept_iff.1 ⟨producers, haccept⟩
    · exact h.accepts x hx

end Underway

/-- A step keeps a worklist sound.

**Proof sketch.** A worklist that stops with a fault has reached an offset that every set closed
above the source holds.  If there were a closure, then the offset would be one of its members, for
which there is room and which may take part. -/
lemma Step.sound {work next : Worklist} (h : Step findings limit work next)
    (hsound : Sound findings limit source work) : Sound findings limit source next := by
  cases h with
  | finish => exact hsound.isClosure
  | skip hmem => exact hsound.skip hmem
  | full hnew hfull =>
    rintro ⟨result, hresult⟩
    exact absurd (hsound.size_lt hnew hresult) (Nat.not_lt.2 hfull)
  | refuse hnew hroom hrefused =>
    rintro ⟨result, hresult⟩
    have hmem := hsound.mem_of_isClosure hresult (Or.inr (Multiset.mem_cons_self _ _))
    obtain ⟨producers, haccept⟩ := Findings.exists_accept_iff.2 (hresult.accepts _ hmem)
    rw [hrefused] at haccept
    cases haccept
  | take hnew hroom haccept => exact hsound.take hnew hroom haccept

/-- Any number of steps keeps a worklist sound. -/
lemma Sound.run {work next : Worklist} (hsound : Sound findings limit source work)
    (h : Relation.ReflTransGen (Step findings limit) work next) :
    Sound findings limit source next := by
  induction h with
  | refl => exact hsound
  | tail _ hstep ih => exact hstep.sound ih

/-- **A worklist finds the closure of its source if there is one**, no matter which pending offsets
it takes; and otherwise it fails. -/
theorem Answers.eq_ok_iff {outcome : Except ResolveFault Provenance} {members : Provenance}
    (h : Answers findings limit source outcome) :
    outcome = .ok members ↔ findings.IsClosure limit source members := by
  have hstart : Sound findings limit source (running ∅ {source}) := Underway.start
  have hsound : Sound findings limit source (stopped outcome) := hstart.run h
  cases outcome with
  | error fault =>
    constructor
    · intro hok
      cases hok
    · intro hmembers
      exact absurd ⟨members, hmembers⟩ hsound
  | ok found =>
    constructor
    · intro hok
      cases hok
      exact hsound
    · intro hmembers
      rw [Findings.IsClosure.unique hsound hmembers]

/-! ### Latest first -/

/-- The members at the front of a list of pending offsets are passed over. -/
lemma run_dropWhile (members : Provenance) (pending : List Offset) :
    Relation.ReflTransGen (Step findings limit) (running members pending)
      (running members (pending.dropWhile members.contains)) := by
  induction pending with
  | nil => exact .refl
  | cons offset rest ih =>
    rw [List.dropWhile_cons]
    by_cases hmem : members.contains offset = true
    · rw [if_pos hmem, ← Multiset.cons_coe]
      exact .head (.skip (Std.ExtTreeSet.contains_iff_mem.1 hmem)) ih
    · rw [if_neg hmem]

/-- To take the latest pending offset first is one way for a worklist to go on. -/
lemma run_expand {room : Nat} {members : Provenance} {pending : List Offset}
    (hroom : members.size + room = limit) :
    Relation.ReflTransGen (Step findings limit) (running members pending)
      (stopped (findings.expand limit room members pending)) := by
  induction room generalizing members pending with
  | zero =>
    refine (run_dropWhile members pending).trans ?_
    unfold Findings.expand
    split
    · next hnil =>
      rw [hnil]
      exact .single .finish
    · next offset rest hcons =>
      rw [hcons, ← Multiset.cons_coe]
      exact .single (.full (Findings.not_mem_of_dropWhile hcons).1 (by omega))
  | succ room ih =>
    refine (run_dropWhile members pending).trans ?_
    unfold Findings.expand
    split
    · next hnil =>
      rw [hnil]
      exact .single .finish
    · next offset rest hcons =>
      have hnew : offset ∉ members := (Findings.not_mem_of_dropWhile hcons).1
      rw [hcons, ← Multiset.cons_coe]
      cases haccept : findings.accept offset with
      | error fault => exact .single (.refuse hnew (by omega) haccept)
      | ok producers =>
        have hsize : (members.insert offset).size + room = limit := by
          rw [Provenance.size_insert_of_not_mem hnew]
          omega
        have hrest := @ih (members.insert offset) (producers.reverse ++ rest) hsize
        rw [← Multiset.coe_add, Multiset.coe_reverse] at hrest
        exact .head (.take hnew (by omega) haccept) hrest

/-- The closure that is collected latest first is an outcome of the worklist. -/
lemma answers_closure (findings : Findings) (limit : Nat) (source : Offset) :
    Answers findings limit source (findings.closure limit source) := by
  apply run_expand
  rw [Std.ExtTreeSet.size_empty, Nat.zero_add]

end Worklist

/-! ## The closure of an evaluation -/

namespace Evaluator

/-- The closure that an evaluation asks for.  What is wrong with it is reported at the consumer. -/
def closure (evaluator : Evaluator) (source consumer : Offset) : Except Error Provenance :=
  (evaluator.findings.closure evaluator.settings.maxClosure source).mapError
    (.unresolvable consumer)

/-- An evaluation without a closure fails as the closure does. -/
lemma evaluate_of_closure_eq_error {evaluator : Evaluator} {source consumer : Offset}
    {error : Error} (h : evaluator.closure source consumer = .error error) :
    evaluator.evaluate source consumer = .error error := by
  unfold closure at h
  unfold evaluate
  rw [h]
  rfl

/-- **The dependency closure is exact.**  An evaluation finds a closure exactly if there is one: the
least set with the source and the sole producers of its members, all of which may take part, of
allowed size.  Otherwise it fails at its consumer.

Nothing of this depends on the order: a worklist that may take any pending offset next always comes
to an end.  The evaluator's is one of these, and all of them find the same closure or all fail. -/
theorem closure_exact (evaluator : Evaluator) (source consumer : Offset) :
    (∀ members, evaluator.closure source consumer = .ok members ↔
      evaluator.findings.IsClosure evaluator.settings.maxClosure source members) ∧
    ((¬ ∃ members, evaluator.findings.IsClosure evaluator.settings.maxClosure source members) →
      ∃ fault, evaluator.closure source consumer = .error (.unresolvable consumer fault) ∧
        evaluator.evaluate source consumer = .error (.unresolvable consumer fault)) ∧
    WellFounded (flip (Worklist.Step evaluator.findings evaluator.settings.maxClosure)) ∧
    (∀ members pending, ∃ next, Worklist.Step evaluator.findings evaluator.settings.maxClosure
      (.running members pending) next) ∧
    Worklist.Answers evaluator.findings evaluator.settings.maxClosure source
      (evaluator.findings.closure evaluator.settings.maxClosure source) ∧
    ∀ outcome, Worklist.Answers evaluator.findings evaluator.settings.maxClosure source outcome →
      ∀ members, outcome = .ok members ↔ evaluator.closure source consumer = .ok members := by
  have hown := Worklist.answers_closure evaluator.findings evaluator.settings.maxClosure source
  have hexact : ∀ members, evaluator.closure source consumer = .ok members ↔
      evaluator.findings.IsClosure evaluator.settings.maxClosure source members :=
    fun members => mapError_eq_ok_iff.trans hown.eq_ok_iff
  refine ⟨hexact, fun hnone => ?_, Worklist.wellFounded_step _ _, Worklist.exists_step _ _, hown,
    fun outcome houtcome members => ?_⟩
  · cases hclosure : evaluator.findings.closure evaluator.settings.maxClosure source with
    | ok members => exact absurd ⟨members, hown.eq_ok_iff.1 hclosure⟩ hnone
    | error fault =>
      have hfails : evaluator.closure source consumer = .error (.unresolvable consumer fault) := by
        rw [closure, hclosure]
        rfl
      exact ⟨fault, hfails, evaluate_of_closure_eq_error hfails⟩
  · rw [hexact, houtcome.eq_ok_iff]

/-- A sum in a loop: `PUSHI 1`, `PUSHR R1`, `ADD`, `POP R1`.  The pushed register is the sum of the
round before. -/
def loopSum : Findings :=
  let line (offset : Offset) (opcode : Opcode) (operand : Operand) (consumed : List Provenance) :
    Offset × Finding := (offset, { offset, opcode, operand, state := {}, consumed })
  .ofList
    [line 0 (.pushi .dword) (.dword 1) [],
      line 6 (.pushr .qword) (.register .r1) [.of 11],
      line 9 (.add .qword) .none [.of 6, .of 0],
      line 11 .pop (.register .r1) [.of 9]]

/-- The closure of the sum is the whole loop; if only three instructions are allowed then there is
none. -/
theorem closure_exact_loopSum :
    (∃ members, loopSum.IsClosure 4 9 members ∧ members.toList = [0, 6, 9, 11]) ∧
      ∃ fault, evaluate ⟨loopSum, { maxClosure := 3 }⟩ 9 14 = .error (.unresolvable 14 fault) := by
  obtain ⟨hfound, -⟩ := closure_exact ⟨loopSum, { maxClosure := 4 }⟩ 9 14
  obtain ⟨hexact, hfails, -⟩ := closure_exact ⟨loopSum, { maxClosure := 3 }⟩ 9 14
  constructor
  · obtain ⟨members, hmembers, hlist⟩ : ∃ members,
        closure ⟨loopSum, { maxClosure := 4 }⟩ 9 14 = .ok members ∧
          members.toList = [0, 6, 9, 11] := exists_eq_ok (by decide +kernel)
    exact ⟨members, (hfound members).1 hmembers, hlist⟩
  · have herror : closure ⟨loopSum, { maxClosure := 3 }⟩ 9 14
        = .error (.unresolvable 14 (.closureLimit 3)) := eq_error_of_failsWith (by decide +kernel)
    have hnone : ¬ ∃ members, loopSum.IsClosure 3 9 members := by
      rintro ⟨members, hmembers⟩
      rw [(hexact members).2 hmembers] at herror
      cases herror
    obtain ⟨fault, -, hevaluate⟩ := hfails hnone
    exact ⟨fault, hevaluate⟩

end Evaluator

end KeyedVM
