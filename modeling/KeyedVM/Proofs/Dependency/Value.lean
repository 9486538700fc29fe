import KeyedVM.Dependency.Closure
import KeyedVM.Settings
import Mathlib.Logic.Relation
import Mathlib.Tactic.Lemma

set_option relaxedAutoImplicit false
set_option autoImplicit false

/-!
# Values of the dependency graph

The recorded findings form a graph: an instruction depends on the producers of what it consumes.
Where every consumed value has a single producer, and the graph below an instruction has no cycle,
the instruction has a value, which is computed from the values of its producers.  This module
defines that value without any replay.

## Main definitions

* `KeyedVM.Findings.DependsOn`, `KeyedVM.Findings.TakesPart` — the graph and its paths;
* `KeyedVM.Findings.HasValue` — the value of an instruction;
* `KeyedVM.Findings.AcyclicFrom` — there is no cycle below an instruction.

## Main results

* `KeyedVM.Findings.HasValue.unique` — an instruction has at most one value;
* `KeyedVM.Findings.HasValue.acyclic` — there is no cycle below an instruction that has a value.
-/

namespace KeyedVM

/-! ## Single producers -/

namespace Provenance

/-- The provenance of a value that one instruction produces lists that instruction. -/
lemma toList_of (offset : Offset) : (of offset).toList = [offset] := by
  have hlength : (of offset).toList.length = 1 := by
    rw [Std.ExtTreeSet.length_toList]
    simp [of, unknown, Std.ExtTreeSet.size_insert]
  obtain ⟨x, hx⟩ := List.length_eq_one_iff.1 hlength
  have hmem : x ∈ of offset := by
    rw [← Std.ExtTreeSet.mem_toList, hx]
    exact List.mem_singleton_self x
  rw [hx, mem_of.1 hmem]

/-- A value has a single producer exactly if its provenance is that of one instruction. -/
lemma single?_eq_some_iff {value : Provenance} {offset : Offset} :
    value.single? = some offset ↔ value = .of offset := by
  constructor
  · intro h
    unfold single? at h
    split at h
    · next o heq =>
      rw [Option.some.injEq] at h
      subst h
      apply Std.ExtTreeSet.ext_mem
      intro x
      rw [← Std.ExtTreeSet.mem_toList, heq, mem_of, List.mem_singleton]
    · cases h
  · rintro rfl
    rw [single?, toList_of]

/-- Different instructions have different provenances. -/
lemma of_injective {a b : Offset} (h : of a = of b) : a = b :=
  mem_of.1 (h ▸ mem_of.2 rfl)

/-- A value that comes from outside has no producer. -/
lemma not_mem_unknown (offset : Offset) : offset ∉ unknown :=
  Std.ExtTreeSet.not_mem_empty

/-- A produced value does not come from outside. -/
lemma of_ne_unknown (offset : Offset) : of offset ≠ unknown := by
  intro h
  have hmem : offset ∈ of offset := mem_of.2 rfl
  rw [h] at hmem
  exact not_mem_unknown offset hmem

end Provenance

/-! ## The dependency graph -/

namespace Findings

variable {findings : Findings} {entry : RegisterFile (Option UInt64)}

/-- The instruction at `offset` consumes a value that the one at `producer` may have produced. -/
def DependsOn (findings : Findings) (offset producer : Offset) : Prop :=
  ∃ finding, findings[offset]? = some finding ∧ ∃ value ∈ finding.consumed, producer ∈ value

/-- An instruction depends on the only producer of a value that it consumes. -/
lemma DependsOn.of_consumed {offset producer : Offset} {consumed : List Provenance}
    (h : findings[offset]?.map (·.consumed) = some consumed) (hmem : .of producer ∈ consumed) :
    findings.DependsOn offset producer := by
  obtain ⟨finding, hfinding, rfl⟩ := Option.map_eq_some_iff.1 h
  exact ⟨finding, hfinding, _, hmem, Provenance.mem_of.2 rfl⟩

/-- The instruction at `offset` takes part in computing what the one at `source` produces. -/
def TakesPart (findings : Findings) (source offset : Offset) : Prop :=
  Relation.ReflTransGen findings.DependsOn source offset

/-- There is no cycle below an instruction. -/
def AcyclicFrom (findings : Findings) (source : Offset) : Prop :=
  ∀ offset, findings.TakesPart source offset → ¬ Relation.TransGen findings.DependsOn offset offset

/-- The value of an instruction, given the values that registers have at entry.

A pushed immediate is its own value.  A pushed register has, under the mask of the push, the value
of the `POP` that wrote it, or its entry value if it comes from outside; a register that was
written by another instruction has no value.  A `POP` has the value that it takes off the stack.
Arithmetic is applied to the values of the producers; what is popped first is the second
argument. -/
inductive HasValue (findings : Findings) (entry : RegisterFile (Option UInt64)) :
    Offset → UInt64 → Prop
  | immediate {offset : Offset} {finding : Finding} {value : UInt64} :
      findings[offset]? = some finding →
      finding.opcode.action? = some .pushImmediate →
      finding.operand.immediate? = some value →
      finding.consumed = [] →
      HasValue findings entry offset value
  | entryRegister {offset : Offset} {finding : Finding} {mask value : UInt64}
      {register : Register} :
      findings[offset]? = some finding →
      finding.opcode.action? = some (.pushRegister mask) →
      finding.operand.register? = some register →
      finding.consumed = [.unknown] →
      entry.get register = some value →
      HasValue findings entry offset (value &&& mask)
  | register {offset producer : Offset} {finding writer : Finding} {mask value : UInt64} :
      findings[offset]? = some finding →
      finding.opcode.action? = some (.pushRegister mask) →
      finding.consumed = [.of producer] →
      findings[producer]? = some writer →
      writer.opcode = .pop →
      HasValue findings entry producer value →
      HasValue findings entry offset (value &&& mask)
  | popped {offset producer : Offset} {finding : Finding} {value : UInt64} :
      findings[offset]? = some finding →
      finding.opcode.action? = some .popRegister →
      finding.consumed = [.of producer] →
      HasValue findings entry producer value →
      HasValue findings entry offset value
  | unary {offset producer : Offset} {finding : Finding} {f : UInt64 → UInt64} {value : UInt64} :
      findings[offset]? = some finding →
      finding.opcode.action? = some (.unary f) →
      finding.consumed = [.of producer] →
      HasValue findings entry producer value →
      HasValue findings entry offset (f value)
  | binary {offset producer producer' : Offset} {finding : Finding}
      {f : UInt64 → UInt64 → UInt64} {second first : UInt64} :
      findings[offset]? = some finding →
      finding.opcode.action? = some (.binary f) →
      finding.consumed = [.of producer, .of producer'] →
      HasValue findings entry producer second →
      HasValue findings entry producer' first →
      HasValue findings entry offset (f first second)

/-- The values that an instruction with a given action has. -/
def Yields (findings : Findings) (entry : RegisterFile (Option UInt64)) (finding : Finding) :
    Action → UInt64 → Prop
  | .pushImmediate, value => finding.operand.immediate? = some value ∧ finding.consumed = []
  | .pushRegister mask, value =>
    (∃ register word, finding.operand.register? = some register ∧ finding.consumed = [.unknown] ∧
      entry.get register = some word ∧ value = word &&& mask) ∨
    ∃ producer writer word, finding.consumed = [.of producer] ∧
      findings[producer]? = some writer ∧ writer.opcode = .pop ∧
      findings.HasValue entry producer word ∧ value = word &&& mask
  | .popRegister, value =>
    ∃ producer, finding.consumed = [.of producer] ∧ findings.HasValue entry producer value
  | .unary f, value => ∃ producer word, finding.consumed = [.of producer] ∧
      findings.HasValue entry producer word ∧ value = f word
  | .binary f, value => ∃ producer producer' second first,
      finding.consumed = [.of producer, .of producer'] ∧
      findings.HasValue entry producer second ∧ findings.HasValue entry producer' first ∧
      value = f first second
  | .skip, _ => False

/-- The action of an instruction says how its value is computed. -/
lemma hasValue_iff {offset : Offset} {finding : Finding} {action : Action} {value : UInt64}
    (hf : findings[offset]? = some finding) (ha : finding.opcode.action? = some action) :
    findings.HasValue entry offset value ↔ findings.Yields entry finding action value := by
  constructor
  · intro h
    cases h with
    | immediate hf' ha' hi hc =>
      obtain rfl := Option.some.inj (hf.symm.trans hf')
      obtain rfl := Option.some.inj (ha.symm.trans ha')
      exact ⟨hi, hc⟩
    | entryRegister hf' ha' hr hc he =>
      obtain rfl := Option.some.inj (hf.symm.trans hf')
      obtain rfl := Option.some.inj (ha.symm.trans ha')
      exact Or.inl ⟨_, _, hr, hc, he, rfl⟩
    | register hf' ha' hc hw hp hv =>
      obtain rfl := Option.some.inj (hf.symm.trans hf')
      obtain rfl := Option.some.inj (ha.symm.trans ha')
      exact Or.inr ⟨_, _, _, hc, hw, hp, hv, rfl⟩
    | popped hf' ha' hc hv =>
      obtain rfl := Option.some.inj (hf.symm.trans hf')
      obtain rfl := Option.some.inj (ha.symm.trans ha')
      exact ⟨_, hc, hv⟩
    | unary hf' ha' hc hv =>
      obtain rfl := Option.some.inj (hf.symm.trans hf')
      obtain rfl := Option.some.inj (ha.symm.trans ha')
      exact ⟨_, _, hc, hv, rfl⟩
    | binary hf' ha' hc hv hv' =>
      obtain rfl := Option.some.inj (hf.symm.trans hf')
      obtain rfl := Option.some.inj (ha.symm.trans ha')
      exact ⟨_, _, _, _, hc, hv, hv', rfl⟩
  · intro h
    cases action with
    | pushImmediate => exact .immediate hf ha h.1 h.2
    | pushRegister mask =>
      rcases h with ⟨register, word, hr, hc, he, rfl⟩ |
        ⟨producer, writer, word, hc, hw, hp, hv, rfl⟩
      · exact .entryRegister hf ha hr hc he
      · exact .register hf ha hc hw hp hv
    | popRegister =>
      obtain ⟨producer, hc, hv⟩ := h
      exact .popped hf ha hc hv
    | unary f =>
      obtain ⟨producer, word, hc, hv, rfl⟩ := h
      exact .unary hf ha hc hv
    | binary f =>
      obtain ⟨producer, producer', second, first, hc, hv, hv', rfl⟩ := h
      exact .binary hf ha hc hv hv'
    | skip => exact h.elim

/-- Only a replayable instruction has a value. -/
lemma HasValue.exists_action {offset : Offset} {finding : Finding} {value : UInt64}
    (h : findings.HasValue entry offset value) (hf : findings[offset]? = some finding) :
    ∃ action, finding.opcode.action? = some action := by
  cases h with
  | immediate hf' ha | entryRegister hf' ha | register hf' ha | popped hf' ha | unary hf' ha
  | binary hf' ha => exact ⟨_, Option.some.inj (hf'.symm.trans hf) ▸ ha⟩

/-- **An instruction has at most one value.**

**Proof sketch.** Induction on the first derivation.  The second one ends with the same rule,
because the action of the instruction and what it consumes are the same. -/
theorem HasValue.unique {offset : Offset} {value value' : UInt64}
    (h : findings.HasValue entry offset value) (h' : findings.HasValue entry offset value') :
    value = value' := by
  induction h generalizing value' with
  | immediate hf ha hi _ =>
    exact Option.some.inj (hi.symm.trans ((hasValue_iff hf ha).1 h').1)
  | entryRegister hf ha hr hc he =>
    obtain ⟨r, word, hr', -, he', rfl⟩ | ⟨producer, _, _, hc', -⟩ := (hasValue_iff hf ha).1 h'
    · rw [hr, Option.some.injEq] at hr'
      rw [← hr', he, Option.some.injEq] at he'
      rw [he']
    · rw [hc, List.cons.injEq] at hc'
      exact absurd hc'.1.symm (Provenance.of_ne_unknown producer)
  | register hf ha hc hw hp hv ih =>
    obtain ⟨_, _, -, hc', -⟩ | ⟨producer, _, word, hc', -, -, hv', rfl⟩ :=
      (hasValue_iff hf ha).1 h'
    · rw [hc, List.cons.injEq] at hc'
      exact absurd hc'.1 (Provenance.of_ne_unknown _)
    · rw [hc, List.cons.injEq] at hc'
      rw [ih (Provenance.of_injective hc'.1 ▸ hv')]
  | popped hf ha hc hv ih =>
    obtain ⟨producer, hc', hv'⟩ := (hasValue_iff hf ha).1 h'
    rw [hc, List.cons.injEq] at hc'
    exact ih (Provenance.of_injective hc'.1 ▸ hv')
  | unary hf ha hc hv ih =>
    obtain ⟨producer, word, hc', hv', rfl⟩ := (hasValue_iff hf ha).1 h'
    rw [hc, List.cons.injEq] at hc'
    rw [ih (Provenance.of_injective hc'.1 ▸ hv')]
  | binary hf ha hc hv hw ih ihw =>
    obtain ⟨producer, producer', second, first, hc', hv', hw', rfl⟩ := (hasValue_iff hf ha).1 h'
    rw [hc, List.cons.injEq, List.cons.injEq] at hc'
    rw [ih (Provenance.of_injective hc'.1 ▸ hv'), ihw (Provenance.of_injective hc'.2.1 ▸ hw')]

/-- The producers that an instruction depends on are those of the values it consumes. -/
lemma DependsOn.exists_mem {offset producer : Offset} {finding : Finding}
    (h : findings.DependsOn offset producer) (hf : findings[offset]? = some finding) :
    ∃ value ∈ finding.consumed, producer ∈ value := by
  obtain ⟨finding', hf', hmem⟩ := h
  obtain rfl := Option.some.inj (hf.symm.trans hf')
  exact hmem

/-- If all that an instruction consumes is produced by instructions below which every chain of
producers ends, then so does every chain below the instruction. -/
lemma acc_of_consumed {offset : Offset} {finding : Finding}
    (hf : findings[offset]? = some finding)
    (h : ∀ value ∈ finding.consumed, ∀ producer ∈ value,
      Acc (fun producer consumer => findings.DependsOn consumer producer) producer) :
    Acc (fun producer consumer => findings.DependsOn consumer producer) offset := by
  apply Acc.intro offset
  intro producer hdepends
  obtain ⟨value, hvalue, hproducer⟩ := hdepends.exists_mem hf
  exact h value hvalue producer hproducer

/-- Below an instruction that has a value, every chain of producers comes to an end. -/
lemma HasValue.acc {offset : Offset} {value : UInt64} (h : findings.HasValue entry offset value) :
    Acc (fun producer consumer => findings.DependsOn consumer producer) offset := by
  induction h with
  | immediate hf _ _ hc =>
    apply acc_of_consumed hf
    intro value hvalue
    rw [hc] at hvalue
    exact absurd hvalue List.not_mem_nil
  | entryRegister hf _ _ hc _ =>
    apply acc_of_consumed hf
    intro value hvalue producer hproducer
    rw [hc, List.mem_singleton] at hvalue
    exact absurd (hvalue ▸ hproducer) (Provenance.not_mem_unknown producer)
  | register hf _ hc _ _ _ ih | popped hf _ hc _ ih | unary hf _ hc _ ih =>
    apply acc_of_consumed hf
    intro value hvalue producer hproducer
    rw [hc, List.mem_singleton] at hvalue
    rw [hvalue, Provenance.mem_of] at hproducer
    exact hproducer ▸ ih
  | binary hf _ hc _ _ ih ih' =>
    apply acc_of_consumed hf
    intro value hvalue producer hproducer
    rw [hc, List.mem_cons, List.mem_singleton] at hvalue
    rcases hvalue with rfl | rfl
    · exact Provenance.mem_of.1 hproducer ▸ ih
    · exact Provenance.mem_of.1 hproducer ▸ ih'

/-- **There is no cycle below an instruction that has a value.**

**Proof sketch.** Every chain of producers below the instruction comes to an end, hence also every
chain below one of its producers; a cycle would be a chain without an end. -/
theorem HasValue.acyclic {offset : Offset} {value : UInt64}
    (h : findings.HasValue entry offset value) : findings.AcyclicFrom offset := by
  intro member hmember
  have hacc : Acc (fun producer consumer => findings.DependsOn consumer producer) member := by
    induction hmember with
    | refl => exact h.acc
    | tail _ hstep ih => exact ih.inv hstep
  clear hmember
  intro hcycle
  induction hacc with
  | intro member _ ih =>
    obtain ⟨producer, hfirst, hrest⟩ := Relation.TransGen.head'_iff.1 hcycle
    exact ih producer hfirst (.tail' hrest hfirst)

end Findings

end KeyedVM
