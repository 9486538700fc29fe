import KeyedVM.Proofs.Machine

set_option relaxedAutoImplicit false
set_option autoImplicit false

/-!
# Words and their producers

Beside an abstract state runs the machine itself.  The state tracks the words of the machine if
each of them was left by one of the producers that the state names, and is the value of that
producer, if the producer has one.  Instructions without influence on control flow keep this so.

## Main definitions

* `KeyedVM.Findings.Agrees` — a word is the value of an instruction, if that has one;
* `KeyedVM.Tracks` — an abstract state tracks the words of a store.

## Main results

* `KeyedVM.Tracks.agrees` — the word that an instruction computes agrees with its value;
* `KeyedVM.Tracks.performs` — performing an instruction keeps a store tracked.
-/

namespace KeyedVM

/-- A word is the value of the instruction at `label`, if that instruction is sound and has one.

Which instructions are sound is left open: what can be said about a word depends on whether the
registers that went into it had been written. -/
def Findings.Agrees (findings : Findings) (entry : RegisterFile (Option UInt64))
    (sound : Offset → Prop) (label : Offset) (word : UInt64) : Prop :=
  sound label → ∀ value, findings.HasValue entry label value → value = word

/-- An abstract state tracks the words of a store.  A register that has not been written may be
recorded as written, because another path has written it; then nothing is known but that it has its
entry value. -/
structure Tracks (findings : Findings) (entry : RegisterFile (Option UInt64))
    (sound : Offset → Prop) (written : Register → Prop) (state : State) (store : Store) :
    Prop where
  slots : List.Forall₂ (fun slot word => ∃ label ∈ slot, findings.Agrees entry sound label word)
    state.stack store.stack
  registers : ∀ register,
    (¬ written register ∧
      ∀ value, entry.get register = some value → value = store.registers.get register) ∨
    ∃ label ∈ state.registers.get register, ∀ writer, findings[label]? = some writer →
      writer.opcode = .pop → findings.Agrees entry sound label (store.registers.get register)

namespace Tracks

variable {findings : Findings} {entry : RegisterFile (Option UInt64)} {sound : Offset → Prop}
  {written written' : Register → Prop} {state : State} {store store' : Store} {finding : Finding}
  {action : Action} {word : UInt64}

/-- At the start, with the entry values in the registers, there is nothing to track. -/
lemma start (hwritten : ∀ register, ¬ written register) (hstack : store.stack = [])
    (hentry : ∀ register value, entry.get register = some value →
      value = store.registers.get register) :
    Tracks findings entry sound written {} store where
  slots := by
    rw [hstack]
    exact .nil
  registers register := Or.inl ⟨hwritten register, hentry register⟩

/-- The top word agrees with its producer, if it has a single one. -/
lemma agrees_top {label : Offset} {slot : Provenance} {rest : List Provenance}
    {words : List UInt64} (h : Tracks findings entry sound written state store)
    (hstate : state.stack = slot :: rest) (hstore : store.stack = word :: words)
    (hslot : slot = .of label) : findings.Agrees entry sound label word := by
  have hslots := h.slots
  rw [hstate, hstore, List.forall₂_cons] at hslots
  obtain ⟨⟨label', hmem, hagrees⟩, -⟩ := hslots
  rw [hslot, Provenance.mem_of] at hmem
  exact hmem ▸ hagrees

/-- What is below the top is tracked as well. -/
lemma tail {slot : Provenance} {rest : List Provenance} {words : List UInt64}
    (h : Tracks findings entry sound written state store) (hstate : state.stack = slot :: rest)
    (hstore : store.stack = word :: words) :
    Tracks findings entry sound written { state with stack := rest }
      { store with stack := words } where
  slots := by
    have hslots := h.slots
    rw [hstate, hstore, List.forall₂_cons] at hslots
    exact hslots.2
  registers := h.registers

/-- Popping slots keeps a store tracked. -/
lemma drop (h : Tracks findings entry sound written state store) (n : Nat)
    (hwritten : ∀ register, written' register → written register) :
    Tracks findings entry sound written' { state with stack := state.stack.drop n }
      { store with stack := store.stack.drop n } where
  slots := List.forall₂_drop n h.slots
  registers register := (h.registers register).imp_left fun ⟨hnot, hentry⟩ =>
    ⟨fun hwas => hnot (hwritten register hwas), hentry⟩

/-- The word in a register agrees with the `POP` that is recorded for it, if the register has been
written. -/
lemma agrees_register {register : Register} {producer : Offset} {writer : Finding}
    (h : Tracks findings entry sound written state store) (hwritten : written register)
    (hget : state.registers.get register = .of producer)
    (hwriter : findings[producer]? = some writer) (hpop : writer.opcode = .pop) :
    findings.Agrees entry sound producer (store.registers.get register) := by
  rcases h.registers register with ⟨hnot, -⟩ | ⟨label, hlabel, hagrees⟩
  · exact absurd hwritten hnot
  · rw [hget, Provenance.mem_of] at hlabel
    subst hlabel
    exact hagrees writer hwriter hpop

/-- A register that is not recorded as written has its entry value. -/
lemma eq_of_unknown {register : Register} {value : UInt64}
    (h : Tracks findings entry sound written state store)
    (hget : state.registers.get register = .unknown)
    (hentry : entry.get register = some value) : value = store.registers.get register := by
  rcases h.registers register with ⟨-, hword⟩ | ⟨label, hlabel, -⟩
  · exact hword value hentry
  · rw [hget] at hlabel
    exact absurd hlabel (Provenance.not_mem_unknown label)

/-- **The word that an instruction computes agrees with its value.**

**Proof sketch.** The rule by which the instruction has a value says which single producers it
consumes from, and the words that it takes agree with these.  A pushed register agrees with the
`POP` that is recorded for it only if the register has been written. -/
theorem agrees (h : Tracks findings entry sound written state store)
    (hsound : ∀ consumer producer, findings.DependsOn consumer producer → sound consumer →
      sound producer)
    (hstored : findings[finding.offset]? = some finding) (hform : finding.WellFormed)
    (hpops : finding.opcode.pops ≤ state.stack.length)
    (hconsumed : finding.consumed = finding.toInstruction.consumes state)
    (hread : ∀ register, finding.read? = some register → sound finding.offset →
      written register ∨ state.registers.get register = .unknown)
    (haction : finding.opcode.action? = some action)
    (hgives : finding.toInstruction.Gives store action word) :
    findings.Agrees entry sound finding.offset word := by
  intro hfinding value hvalue
  have hproducer : ∀ producer, .of producer ∈ finding.consumed → sound producer := by
    intro producer hmem
    exact hsound _ _ ⟨finding, hstored, _, hmem, Provenance.mem_of.2 rfl⟩ hfinding
  have heffect := Instruction.hasEffect hform haction hpops
  have hyields := (Findings.hasValue_iff hstored haction).1 hvalue
  cases action with
  | pushImmediate => exact Option.some.inj (hyields.1.symm.trans hgives)
  | pushRegister mask =>
    obtain ⟨register, hregister, rfl⟩ := hgives
    obtain ⟨register', hregister', hc, -⟩ := heffect
    obtain rfl := Option.some.inj (hregister.symm.trans hregister')
    rw [← hconsumed] at hc
    rcases hyields with ⟨register', value, hregister', hunknown, hentry, rfl⟩ |
      ⟨producer, writer, value, hof, hwriter, hpop, hpopped, rfl⟩
    · obtain rfl := Option.some.inj (hregister.symm.trans hregister')
      rw [hc, List.cons.injEq] at hunknown
      rw [h.eq_of_unknown hunknown.1 hentry]
    · have hsoundProducer := hproducer producer (by rw [hof]; exact List.mem_singleton_self _)
      rw [hc, List.cons.injEq] at hof
      obtain ⟨part, hpart, -⟩ := Opcode.has_of_action? haction
      have hread' := hread register
        (by rw [Instruction.read?, hpart, if_neg (by simp), hregister]) hfinding
      rw [hof.1] at hread'
      have hwritten := hread'.resolve_right (Provenance.of_ne_unknown producer)
      have hagrees := h.agrees_register hwritten hof.1 hwriter hpop
      rw [hagrees hsoundProducer value hpopped]
  | popRegister =>
    obtain ⟨words, hwords⟩ := hgives
    obtain ⟨-, slot, rest, -, hstack, hc, -⟩ := heffect
    obtain ⟨producer, hof, hvalue⟩ := hyields
    have hsoundProducer := hproducer producer (by rw [hof]; exact List.mem_singleton_self _)
    rw [hconsumed, hc, List.cons.injEq] at hof
    exact h.agrees_top hstack hwords hof.1 hsoundProducer value hvalue
  | unary f =>
    obtain ⟨argument, words, hwords, rfl⟩ := hgives
    obtain ⟨slot, rest, hstack, hc, -⟩ := heffect
    obtain ⟨producer, value, hof, hargument, rfl⟩ := hyields
    have hsoundProducer := hproducer producer (by rw [hof]; exact List.mem_singleton_self _)
    rw [hconsumed, hc, List.cons.injEq] at hof
    rw [h.agrees_top hstack hwords hof.1 hsoundProducer value hargument]
  | binary f =>
    obtain ⟨second, first, words, hwords, rfl⟩ := hgives
    obtain ⟨slot, slot', rest, hstack, hc, -⟩ := heffect
    obtain ⟨producer, producer', value, value', hof, hargument, hargument', rfl⟩ := hyields
    have hsecond := hproducer producer (by rw [hof]; exact List.mem_cons_self)
    have hfirst := hproducer producer' (by rw [hof]; simp)
    rw [hconsumed, hc, List.cons.injEq, List.cons.injEq] at hof
    rw [h.agrees_top hstack hwords hof.1 hsecond value hargument,
      (h.tail hstack hwords).agrees_top rfl rfl hof.2.1 hfirst value' hargument']
  | skip => exact hgives.elim

/-- What an instruction pushes agrees with its value. -/
lemma agrees_pushed {results : List UInt64} (h : Tracks findings entry sound written state store)
    (hsound : ∀ consumer producer, findings.DependsOn consumer producer → sound consumer →
      sound producer)
    (hstored : findings[finding.offset]? = some finding) (hform : finding.WellFormed)
    (hpops : finding.opcode.pops ≤ state.stack.length)
    (hconsumed : finding.consumed = finding.toInstruction.consumes state)
    (hread : ∀ register, finding.read? = some register → sound finding.offset →
      written register ∨ state.registers.get register = .unknown)
    (hleaves : Performs.Leaves finding.toInstruction store results store') :
    ∀ word ∈ results, findings.Agrees entry sound finding.offset word := by
  intro word hword
  cases haction : finding.opcode.action? with
  | none =>
    intro _ value hvalue
    obtain ⟨action, hsome⟩ := hvalue.exists_action hstored
    rw [haction] at hsome
    cases hsome
  | some action =>
    exact h.agrees hsound hstored hform hpops hconsumed hread haction
      (hleaves.pushed action word haction hword)

/-- **Performing an instruction keeps a store tracked.** -/
theorem performs (h : Tracks findings entry sound written state store)
    (hsound : ∀ consumer producer, findings.DependsOn consumer producer → sound consumer →
      sound producer)
    (hwritten : ∀ register, written' register ↔
      written register ∨ finding.written? = some register)
    (hstored : findings[finding.offset]? = some finding) (hform : finding.WellFormed)
    (hpops : finding.opcode.pops ≤ state.stack.length)
    (hconsumed : finding.consumed = finding.toInstruction.consumes state)
    (hread : ∀ register, finding.read? = some register → sound finding.offset →
      written register ∨ state.registers.get register = .unknown)
    (hperforms : Performs finding.toInstruction store store') :
    Tracks findings entry sound written' (finding.toInstruction.after state) store' := by
  obtain ⟨results, hleaves⟩ := hperforms.spec
  have hpushed := h.agrees_pushed hsound hstored hform hpops hconsumed hread hleaves
  constructor
  · rw [Instruction.after, hleaves.stack]
    refine List.rel_append ?_ (List.forall₂_drop _ h.slots)
    rw [← hleaves.length]
    clear hleaves
    induction results with
    | nil => exact .nil
    | cons word results ih =>
      obtain ⟨hword, hresults⟩ := List.forall_mem_cons.1 hpushed
      exact .cons ⟨finding.offset, Provenance.mem_of.2 rfl, hword⟩ (ih hresults)
  · intro register
    rw [Instruction.after_get]
    by_cases hregister : finding.written? = some register
    · rw [if_pos hregister]
      refine Or.inr ⟨finding.offset, Provenance.mem_of.2 rfl, fun writer hwriter hpop => ?_⟩
      obtain rfl := Option.some.inj (hstored.symm.trans hwriter)
      exact h.agrees hsound hstored hform hpops hconsumed hread (by rw [hpop]; rfl)
        (hleaves.popped register hpop hregister)
    · rw [if_neg hregister, hleaves.registers register hregister, hwritten register]
      rcases h.registers register with ⟨hnot, hentry⟩ | hlabel
      · exact Or.inl ⟨not_or.2 ⟨hnot, hregister⟩, hentry⟩
      · exact Or.inr hlabel

end Tracks

end KeyedVM
