import KeyedVM.Dependency.Evaluator
import KeyedVM.Proofs.Dependency.Closure
import KeyedVM.Proofs.Dependency.Recording
import Mathlib.Data.List.Sort

set_option relaxedAutoImplicit false
set_option autoImplicit false

/-!
# Evaluation in order

A closure is replayed in the order of offsets, on a stack and registers of its own.  Where the
instructions of the closure stand in the order in which they were recorded, the replay computes the
value that the dependency graph gives to the source, and it fails if the graph gives it none.

## Main definitions

* `KeyedVM.Replay.Does` — the effect on a replay that belongs to an action;
* `KeyedVM.Finding.ReadsFlagsOf` — a push of the flags as arithmetic has left them;
* `KeyedVM.InOrder` — the closure of a source stands in the order in which it was recorded;
* `KeyedVM.Matches` — the words of a replay are the values of the producers in an abstract state.

## Main results

* `KeyedVM.Replay.step_eq_ok_iff` — a replayed instruction does what its action says;
* `KeyedVM.Matches.step`, `KeyedVM.Matches.run` — a replay of a recorded row keeps matching;
* `KeyedVM.InOrder.hasValue` — an evaluation in order gives the value of the source.
-/

namespace KeyedVM

/-! ## Replaying one instruction -/

namespace Replay

variable {replay replay' : Replay} {instruction : Instruction} {consumer : Offset}

/-- The effect on a replay that belongs to an action. -/
def Does (instruction : Instruction) (replay replay' : Replay) : Action → Prop
  | .pushImmediate =>
    ∃ value, instruction.operand.immediate? = some value ∧ replay' = replay.push value
  | .pushRegister mask =>
    ∃ register value, instruction.operand.register? = some register ∧
      replay.registers.get register = some value ∧ replay' = replay.push (value &&& mask)
  | .popRegister =>
    ∃ register value rest, instruction.operand.register? = some register ∧
      replay.stack = value :: rest ∧
      replay' = { registers := replay.registers.set register (some value), stack := rest }
  | .binary f =>
    ∃ second first rest, replay.stack = second :: first :: rest ∧
      replay' = { replay with stack := f first second :: rest }
  | .unary f =>
    ∃ value rest, replay.stack = value :: rest ∧
      replay' = { replay with stack := f value :: rest }
  | .skip => replay' = replay

/-- A pop takes the top word. -/
lemma pop_eq_ok_iff {value : UInt64} :
    replay.pop consumer = .ok (value, replay') ↔
      ∃ rest, replay.stack = value :: rest ∧ replay' = { replay with stack := rest } := by
  unfold pop
  cases replay.stack with
  | nil => simp
  | cons top rest =>
    simp only [Except.ok.injEq, Prod.mk.injEq, List.cons.injEq]
    constructor
    · rintro ⟨rfl, rfl⟩
      exact ⟨rest, ⟨rfl, rfl⟩, rfl⟩
    · rintro ⟨rest', ⟨rfl, rfl⟩, rfl⟩
      exact ⟨rfl, rfl⟩

/-- Performing an action has the effect that belongs to it. -/
lemma perform_eq_ok_iff {action : Action} :
    replay.perform consumer instruction action = .ok replay' ↔
      Does instruction replay replay' action := by
  cases action with
  | pushImmediate =>
    unfold perform Does
    cases instruction.operand.immediate? <;> simp [eq_comm]
  | pushRegister mask =>
    unfold perform Does
    simp only [bind_eq_ok_iff, pure_eq_ok_iff, registerOf, read]
    cases instruction.operand.register? with
    | none => simp
    | some register =>
      cases h : replay.registers.get register <;> simp [h, eq_comm]
  | popRegister =>
    unfold perform Does
    simp only [bind_eq_ok_iff, pure_eq_ok_iff, Prod.exists, pop_eq_ok_iff, registerOf]
    cases instruction.operand.register? <;> simp [eq_comm]
  | binary f =>
    simp only [perform, Does, bind_eq_ok_iff, pure_eq_ok_iff, Prod.exists, pop_eq_ok_iff]
    constructor
    · rintro ⟨second, _, ⟨rest, hs, rfl⟩, first, _, ⟨rest', hs', rfl⟩, rfl⟩
      exact ⟨second, first, rest', by rw [hs]; exact congrArg _ hs', rfl⟩
    · rintro ⟨second, first, rest, hs, rfl⟩
      exact ⟨second, _, ⟨_, hs, rfl⟩, first, _, ⟨rest, rfl, rfl⟩, rfl⟩
  | unary f =>
    simp only [perform, Does, bind_eq_ok_iff, pure_eq_ok_iff, Prod.exists, pop_eq_ok_iff]
    constructor
    · rintro ⟨value, _, ⟨rest, hs, rfl⟩, rfl⟩
      exact ⟨value, rest, hs, rfl⟩
    · rintro ⟨value, rest, hs, rfl⟩
      exact ⟨value, _, ⟨rest, hs, rfl⟩, rfl⟩
  | skip => simp [perform, Does, eq_comm]

/-- **A replayed instruction does what its action says.** -/
theorem step_eq_ok_iff :
    replay.step consumer instruction = .ok replay' ↔
      ∃ action, instruction.opcode.action? = some action ∧
        Does instruction replay replay' action := by
  unfold step
  cases instruction.opcode.action? with
  | none => simp
  | some action => simp [perform_eq_ok_iff]

end Replay

/-! ## Closures in the order of recording -/

/-- A finding records a push of the flags as the arithmetic of another one has left them.  Such a
push has no value. -/
def Finding.ReadsFlagsOf (finding writer : Finding) : Prop :=
  finding.read? = some .fl ∧ writer.opcode.writesFlags = true ∧
    .of writer.offset ∈ finding.consumed

/-- Whether a finding reads the flags that another one has written can be computed. -/
instance (finding writer : Finding) : Decidable (finding.ReadsFlagsOf writer) :=
  inferInstanceAs (Decidable (_ ∧ _ ∧ _))

/-- The findings `members` are those of all instructions that take part in computing what `source`
produces.  In the order of offsets they record what is consumed if they are executed one after the
other.  If one of them pushes the flags that arithmetic has left, then the flags have no other
value either: none at entry, and none that a member pops. -/
structure InOrder (findings : Findings) (entry : RegisterFile (Option UInt64)) (source : Offset)
    (members : List Finding) : Prop where
  stored : ∀ finding ∈ members, findings[finding.offset]? = some finding
  ascending : members.Pairwise (·.offset < ·.offset)
  complete : ∀ offset, findings.TakesPart source offset ↔ offset ∈ members.map (·.offset)
  recorded : ∃ last, Recorded {} members last
  flags : ∀ finding ∈ members, ∀ writer ∈ members, finding.ReadsFlagsOf writer →
    entry.get .fl = none ∧ ∀ member ∈ members, member.written? = some .fl → member.opcode ≠ .pop

/-! ## Replaying a row -/

/-- What a register holds in a replay, given its provenance in the abstract state: its entry value,
the value of the `POP` that wrote it, or anything if it was written by arithmetic. -/
inductive Holds (findings : Findings) (entry : RegisterFile (Option UInt64))
    (members : List Finding) (register : Register) : Provenance → Option UInt64 → Prop
  | untouched {word? : Option UInt64} :
      word? = entry.get register → Holds findings entry members register .unknown word?
  | popped {writer : Finding} {word : UInt64} :
      findings[writer.offset]? = some writer → writer.opcode = .pop →
      findings.HasValue entry writer.offset word →
      Holds findings entry members register (.of writer.offset) (some word)
  | flags {writer : Finding} {word? : Option UInt64} :
      writer ∈ members → writer.opcode.writesFlags = true → register = .fl →
      Holds findings entry members register (.of writer.offset) word?

/-- The words of a replay are the values of the producers in an abstract state. -/
structure Matches (findings : Findings) (entry : RegisterFile (Option UInt64))
    (members : List Finding) (state : State) (replay : Replay) : Prop where
  slots : List.Forall₂
    (fun slot word => ∃ label, slot = .of label ∧ findings.HasValue entry label word)
    state.stack replay.stack
  registers : ∀ register, Holds findings entry members register
    (state.registers.get register) (replay.registers.get register)
  /-- Only a `POP` writes the flags of a replay. -/
  flags : (∀ member ∈ members, member.written? = some .fl → member.opcode ≠ .pop) →
    replay.registers.get .fl = entry.get .fl

namespace Matches

variable {findings : Findings} {entry : RegisterFile (Option UInt64)} {members : List Finding}
  {state : State} {replay replay' : Replay} {finding : Finding} {consumer : Offset}

/-- At the start of a replay nothing has been written. -/
lemma start : Matches findings entry members {} { registers := entry } where
  slots := .nil
  registers register := by
    rw [RegisterFile.get_fill]
    exact .untouched rfl
  flags _ := rfl

/-- Pushing the value of an instruction keeps a replay matching. -/
lemma push {label : Offset} {word : UInt64} (h : Matches findings entry members state replay)
    (hvalue : findings.HasValue entry label word) :
    Matches findings entry members (state.push (.of label)) (replay.push word) where
  slots := .cons ⟨label, rfl, hvalue⟩ h.slots
  registers := h.registers
  flags := h.flags

/-- The topmost words of a matching replay are the values of the producers of the topmost slots. -/
lemma exists_cons {slot : Provenance} {rest : List Provenance}
    (h : Matches findings entry members state replay) (hstack : state.stack = slot :: rest) :
    ∃ label word words, slot = .of label ∧ findings.HasValue entry label word ∧
      replay.stack = word :: words ∧
      Matches findings entry members { state with stack := rest }
        { replay with stack := words } := by
  have hslots := h.slots
  rw [hstack] at hslots
  obtain ⟨word, words, ⟨label, hslot, hvalue⟩, hwords, hwordstack⟩ :=
    List.forall₂_cons_left_iff.1 hslots
  exact ⟨label, word, words, hslot, hvalue, hwordstack, hwords, h.registers, h.flags⟩

/-- What arithmetic leaves in the flags is not what a replay holds there. -/
lemma writeFlags (h : Matches findings entry members state replay) (hmember : finding ∈ members)
    (hwrites : finding.opcode.writesFlags = true) :
    Matches findings entry members (state.setRegister .fl (.of finding.offset)) replay where
  slots := h.slots
  registers register := by
    rw [State.setRegister, RegisterFile.get_set]
    split
    · next hfl => exact .flags hmember hwrites hfl.symm
    · exact h.registers register
  flags := h.flags

/-- What a `POP` writes is the value that it has taken off the stack. -/
lemma writePopped {register : Register} {word : UInt64}
    (h : Matches findings entry members state replay) (hmember : finding ∈ members)
    (hstored : findings[finding.offset]? = some finding) (hpop : finding.opcode = .pop)
    (hwritten : finding.written? = some register)
    (hvalue : findings.HasValue entry finding.offset word) :
    Matches findings entry members (state.setRegister register (.of finding.offset))
      { replay with registers := replay.registers.set register (some word) } where
  slots := h.slots
  registers register' := by
    rw [State.setRegister, RegisterFile.get_set, RegisterFile.get_set]
    split
    · exact .popped hstored hpop hvalue
    · exact h.registers register'
  flags hnone := by
    have hne : register ≠ .fl := by
      rintro rfl
      exact hnone finding hmember hwritten hpop
    rw [RegisterFile.get_set_of_ne _ hne]
    exact h.flags hnone

/-- A register that is pushed in a matching replay has the value that the graph gives it. -/
lemma hasValue_of_pushRegister {register : Register} {word mask : UInt64}
    (h : Matches findings entry members state replay)
    (hstored : findings[finding.offset]? = some finding)
    (hflags : ∀ writer ∈ members, finding.ReadsFlagsOf writer → entry.get .fl = none ∧
      ∀ member ∈ members, member.written? = some .fl → member.opcode ≠ .pop)
    (haction : finding.opcode.action? = some (.pushRegister mask))
    (hregister : finding.operand.register? = some register)
    (hconsumed : finding.consumed = [state.registers.get register])
    (hword : replay.registers.get register = some word) :
    findings.HasValue entry finding.offset (word &&& mask) := by
  have hholds := h.registers register
  have hread : finding.read? = some register := by
    obtain ⟨part, hpart, -⟩ := Opcode.has_of_action? haction
    rw [Instruction.read?, hpart, if_neg (by simp), hregister]
  generalize state.registers.get register = provenance at hconsumed hholds
  generalize hword' : replay.registers.get register = word? at hholds
  cases hholds with
  | untouched hentry =>
    rw [← hword', hword] at hentry
    exact .entryRegister hstored haction hregister hconsumed hentry.symm
  | popped hwriter hpop hvalue =>
    rw [hword, Option.some.injEq] at hword'
    exact .register hstored haction hconsumed hwriter hpop (hword' ▸ hvalue)
  | flags hwriter hwrites hfl =>
    -- the flags would have to have an entry value or a popped one
    subst hfl
    obtain ⟨hnone, hpops⟩ := hflags _ hwriter ⟨hread, hwrites, by simp [hconsumed]⟩
    rw [h.flags hpops, hnone] at hword
    cases hword

/-- **A replayed instruction of a closure keeps the replay matching.**

**Proof sketch.** The action of the instruction says which words it takes, and by the match these
are the values of the producers that it has recorded.  So what it pushes, or pops into a register,
is its own value. -/
theorem step (h : Matches findings entry members state replay) (hmember : finding ∈ members)
    (hstored : findings[finding.offset]? = some finding) (hform : finding.WellFormed)
    (hflags : ∀ writer ∈ members, finding.ReadsFlagsOf writer → entry.get .fl = none ∧
      ∀ member ∈ members, member.written? = some .fl → member.opcode ≠ .pop)
    (hpops : finding.opcode.pops ≤ state.stack.length)
    (hconsumed : finding.consumed = finding.toInstruction.consumes state)
    (hstep : replay.step consumer finding.toInstruction = .ok replay') :
    Matches findings entry members (finding.toInstruction.after state) replay' := by
  obtain ⟨action, haction, hdoes⟩ := Replay.step_eq_ok_iff.1 hstep
  have heffect := Instruction.hasEffect hform haction hpops
  cases action with
  | pushImmediate =>
    obtain ⟨value, himmediate, rfl⟩ := hdoes
    obtain ⟨-, hc, hafter⟩ := heffect
    rw [hafter]
    exact h.push (.immediate hstored haction himmediate (hconsumed.trans hc))
  | pushRegister mask =>
    obtain ⟨register, word, hregister, hword, rfl⟩ := hdoes
    obtain ⟨register', hregister', hc, hafter⟩ := heffect
    obtain rfl := Option.some.inj (hregister.symm.trans hregister')
    rw [hafter]
    exact h.push (h.hasValue_of_pushRegister hstored hflags haction hregister
      (hconsumed.trans hc) hword)
  | popRegister =>
    obtain ⟨register, word, words, hregister, hwords, rfl⟩ := hdoes
    obtain ⟨register', slot, rest, hregister', hstack, hc, hafter⟩ := heffect
    obtain rfl := Option.some.inj (hregister.symm.trans hregister')
    obtain ⟨label, word', words', rfl, hvalue, hwords', hrest⟩ := h.exists_cons hstack
    obtain ⟨rfl, rfl⟩ := List.cons.inj (hwords.symm.trans hwords')
    have hpop : finding.opcode = .pop := Opcode.has_of_action? haction
    rw [hafter]
    refine hrest.writePopped hmember hstored hpop ?_ (.popped hstored haction (hconsumed.trans hc)
      hvalue)
    rw [Instruction.written?, if_pos hpop, hregister]
  | binary f =>
    obtain ⟨second, first, words, hwords, rfl⟩ := hdoes
    obtain ⟨slot, slot', rest, hstack, hc, hafter⟩ := heffect
    obtain ⟨label, word, words₁, rfl, hvalue, hwords₁, hrest⟩ := h.exists_cons hstack
    obtain ⟨label', word', words₂, rfl, hvalue', hwords₂, hrest'⟩ := hrest.exists_cons rfl
    obtain ⟨rfl, rfl⟩ := List.cons.inj (hwords₁.symm.trans hwords)
    obtain ⟨rfl, rfl⟩ := List.cons.inj hwords₂
    have hhas := Opcode.has_of_action? haction
    rw [hafter]
    exact (hrest'.push (.binary hstored haction (hconsumed.trans hc) hvalue hvalue')).writeFlags
      hmember hhas.2.2.2.2
  | unary f =>
    obtain ⟨word, words, hwords, rfl⟩ := hdoes
    obtain ⟨slot, rest, hstack, hc, hafter⟩ := heffect
    obtain ⟨label, word', words', rfl, hvalue, hwords', hrest⟩ := h.exists_cons hstack
    obtain ⟨rfl, rfl⟩ := List.cons.inj (hwords.symm.trans hwords')
    rw [hafter]
    exact hrest.push (.unary hstored haction (hconsumed.trans hc) hvalue)
  | skip =>
    obtain rfl := hdoes
    rw [heffect.2]
    exact h

/-- A register that is pushed has a word in a matching replay, if it has one at entry and the push
does not read what arithmetic has left in the flags. -/
lemma exists_word {register : Register} (h : Matches findings entry members state replay)
    (hentry : state.registers.get register = .unknown → ∃ word, entry.get register = some word)
    (hflags : ∀ writer ∈ members, register = .fl → writer.opcode.writesFlags = true →
      state.registers.get register ≠ .of writer.offset) :
    ∃ word, replay.registers.get register = some word := by
  have hholds := h.registers register
  generalize state.registers.get register = provenance at *
  generalize replay.registers.get register = word? at *
  cases hholds with
  | untouched hword =>
    obtain ⟨word, hentry⟩ := hentry rfl
    exact ⟨word, hword.trans hentry⟩
  | @popped _ word => exact ⟨word, rfl⟩
  | flags hwriter hwrites hfl => exact absurd rfl (hflags _ hwriter hfl hwrites)

/-- A replayable instruction can be replayed where the replay matches, provided that the register
that it pushes has a word. -/
lemma exists_step (h : Matches findings entry members state replay) (hform : finding.WellFormed)
    (hreplayable : finding.opcode.isReplayable = true)
    (hpops : finding.opcode.pops ≤ state.stack.length)
    (hread : ∀ register, finding.read? = some register →
      ∃ word, replay.registers.get register = some word) :
    ∃ replay', replay.step consumer finding.toInstruction = .ok replay' := by
  obtain ⟨action, haction⟩ := Option.isSome_iff_exists.1 hreplayable
  have heffect := Instruction.hasEffect hform haction hpops
  simp only [Replay.step_eq_ok_iff, haction, Option.some.injEq, exists_eq_left']
  cases action with
  | pushImmediate =>
    obtain ⟨⟨value, himmediate⟩, -, -⟩ := heffect
    exact ⟨_, value, himmediate, rfl⟩
  | pushRegister mask =>
    obtain ⟨register, hregister, -, -⟩ := heffect
    obtain ⟨part, hpart, -⟩ := Opcode.has_of_action? haction
    obtain ⟨word, hword⟩ := hread register (by rw [Instruction.read?, hpart, if_neg (by simp),
      hregister])
    exact ⟨_, register, word, hregister, hword, rfl⟩
  | popRegister =>
    obtain ⟨register, slot, rest, hregister, hstack, -, -⟩ := heffect
    obtain ⟨-, word, words, -, -, hwords, -⟩ := h.exists_cons hstack
    exact ⟨_, register, word, words, hregister, hwords, rfl⟩
  | binary f =>
    obtain ⟨slot, slot', rest, hstack, -, -⟩ := heffect
    obtain ⟨-, word, words, -, -, hwords, hrest⟩ := h.exists_cons hstack
    obtain ⟨-, word', words', -, -, hwords', -⟩ := hrest.exists_cons rfl
    exact ⟨_, word, word', words', hwords.trans (congrArg _ hwords'), rfl⟩
  | unary f =>
    obtain ⟨slot, rest, hstack, -, -⟩ := heffect
    obtain ⟨-, word, words, -, -, hwords, -⟩ := h.exists_cons hstack
    exact ⟨_, word, words, hwords, rfl⟩
  | skip => exact ⟨replay, rfl⟩

/-- **A replay of a recorded row keeps matching**, and every instruction of the row that pushes has
a value. -/
theorem run {source : Offset} {row : List Finding} {last : State}
    (h : Matches findings entry members state replay)
    (horder : InOrder findings entry source members)
    (hform : ∀ finding ∈ members, finding.WellFormed) (hrow : ∀ finding ∈ row, finding ∈ members)
    (hrecorded : Recorded state row last)
    (hrun : Replay.run consumer replay (row.map (·.toInstruction)) = .ok replay') :
    Matches findings entry members last replay' ∧ ∀ finding ∈ row, finding.opcode.pushes = 1 →
      ∃ word, findings.HasValue entry finding.offset word := by
  induction row generalizing state replay with
  | nil =>
    obtain rfl := recorded_nil_iff.1 hrecorded
    obtain rfl := Except.ok.inj hrun
    exact ⟨h, fun _ hmem => absurd hmem List.not_mem_nil⟩
  | cons finding row ih =>
    obtain ⟨hpops, hconsumed, hrest⟩ := recorded_cons_iff.1 hrecorded
    obtain ⟨middle, hstep, hrun⟩ := bind_eq_ok_iff.1 hrun
    have hmember := hrow finding List.mem_cons_self
    have hnext := h.step hmember (horder.stored finding hmember) (hform finding hmember)
      (horder.flags finding hmember) hpops hconsumed hstep
    obtain ⟨hlast, hvalues⟩ := ih hnext (fun f hf => hrow f (List.mem_cons_of_mem _ hf)) hrest hrun
    refine ⟨hlast, List.forall_mem_cons.2 ⟨fun hpushes => ?_, hvalues⟩⟩
    obtain ⟨label, word, -, hlabel, hvalue, -⟩ :=
      hnext.exists_cons (Instruction.after_stack_of_pushes hpushes)
    exact ⟨word, Provenance.of_injective hlabel ▸ hvalue⟩

/-- A recorded row of replayable instructions can be replayed, provided that the registers that it
reads have a value at entry or were popped into. -/
theorem exists_run {source : Offset} {row : List Finding} {last : State}
    (h : Matches findings entry members state replay)
    (horder : InOrder findings entry source members)
    (hform : ∀ finding ∈ members, finding.WellFormed)
    (hreplayable : ∀ finding ∈ members, finding.opcode.isReplayable = true)
    (hentry : ∀ finding ∈ members, ∀ register, finding.read? = some register →
      finding.consumed = [.unknown] → ∃ word, entry.get register = some word)
    (hflags : ∀ finding ∈ members, ∀ writer ∈ members, ¬ finding.ReadsFlagsOf writer)
    (hrow : ∀ finding ∈ row, finding ∈ members) (hrecorded : Recorded state row last) :
    ∃ replay', Replay.run consumer replay (row.map (·.toInstruction)) = .ok replay' := by
  induction row generalizing state replay with
  | nil => exact ⟨replay, rfl⟩
  | cons finding row ih =>
    obtain ⟨hpops, hconsumed, hrest⟩ := recorded_cons_iff.1 hrecorded
    have hmember := hrow finding List.mem_cons_self
    have hread : ∀ register, finding.read? = some register →
        ∃ word, replay.registers.get register = some word := by
      intro register hread
      have hsingle : finding.consumed = [state.registers.get register] := by
        obtain ⟨part, hpart, -⟩ := (hform finding hmember).exists_pushr hread
        simp [hconsumed, Instruction.consumes, hread, hpart, Opcode.pops]
      refine h.exists_word (fun hunknown => ?_) fun writer hwriter hfl hwrites hof => ?_
      · exact hentry finding hmember register hread (hunknown ▸ hsingle)
      · exact hflags finding hmember writer hwriter ⟨hfl ▸ hread, hwrites, by simp [hsingle, hof]⟩
    obtain ⟨middle, hstep⟩ : ∃ middle, replay.step consumer finding.toInstruction = .ok middle :=
      h.exists_step (hform finding hmember) (hreplayable finding hmember) hpops hread
    have hnext := h.step hmember (horder.stored finding hmember) (hform finding hmember)
      (horder.flags finding hmember) hpops hconsumed hstep
    obtain ⟨replay', hrun⟩ := ih hnext (fun f hf => hrow f (List.mem_cons_of_mem _ hf)) hrest
    exact ⟨replay', bind_eq_ok_iff.2 ⟨middle, hstep, hrun⟩⟩

end Matches

/-! ## Evaluation -/

namespace InOrder

variable {findings : Findings} {entry : RegisterFile (Option UInt64)} {source : Offset}
  {members : List Finding}

/-- A closure that was found stands in order if its findings, in the order of offsets, record what
is consumed. -/
lemma of_closure {limit : Nat}
    (hclosure : (findings.closure limit source).toOption.map (·.toList)
      = some (members.map (·.offset)))
    (hstored : ∀ finding ∈ members, findings[finding.offset]? = some finding)
    (hrecorded : ∃ last, Recorded {} members last)
    (hflags : ∀ finding ∈ members, ∀ writer ∈ members, ¬ finding.ReadsFlagsOf writer) :
    InOrder findings entry source members := by
  cases hresult : findings.closure limit source with
  | error fault =>
    rw [hresult] at hclosure
    cases hclosure
  | ok closure =>
    rw [hresult] at hclosure
    have hlist : closure.toList = members.map (·.offset) := Option.some.inj hclosure
    refine ⟨hstored, ?_, fun offset => ?_, hrecorded, fun finding hfinding writer hwriter hreads =>
      absurd hreads (hflags finding hfinding writer hwriter)⟩
    · have hsorted : closure.toList.Pairwise (· < ·) :=
        Std.ExtTreeSet.ordered_toList.imp Std.compare_eq_lt.1
      rw [hlist] at hsorted
      exact List.pairwise_map.1 hsorted
    · rw [← (Findings.mem_closure_iff hresult).1, ← hlist, Std.ExtTreeSet.mem_toList]

/-- The offsets of the members are all different. -/
lemma nodup (h : InOrder findings entry source members) :
    (members.map (·.offset)).Nodup := by
  rw [List.Nodup, List.pairwise_map]
  exact h.ascending.imp fun hlt => UInt64.ne_of_lt hlt

/-- The members are found by looking the closure up in the order of offsets. -/
lemma lookup (h : InOrder findings entry source members) {closure : Provenance}
    (hclosure : ∀ offset, offset ∈ closure ↔ findings.TakesPart source offset) :
    (closure.toList.filterMap fun offset => findings[offset]?.map (·.toInstruction)) =
      members.map (·.toInstruction) := by
  have hsorted : closure.toList.Pairwise (· < ·) :=
    Std.ExtTreeSet.ordered_toList.imp Std.compare_eq_lt.1
  have hoffsets : closure.toList = members.map (·.offset) := by
    refine hsorted.eq_of_mem_iff (List.pairwise_map.2 h.ascending) fun {offset} => ?_
    rw [Std.ExtTreeSet.mem_toList, hclosure, h.complete]
  rw [hoffsets, List.filterMap_map]
  have hall := h.stored
  clear hoffsets hclosure h
  induction members with
  | nil => rfl
  | cons member members ih =>
    obtain ⟨hmember, hmembers⟩ := List.forall_mem_cons.1 hall
    rw [List.filterMap_cons_some (b := member.toInstruction) (by simp [hmember]), ih hmembers,
      List.map_cons]

/-- A slot that a member depends on is not on the stack in the end, if all members that push have a
value.

**Proof sketch.** A member that pops the slot leaves nothing of it.  A member that pushes a register
depends on a `POP`, because otherwise it would have no value, and a `POP` pushes no slot. -/
lemma not_mem_of_dependsOn {last : State} {finding pusher : Finding}
    (h : InOrder findings entry source members) (hform : ∀ finding ∈ members, finding.WellFormed)
    (hrecorded : Recorded {} members last)
    (hvalues : ∀ finding ∈ members, finding.opcode.pushes = 1 →
      ∃ word, findings.HasValue entry finding.offset word)
    (hfinding : finding ∈ members) (hpusher : pusher ∈ members)
    (hpushes : pusher.opcode.pushes = 1)
    (hdepends : findings.DependsOn finding.offset pusher.offset) :
    .of pusher.offset ∉ last.stack := by
  have hstored := h.stored finding hfinding
  obtain ⟨consumed, hconsumed, hproducer⟩ := hdepends.exists_mem hstored
  rcases hrecorded.pops_or_reads Exact.start h.nodup hfinding hconsumed with
    ⟨offset, rfl, hpops⟩ | ⟨register, hread, -⟩
  · obtain rfl := Provenance.mem_of.1 hproducer
    exact hrecorded.not_mem_of_pops Exact.start h.nodup hfinding hpops
  · exfalso
    obtain ⟨part, hpart, -⟩ := (hform finding hfinding).exists_pushr hread
    have haction : finding.opcode.action? = some (.pushRegister part.mask) := by rw [hpart]; rfl
    obtain ⟨word, hword⟩ := hvalues finding hfinding (by rw [hpart]; rfl)
    rcases (Findings.hasValue_iff hstored haction).1 hword with
      ⟨-, -, -, hunknown, -⟩ | ⟨producer, writer, -, hsingle, hwriter, hpop, -⟩
    · rw [hunknown, List.mem_singleton] at hconsumed
      rw [hconsumed] at hproducer
      exact Provenance.not_mem_unknown _ hproducer
    · rw [hsingle, List.mem_singleton] at hconsumed
      rw [hconsumed, Provenance.mem_of] at hproducer
      subst hproducer
      rw [h.stored pusher hpusher, Option.some.injEq] at hwriter
      rw [hwriter, hpop] at hpushes
      cases hpushes

/-- If the replay of a closure succeeds, what is left on top is the value of the source.

**Proof sketch.** What is on top was pushed by a member.  If that is not the source, then another
member depends on it, so it cannot be on top. -/
lemma hasValue_of_run {replay : Replay} {consumer : Offset} {value : UInt64} {rest : List UInt64}
    (h : InOrder findings entry source members) (hform : ∀ finding ∈ members, finding.WellFormed)
    (hrun : Replay.run consumer { registers := entry } (members.map (·.toInstruction))
      = .ok replay) (hstack : replay.stack = value :: rest) :
    findings.HasValue entry source value := by
  obtain ⟨last, hrecorded⟩ := h.recorded
  have hexact : Exact members last := hrecorded.exact Exact.start h.nodup
  obtain ⟨hmatches, hvalues⟩ :=
    Matches.start.run h hform (fun _ hmem => hmem) hrecorded hrun
  have hslots := hmatches.slots
  rw [hstack] at hslots
  obtain ⟨slot, slots, ⟨label, rfl, hvalue⟩, -, htop⟩ := List.forall₂_cons_right_iff.1 hslots
  have hmem : .of label ∈ last.stack := by rw [htop]; exact List.mem_cons_self
  by_cases hsource : label = source
  · exact hsource ▸ hvalue
  · exfalso
    obtain ⟨labels, hlabels, -, hpushers⟩ := hexact.slots
    obtain ⟨label', hlabel', hsame⟩ := List.mem_map.1 (hlabels ▸ hmem)
    obtain rfl := Provenance.of_injective hsame
    obtain ⟨pusher, hpusher, hpushes, rfl⟩ := hpushers label' hlabel'
    have hpath : findings.TakesPart source pusher.offset :=
      (h.complete _).2 (List.mem_map_of_mem hpusher)
    obtain rfl | ⟨offset, hmember, hdepends⟩ := Relation.ReflTransGen.cases_tail hpath
    · exact hsource rfl
    · obtain ⟨finding, hfinding, rfl⟩ := List.mem_map.1 ((h.complete offset).1 hmember)
      exact h.not_mem_of_dependsOn hform hrecorded hvalues hfinding hpusher hpushes hdepends hmem

/-- **An evaluation in order gives the value of the source.** -/
theorem hasValue {settings : Settings} {consumer : Offset} {value : UInt64}
    (h : InOrder findings settings.initialRegisters source members)
    (hform : ∀ finding ∈ members, finding.WellFormed)
    (heval : (⟨findings, settings⟩ : Evaluator).evaluate source consumer = .ok value) :
    findings.HasValue settings.initialRegisters source value := by
  simp only [Evaluator.evaluate, bind_eq_ok_iff, mapError_eq_ok_iff] at heval
  obtain ⟨closure, hclosure, replay, hrun, hvalue⟩ := heval
  rw [h.lookup (Findings.mem_closure_iff hclosure).1] at hrun
  split at hvalue
  · next word rest hstack =>
    obtain rfl := pure_eq_ok_iff.1 hvalue
    exact h.hasValue_of_run hform hrun hstack
  · exact absurd hvalue throw_ne_ok

/-- **An evaluation in order succeeds** if the closure is found, the source comes last and pushes a
value, and the registers that are read have a value. -/
theorem exists_evaluate {settings : Settings} {consumer : Offset} {closure : Provenance}
    {front : List Finding} {last : Finding}
    (h : InOrder findings settings.initialRegisters source members)
    (hform : ∀ finding ∈ members, finding.WellFormed)
    (hentry : ∀ finding ∈ members, ∀ register, finding.read? = some register →
      finding.consumed = [.unknown] → ∃ word, settings.initialRegisters.get register = some word)
    (hflags : ∀ finding ∈ members, ∀ writer ∈ members, ¬ finding.ReadsFlagsOf writer)
    (hclosure : findings.closure settings.maxClosure source = .ok closure)
    (hlast : members = front ++ [last]) (hpushes : last.opcode.pushes = 1) :
    ∃ value, (⟨findings, settings⟩ : Evaluator).evaluate source consumer = .ok value := by
  obtain ⟨hmembers, haccepts, -⟩ := Findings.mem_closure_iff hclosure
  have hreplayable : ∀ finding ∈ members, finding.opcode.isReplayable = true := by
    intro finding hfinding
    have hmem := (hmembers _).2 ((h.complete _).2 (List.mem_map_of_mem hfinding))
    obtain ⟨finding', hstored, hreplayable, -⟩ := haccepts _ hmem
    obtain rfl := Option.some.inj ((h.stored finding hfinding).symm.trans hstored)
    exact hreplayable
  obtain ⟨final, hrecorded⟩ := h.recorded
  obtain ⟨replay, hrun⟩ : ∃ replay, Replay.run consumer
      { registers := settings.initialRegisters } (members.map (·.toInstruction)) = .ok replay :=
    Matches.start.exists_run h hform hreplayable hentry hflags (fun _ hmem => hmem) hrecorded
  obtain ⟨hmatches, -⟩ := Matches.start.run h hform (fun _ hmem => hmem) hrecorded hrun
  -- the last instruction leaves its value on top
  rw [hlast] at hrecorded
  obtain ⟨middle, -, hend⟩ := recorded_append_iff.1 hrecorded
  obtain rfl := recorded_nil_iff.1 (recorded_cons_iff.1 hend).2.2
  obtain ⟨-, word, words, -, -, hwords, -⟩ :=
    hmatches.exists_cons (Instruction.after_stack_of_pushes hpushes)
  refine ⟨word, ?_⟩
  simp only [Evaluator.evaluate, bind_eq_ok_iff, mapError_eq_ok_iff]
  refine ⟨closure, hclosure, replay, ?_, ?_⟩
  · rw [h.lookup hmembers]
    exact hrun
  · rw [hwords]
    rfl

end InOrder

/-- What a consumed value may be includes the number of each of its producers. -/
lemma Evaluator.exists_of_resolve {evaluator : Evaluator} {value : Provenance}
    {source consumer : Offset} {numbers : List UInt64}
    (h : evaluator.resolve value consumer = .ok numbers) (hsource : source ∈ value) :
    ∃ number ∈ numbers, evaluator.evaluate source consumer = .ok number := by
  unfold resolve at h
  split at h
  · cases h
  · obtain ⟨candidates, hcandidates, h⟩ := bind_eq_ok_iff.1 h
    obtain rfl := pure_eq_ok_iff.1 h
    obtain ⟨number, hnumber, hevaluate⟩ :=
      exists_of_mapM_eq_ok hcandidates (Std.ExtTreeSet.mem_toList.2 hsource)
    refine ⟨number, ?_, hevaluate⟩
    rw [Std.ExtTreeSet.mem_toList, Std.ExtTreeSet.mem_ofList]
    exact List.contains_iff_mem.2 hnumber

end KeyedVM
