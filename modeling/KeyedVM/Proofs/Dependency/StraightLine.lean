import KeyedVM.Proofs.Dependency.Tracking

set_option relaxedAutoImplicit false
set_option autoImplicit false

/-!
# Evaluation in straight-line programs

In a program without jumps an evaluation replays only the instructions that a value depends on.
Leaving out all others changes nothing for those that stay: they find the same slots on top of the
stack, because a slot that one of them pops is popped by no other instruction, and the same
registers.  So the evaluation gives the word that the program itself computes.

## Main definitions

* `KeyedVM.StraightLine` — a program without jumps that records what is consumed;
* `KeyedVM.Kept` — an abstract state restricted to the instructions that are kept.

## Main results

* `KeyedVM.Recorded.restrict` — a row records the same after instructions are left out;
* `KeyedVM.StraightLine.inOrder` — a closure in a straight-line program stands in order;
* `KeyedVM.StraightLine.evaluate_eq_pushed` — an evaluation gives the word that is pushed.
-/

namespace KeyedVM

/-- A program without jumps, in the order of offsets, that records what is consumed when it is
executed from the start.  No instruction pushes the flags that arithmetic has left. -/
structure StraightLine (program : List Finding) : Prop where
  ascending : program.Pairwise (·.offset < ·.offset)
  sequential : ∀ finding ∈ program, finding.flow = .sequential
  formed : ∀ finding ∈ program, finding.WellFormed
  recorded : ∃ last, Recorded {} program last
  flags : ∀ finding ∈ program, ∀ writer ∈ program, ¬ finding.ReadsFlagsOf writer

/-! ## Leaving instructions out -/

/-- The state `kept` is what is left of `state` if only the instructions in `members` are executed:
the slots that these have pushed, and the registers that these were the last to write. -/
structure Kept (members : Provenance) (state kept : State) : Prop where
  slots : ∃ labels : List Offset, state.stack = labels.map .of ∧
    kept.stack = (labels.filter members.contains).map .of
  registers : ∀ register,
    (state.registers.get register = .unknown ∧ kept.registers.get register = .unknown) ∨
    ∃ label, state.registers.get register = .of label ∧
      (label ∈ members → kept.registers.get register = .of label)

namespace Kept

variable {members : Provenance} {state kept : State} {finding : Finding}

/-- At the start there is nothing to leave out. -/
lemma start : Kept members {} {} where
  slots := ⟨[], rfl, rfl⟩
  registers register := Or.inl ⟨RegisterFile.get_fill _ register, RegisterFile.get_fill _ register⟩

/-- The labels that an instruction pops are those of the topmost slots. -/
lemma pops_of_mem_take {labels : List Offset} {label : Offset}
    (hstack : state.stack = labels.map .of) (hpops : finding.opcode.pops ≤ state.stack.length)
    (hconsumed : finding.consumed = finding.toInstruction.consumes state)
    (hlabel : label ∈ labels.take finding.opcode.pops) : finding.Pops label := by
  rw [Finding.pops_iff hpops hconsumed, hstack, ← List.map_take]
  exact List.mem_map_of_mem hlabel

/-- An instruction that is kept consumes the same, and what is left behind it is kept. -/
lemma after_member (h : Kept members state kept) (hfinding : finding.offset ∈ members)
    (hpops : finding.opcode.pops ≤ state.stack.length)
    (hconsumed : finding.consumed = finding.toInstruction.consumes state)
    (hmembers : ∀ value ∈ finding.consumed, ∀ label ∈ value, label ∈ members) :
    finding.opcode.pops ≤ kept.stack.length ∧
      finding.consumed = finding.toInstruction.consumes kept ∧
      Kept members (finding.toInstruction.after state) (finding.toInstruction.after kept) := by
  obtain ⟨⟨labels, hstack, hkept⟩, hregisters⟩ := h
  -- all labels that are popped are kept, so they are on top of the kept stack as well
  have hfront : (labels.take finding.opcode.pops).filter members.contains =
      labels.take finding.opcode.pops := by
    apply List.filter_eq_self.2
    intro label hlabel
    have hmem := List.mem_of_mem_take (pops_of_mem_take hstack hpops hconsumed hlabel)
    exact hmembers _ hmem label (Provenance.mem_of.2 rfl)
  have hlength : (labels.take finding.opcode.pops).length = finding.opcode.pops := by
    rw [hstack, List.length_map] at hpops
    exact List.length_take_of_le hpops
  rw [← List.take_append_drop finding.opcode.pops labels, List.filter_append, hfront,
    List.map_append] at hkept
  have htake : kept.stack.take finding.opcode.pops = state.stack.take finding.opcode.pops := by
    rw [hkept, hstack, List.take_left' (by simpa using hlength), List.map_take]
  have hdrop : kept.stack.drop finding.opcode.pops =
      ((labels.drop finding.opcode.pops).filter members.contains).map .of := by
    rw [hkept, List.drop_left' (by simpa using hlength)]
  refine ⟨?_, ?_, ?_, ?_⟩
  · rw [hkept, List.length_append, List.length_map, hlength]
    exact Nat.le_add_right _ _
  · rw [hconsumed, Instruction.consumes, Instruction.consumes, htake]
    congr 1
    cases hread : finding.read? with
    | none => rfl
    | some register =>
      have hmem : state.registers.get register ∈ finding.consumed := by
        rw [hconsumed, Instruction.consumes, hread]
        simp
      rcases hregisters register with ⟨hunknown, hunknown'⟩ | ⟨label, hof, hof'⟩
      · simp [hunknown, hunknown']
      · rw [hof] at hmem
        simp [hof, hof' (hmembers _ hmem label (Provenance.mem_of.2 rfl))]
  · refine ⟨List.replicate finding.opcode.pushes finding.offset
      ++ labels.drop finding.opcode.pops, by simp [Instruction.after, hstack], ?_⟩
    rw [List.filter_append, List.filter_replicate_of_pos (by simpa using hfinding), List.map_append,
      ← hdrop, Instruction.after, List.map_replicate]
  · intro register
    rw [Instruction.after_get, Instruction.after_get]
    split
    · exact Or.inr ⟨_, rfl, fun _ => rfl⟩
    · exact hregisters register

/-- An instruction that is left out changes nothing, if it pops no slot that is kept. -/
lemma after_other (h : Kept members state kept) (hfinding : finding.offset ∉ members)
    (hpops : finding.opcode.pops ≤ state.stack.length)
    (hconsumed : finding.consumed = finding.toInstruction.consumes state)
    (hmembers : ∀ label ∈ members, ¬ finding.Pops label) :
    Kept members (finding.toInstruction.after state) kept := by
  obtain ⟨⟨labels, hstack, hkept⟩, hregisters⟩ := h
  have hfront : (labels.take finding.opcode.pops).filter members.contains = [] := by
    apply List.filter_eq_nil_iff.2
    intro label hlabel hmem
    exact hmembers label hmem (pops_of_mem_take hstack hpops hconsumed hlabel)
  rw [← List.take_append_drop finding.opcode.pops labels, List.filter_append, hfront,
    List.nil_append] at hkept
  constructor
  · refine ⟨List.replicate finding.opcode.pushes finding.offset
      ++ labels.drop finding.opcode.pops, by simp [Instruction.after, hstack], ?_⟩
    rw [List.filter_append, List.filter_replicate_of_neg (by simpa using hfinding), List.nil_append,
      hkept]
  · intro register
    rw [Instruction.after_get]
    split
    · exact Or.inr ⟨_, rfl, fun hmem => absurd hmem hfinding⟩
    · exact hregisters register

end Kept

/-- **A row records the same after instructions are left out**, if those that stay consume only what
others that stay produce, and the others pop nothing that stays. -/
theorem Recorded.restrict {members : Provenance} {row : List Finding} {state kept last : State}
    (h : Recorded state row last) (hkept : Kept members state kept)
    (hin : ∀ finding ∈ row, finding.offset ∈ members →
      ∀ value ∈ finding.consumed, ∀ label ∈ value, label ∈ members)
    (hout : ∀ finding ∈ row, finding.offset ∉ members →
      ∀ label ∈ members, ¬ finding.Pops label) :
    ∃ last', Recorded kept (row.filter fun finding => members.contains finding.offset) last' := by
  induction row generalizing state kept with
  | nil => exact ⟨kept, .nil⟩
  | cons finding row ih =>
    obtain ⟨hpops, hconsumed, hrest⟩ := recorded_cons_iff.1 h
    obtain ⟨hin, hins⟩ := List.forall_mem_cons.1 hin
    obtain ⟨hout, houts⟩ := List.forall_mem_cons.1 hout
    by_cases hfinding : finding.offset ∈ members
    · obtain ⟨hpops', hconsumed', hnext⟩ :=
        hkept.after_member hfinding hpops hconsumed (hin hfinding)
      obtain ⟨last', hlast'⟩ := ih hrest hnext hins houts
      rw [List.filter_cons_of_pos (by simpa using hfinding)]
      exact ⟨last', recorded_cons_iff.2 ⟨hpops', hconsumed', hlast'⟩⟩
    · rw [List.filter_cons_of_neg (by simpa using hfinding)]
      exact ih hrest (hkept.after_other hfinding hpops hconsumed (hout hfinding)) hins houts

/-! ## The closure of a pushed value -/

namespace StraightLine

variable {program front back : List Finding} {source : Finding} {findings : Findings}
  {members : Provenance}

/-- The first instructions of a straight-line program are one. -/
lemma append_left {back : List Finding} (h : StraightLine (front ++ back)) :
    StraightLine front where
  ascending := (List.pairwise_append.1 h.ascending).1
  sequential finding hfinding := h.sequential finding (List.mem_append_left _ hfinding)
  formed finding hfinding := h.formed finding (List.mem_append_left _ hfinding)
  recorded := by
    obtain ⟨last, hrecorded⟩ := h.recorded
    obtain ⟨middle, hfront, -⟩ := recorded_append_iff.1 hrecorded
    exact ⟨middle, hfront⟩
  flags finding hfinding writer hwriter :=
    h.flags finding (List.mem_append_left _ hfinding) writer (List.mem_append_left _ hwriter)

/-- The offsets of a straight-line program are all different. -/
lemma nodup (h : StraightLine program) : (program.map (·.offset)).Nodup := by
  rw [List.Nodup, List.pairwise_map]
  exact h.ascending.imp fun hlt => UInt64.ne_of_lt hlt

/-- What takes part in computing a value of a straight-line program is in the program. -/
lemma exists_of_takesPart (h : StraightLine program)
    (hstored : ∀ finding ∈ program, findings[finding.offset]? = some finding)
    (hsource : source ∈ program) {offset : Offset}
    (hoffset : findings.TakesPart source.offset offset) :
    ∃ finding ∈ program, finding.offset = offset := by
  obtain ⟨last, hrecorded⟩ := h.recorded
  induction hoffset with
  | refl => exact ⟨source, hsource, rfl⟩
  | tail _ hdepends ih =>
    obtain ⟨finding, hfinding, rfl⟩ := ih
    obtain ⟨value, hvalue, hproducer⟩ := hdepends.exists_mem (hstored finding hfinding)
    rcases hrecorded.pops_or_reads Exact.start h.nodup hfinding hvalue with
      ⟨offset, rfl, hpops⟩ | ⟨register, -, rfl | ⟨writer, hwriter, -, rfl⟩⟩
    · obtain rfl := Provenance.mem_of.1 hproducer
      obtain ⟨pusher, hpusher, -, hsame⟩ :=
        hrecorded.exists_pusher Exact.start h.nodup hfinding hpops
      exact ⟨pusher, hpusher, hsame⟩
    · exact absurd hproducer (Provenance.not_mem_unknown _)
    · exact ⟨writer, hwriter, (Provenance.mem_of.1 hproducer).symm⟩

/-- What an instruction of a straight-line program consumes is determinate. -/
lemma determinate (h : StraightLine program) {finding : Finding} (hfinding : finding ∈ program) :
    finding.Determinate := by
  obtain ⟨last, hrecorded⟩ := h.recorded
  intro value hvalue
  rcases hrecorded.pops_or_reads Exact.start h.nodup hfinding hvalue with
    ⟨offset, rfl, -⟩ | ⟨register, hread, rfl | ⟨writer, -, -, rfl⟩⟩
  · exact Or.inl ⟨offset, rfl⟩
  · obtain ⟨part, hpart, -⟩ := (h.formed finding hfinding).exists_pushr hread
    exact Or.inr ⟨rfl, by rw [hpart]; rfl⟩
  · exact Or.inl ⟨_, rfl⟩

/-- An instruction that does not take part pops nothing that takes part.

**Proof sketch.** What takes part and is not the source itself is consumed by another instruction
that takes part.  If it is popped there, it is popped nowhere else.  If it is a register there, it
was written by a `POP`, which pushes nothing. -/
lemma not_pops {finding : Finding} {label : Offset} (h : StraightLine (front ++ [source]))
    (hstored : ∀ finding ∈ front ++ [source], findings[finding.offset]? = some finding)
    (hfinding : finding ∈ front ++ [source])
    (hnot : ¬ findings.TakesPart source.offset finding.offset)
    (hlabel : findings.TakesPart source.offset label) : ¬ finding.Pops label := by
  intro hpops
  obtain ⟨last, hrecorded⟩ := h.recorded
  obtain rfl | ⟨offset, hmember, hdepends⟩ := Relation.ReflTransGen.cases_tail hlabel
  · -- the source is the last instruction, so none before it can pop what it pushes
    rcases List.mem_append.1 hfinding with hfront | hlast
    · obtain ⟨middle, hrow, -⟩ := recorded_append_iff.1 hrecorded
      refine (hrow.absent List.not_mem_nil fun earlier hearlier => ?_).2 finding hfront hpops
      have hlt := (List.pairwise_append.1 h.ascending).2.2 earlier hearlier source
        (List.mem_singleton_self source)
      exact UInt64.ne_of_lt hlt
    · rw [List.mem_singleton.1 hlast] at hnot
      exact hnot .refl
  · have hsource : source ∈ front ++ [source] :=
      List.mem_append_right _ (List.mem_singleton_self source)
    obtain ⟨consumer, hconsumer, rfl⟩ := h.exists_of_takesPart hstored hsource hmember
    obtain ⟨value, hvalue, hproducer⟩ := hdepends.exists_mem (hstored consumer hconsumer)
    rcases hrecorded.pops_or_reads Exact.start h.nodup hconsumer hvalue with
      ⟨offset, rfl, hpops'⟩ | ⟨register, hread, rfl | ⟨writer, hwriter, hwritten, rfl⟩⟩
    · obtain rfl := Provenance.mem_of.1 hproducer
      obtain rfl := hrecorded.pops_unique Exact.start h.nodup hfinding hconsumer hpops hpops'
      exact hnot hmember
    · exact absurd hproducer (Provenance.not_mem_unknown _)
    · obtain rfl := Provenance.mem_of.1 hproducer
      obtain ⟨pusher, hpusher, hpushes, hsame⟩ :=
        hrecorded.exists_pusher Exact.start h.nodup hfinding hpops
      have hstore := hstored pusher hpusher
      rw [hsame, hstored writer hwriter, Option.some.injEq] at hstore
      subst hstore
      rcases Instruction.written?_eq_some hwritten with ⟨hpop, -⟩ | ⟨hwrites, rfl⟩
      · rw [hpop] at hpushes
        cases hpushes
      · exact h.flags consumer hconsumer _ hwriter ⟨hread, hwrites, hvalue⟩

/-- **The closure of the last value of a straight-line program stands in order.** -/
theorem inOrder {entry : RegisterFile (Option UInt64)} (h : StraightLine (front ++ [source]))
    (hstored : ∀ finding ∈ front ++ [source], findings[finding.offset]? = some finding)
    (hmembers : ∀ offset, offset ∈ members ↔ findings.TakesPart source.offset offset) :
    InOrder findings entry source.offset
      ((front ++ [source]).filter fun finding => members.contains finding.offset) where
  stored finding hfinding := hstored finding (List.mem_of_mem_filter hfinding)
  ascending := h.ascending.filter _
  complete offset := by
    rw [List.mem_map]
    constructor
    · intro hoffset
      obtain ⟨finding, hfinding, rfl⟩ := h.exists_of_takesPart hstored
        (List.mem_append_right _ (List.mem_singleton_self source)) hoffset
      exact ⟨finding, List.mem_filter.2 ⟨hfinding, (hmembers _).2 hoffset⟩, rfl⟩
    · rintro ⟨finding, hfinding, rfl⟩
      exact (hmembers _).1 (List.mem_filter.1 hfinding).2
  recorded := by
    obtain ⟨last, hrecorded⟩ := h.recorded
    refine hrecorded.restrict Kept.start ?_ ?_
    · intro finding hfinding hmember value hvalue label hlabel
      have hdepends : findings.DependsOn finding.offset label :=
        ⟨finding, hstored finding hfinding, value, hvalue, hlabel⟩
      exact (hmembers label).2 (((hmembers _).1 hmember).tail hdepends)
    · intro finding hfinding hnot label hlabel
      exact h.not_pops hstored hfinding (mt (hmembers _).2 hnot) ((hmembers label).1 hlabel)
  flags finding hfinding writer hwriter hreads :=
    absurd hreads (h.flags finding (List.mem_of_mem_filter hfinding) writer
      (List.mem_of_mem_filter hwriter))

/-! ## The word that is pushed -/

/-- An execution of a straight-line program is tracked by what it records.

**Proof sketch.** Induction on the program.  The abstract states are exact, so a register is
recorded as written only if it has been written. -/
lemma tracks {entry : RegisterFile (Option UInt64)} {done row : List Finding} {state last : State}
    {store store' : Store} (hrecorded : Recorded state row last) (hexact : Exact done state)
    (hnodup : ((done ++ row).map (·.offset)).Nodup)
    (hform : ∀ finding ∈ row, finding.WellFormed)
    (hstored : ∀ finding ∈ row, findings[finding.offset]? = some finding)
    (htracks : Tracks findings entry (fun _ => True)
      (fun register => ∃ finding ∈ done, finding.written? = some register) state store)
    (hexecutes : Executes store (row.map (·.toInstruction)) store') :
    Tracks findings entry (fun _ => True)
      (fun register => ∃ finding ∈ done ++ row, finding.written? = some register) last store' := by
  induction row generalizing done state store with
  | nil =>
    obtain rfl := recorded_nil_iff.1 hrecorded
    cases hexecutes
    simpa using htracks
  | cons finding row ih =>
    obtain ⟨hpops, hconsumed, hrest⟩ := recorded_cons_iff.1 hrecorded
    obtain ⟨hform, hforms⟩ := List.forall_mem_cons.1 hform
    obtain ⟨hstored, hstores⟩ := List.forall_mem_cons.1 hstored
    cases hexecutes with
    | @cons _ middle _ _ _ hperforms hexecutes =>
      have hnext := hexact.after (Recorded.offset_fresh hnodup).1
      have htracks' : Tracks findings entry (fun _ => True)
          (fun register => ∃ f ∈ done ++ [finding], f.written? = some register)
          (finding.toInstruction.after state) middle := by
        refine htracks.performs (fun _ _ _ _ => trivial)
          (fun register => by simp [or_and_right, exists_or]) hstored hform hpops hconsumed
          (fun register _ _ => ?_) hperforms
        rcases hexact.registers register with hunknown | ⟨writer, hwriter, hwritten, -⟩
        · exact Or.inr hunknown
        · exact Or.inl ⟨writer, hwriter, hwritten⟩
      rw [List.append_cons] at hnodup ⊢
      exact ih hrest hnext hnodup hforms hstores htracks' hexecutes

/-- The last instruction of a straight-line program is evaluated to its value in the dependency
graph, if it pushes a value and all that takes part in it is replayable and not too much. -/
lemma exists_value {settings : Settings} {consumer : Offset}
    (h : StraightLine (front ++ [source]))
    (hstored : ∀ finding ∈ front ++ [source], findings[finding.offset]? = some finding)
    (hpushes : source.opcode.pushes = 1)
    (hmembers : ∀ offset, offset ∈ members ↔ findings.TakesPart source.offset offset)
    (hreplayable : ∀ finding ∈ front ++ [source], finding.offset ∈ members →
      finding.opcode.isReplayable = true)
    (hsize : members.size ≤ settings.maxClosure)
    (hentry : ∀ finding ∈ front ++ [source], finding.offset ∈ members →
      ∀ register, finding.read? = some register → finding.consumed = [.unknown] →
        ∃ word, settings.initialRegisters.get register = some word) :
    ∃ value, (⟨findings, settings⟩ : Evaluator).evaluate source.offset consumer = .ok value ∧
      findings.HasValue settings.initialRegisters source.offset value := by
  have horder : InOrder findings settings.initialRegisters source.offset _ :=
    h.inOrder hstored hmembers
  have hform : ∀ finding ∈ (front ++ [source]).filter fun f => members.contains f.offset,
      finding.WellFormed := by
    intro finding hfinding
    exact h.formed finding (List.mem_of_mem_filter hfinding)
  have haccepts : ∀ offset ∈ members, findings.Accepts offset := by
    intro offset hoffset
    obtain ⟨finding, hfinding, rfl⟩ := h.exists_of_takesPart hstored
      (List.mem_append_right _ (List.mem_singleton_self source)) ((hmembers offset).1 hoffset)
    exact ⟨finding, hstored finding hfinding, hreplayable finding hfinding hoffset,
      h.determinate hfinding⟩
  have hclosure := Findings.closure_eq_ok hmembers haccepts hsize
  have hlast : ((front ++ [source]).filter fun f => members.contains f.offset) =
      (front.filter fun f => members.contains f.offset) ++ [source] := by
    have hsource : members.contains source.offset = true := (hmembers source.offset).2 .refl
    rw [List.filter_append, List.filter_cons, if_pos hsource, List.filter_nil]
  obtain ⟨value, hvalue⟩ : ∃ value,
      (⟨findings, settings⟩ : Evaluator).evaluate source.offset consumer = .ok value := by
    refine horder.exists_evaluate hform ?_ ?_ hclosure hlast hpushes
    · intro finding hfinding
      obtain ⟨hmem, hmember⟩ := List.mem_filter.1 hfinding
      exact hentry finding hmem hmember
    · intro finding hfinding writer hwriter
      exact h.flags finding (List.mem_of_mem_filter hfinding) writer
        (List.mem_of_mem_filter hwriter)
  exact ⟨value, hvalue, horder.hasValue hform hvalue⟩

/-- Behind a straight-line program whose last instruction pushes a value, the word on top agrees
with the value of that instruction. -/
lemma exists_pushed {entry : RegisterFile (Option UInt64)} {start middle : Store}
    (h : StraightLine (front ++ [source]))
    (hstored : ∀ finding ∈ front ++ [source], findings[finding.offset]? = some finding)
    (hpushes : source.opcode.pushes = 1) (hstack : start.stack = [])
    (hregisters : ∀ register word, entry.get register = some word →
      word = start.registers.get register)
    (hexecutes : Executes start ((front ++ [source]).map (·.toInstruction)) middle) :
    ∃ word rest, middle.stack = word :: rest ∧
      findings.Agrees entry (fun _ => True) source.offset word := by
  obtain ⟨last, hrecorded⟩ := h.recorded
  have htracks := tracks hrecorded Exact.start h.nodup h.formed hstored
    (Tracks.start (by simp) hstack hregisters) hexecutes
  obtain ⟨before, -, hend⟩ := recorded_append_iff.1 hrecorded
  obtain rfl := recorded_nil_iff.1 (recorded_cons_iff.1 hend).2.2
  have hslots := htracks.slots
  rw [Instruction.after_stack_of_pushes hpushes] at hslots
  obtain ⟨word, rest, ⟨label, hlabel, hagrees⟩, -, hmiddle⟩ := List.forall₂_cons_left_iff.1 hslots
  obtain rfl := Provenance.mem_of.1 hlabel
  exact ⟨word, rest, hmiddle, hagrees⟩

/-- **An evaluation gives the word that is pushed.**  Take an instruction of a straight-line program
that pushes a value.  If all that takes part in computing the value is replayable and not too much,
and the registers that it reads unwritten have an entry value, then the program can be executed
from an empty stack and the entry values, and in every execution the instruction pushes the word
that the evaluator gives for it.

**Proof sketch.** The closure is found and stands in order, so the evaluation succeeds and gives the
value of the instruction in the dependency graph.  The execution is tracked by what the program
records, so the pushed word agrees with that value. -/
theorem evaluate_eq_pushed {settings : Settings} {consumer : Offset} {start : Store}
    (h : StraightLine (front ++ source :: back))
    (hstored : ∀ finding ∈ front ++ source :: back, findings[finding.offset]? = some finding)
    (hpushes : source.opcode.pushes = 1)
    (hmembers : ∀ offset, offset ∈ members ↔ findings.TakesPart source.offset offset)
    (hreplayable : ∀ finding ∈ front ++ source :: back, finding.offset ∈ members →
      finding.opcode.isReplayable = true)
    (hsize : members.size ≤ settings.maxClosure)
    (hentry : ∀ finding ∈ front ++ source :: back, finding.offset ∈ members →
      ∀ register, finding.read? = some register → finding.consumed = [.unknown] →
        ∃ word, settings.initialRegisters.get register = some word)
    (hstack : start.stack = [])
    (hregisters : ∀ register word, settings.initialRegisters.get register = some word →
      word = start.registers.get register) :
    (∃ final, Executes start ((front ++ source :: back).map (·.toInstruction)) final) ∧
      ∀ middle final, Executes start ((front ++ [source]).map (·.toInstruction)) middle →
        Executes middle (back.map (·.toInstruction)) final →
        ∃ word rest, middle.stack = word :: rest ∧
          (⟨findings, settings⟩ : Evaluator).evaluate source.offset consumer = .ok word := by
  constructor
  · obtain ⟨last, hrecorded⟩ := h.recorded
    exact exists_executes h.formed h.sequential hrecorded (by rw [hstack]; rfl)
  · intro middle final hexecutes _
    -- only the program up to the instruction matters
    rw [List.append_cons] at h hstored hreplayable hentry
    have hrow : StraightLine (front ++ [source]) := h.append_left
    have hmem : ∀ finding ∈ front ++ [source], finding ∈ front ++ [source] ++ back := by
      intro finding hfinding
      exact List.mem_append_left _ hfinding
    have hstored' : ∀ finding ∈ front ++ [source], findings[finding.offset]? = some finding := by
      intro finding hfinding
      exact hstored finding (hmem finding hfinding)
    obtain ⟨value, hvalue, hgraph⟩ := hrow.exists_value hstored' hpushes hmembers
      (fun finding hfinding => hreplayable finding (hmem finding hfinding)) hsize
      (fun finding hfinding => hentry finding (hmem finding hfinding))
    obtain ⟨word, rest, hmiddle, hagrees⟩ :=
      hrow.exists_pushed hstored' hpushes hstack hregisters hexecutes
    refine ⟨word, rest, hmiddle, ?_⟩
    rw [hvalue, hagrees trivial value hgraph]

/-- A finding of the program below. -/
def sampleLine (offset : Offset) (opcode : Opcode) (operand : Operand)
    (consumed : List Provenance) : Finding :=
  { offset, opcode, operand, state := {}, consumed }

/-- The program `PUSHI 5`, `POP R1`, `PUSHI 2`, `LIND`, `PUSHR R1`, `PUSHI 1`.  The third and the
fourth instruction take no part in the sum that follows. -/
def sample : List Finding :=
  [sampleLine 0 (.pushi .dword) (.dword 5) [],
    sampleLine 6 .pop (.register .r1) [.of 0],
    sampleLine 9 (.pushi .dword) (.dword 2) [],
    sampleLine 15 (.lind .dword) .none [.of 9],
    sampleLine 17 (.pushr .qword) (.register .r1) [.of 6],
    sampleLine 20 (.pushi .dword) (.dword 1) []]

/-- The sum of what the program has left on top of the stack. -/
def sampleSource : Finding := sampleLine 26 (.add .qword) .none [.of 20, .of 17]

/-- The findings of the program and the sum. -/
def sampleFindings : Findings :=
  .ofList ((sample ++ [sampleSource]).map fun finding => (finding.offset, finding))

/-- The sample is a straight-line program. -/
lemma sample_straightLine : StraightLine (sample ++ [sampleSource]) where
  ascending := by decide
  sequential := by decide
  formed := by decide
  recorded := ⟨_, .cons rfl rfl rfl <| .cons rfl rfl rfl <| .cons rfl rfl rfl <|
    .cons rfl rfl rfl <| .cons rfl rfl rfl <| .cons rfl rfl rfl <| .cons rfl rfl rfl .nil⟩
  flags := by decide

/-- What the sum of the sample pushes is what the evaluator gives for it. -/
theorem evaluate_sample :
    ∃ final word rest, Executes { registers := .fill 0 }
        ((sample ++ [sampleSource]).map (·.toInstruction)) final ∧
      final.stack = word :: rest ∧
      (⟨sampleFindings, {}⟩ : Evaluator).evaluate 26 28 = .ok word := by
  have hstored : ∀ finding ∈ sample ++ [sampleSource],
      sampleFindings[finding.offset]? = some finding := by decide +kernel
  have hknown : ∀ finding ∈ sample ++ [sampleSource], finding.consumed ≠ [.unknown] := by
    decide +kernel
  obtain ⟨members, hclosure, -⟩ : ∃ members, sampleFindings.closure 4096 26 = .ok members ∧ True :=
    exists_eq_ok (by decide +kernel)
  obtain ⟨hmembers, haccepts, hsize⟩ := Findings.mem_closure_iff hclosure
  obtain ⟨⟨final, hfinal⟩, hpushed⟩ := @evaluate_eq_pushed sample [] sampleSource
    sampleFindings members {} 28 { registers := .fill 0 } sample_straightLine hstored rfl hmembers
    (fun finding hfinding hmember => by
      obtain ⟨finding', hfinding', hreplayable, -⟩ := haccepts _ hmember
      rwa [← Option.some.inj ((hstored finding hfinding).symm.trans hfinding')] at hreplayable)
    hsize (fun finding hfinding _ _ _ h => absurd h (hknown finding hfinding)) rfl
    fun register word hword => by
      rw [RegisterFile.get_fill]
      exact Settings.eq_zero_of_get_default hword
  obtain ⟨word, rest, hstack, hevaluate⟩ := hpushed final final hfinal .nil
  exact ⟨final, word, rest, hfinal, hstack, hevaluate⟩

end StraightLine

end KeyedVM
