import KeyedVM.Proofs.Inference.Charting
import KeyedVM.Proofs.Inference.Faults
import Mathlib.Logic.Relation

set_option relaxedAutoImplicit false
set_option autoImplicit false

/-!
# An analysis takes nothing back

Along every analysis the stored states only gain producers, the places that are known to be
instructions stay the same instructions, and the other things that were learned are kept.

A stored state keeps its key, and the key decides what is decoded.  So an offset is decoded to the
same instruction whenever its state is executed, and no analysis fails because an instruction was
decoded a second time with another result.

## Main definitions

* `KeyedVM.Run.Grows` — a later run knows all that an earlier one knew;
* `KeyedVM.Run.Knows` — a state is stored or on the worklist;
* `KeyedVM.Run.Turn` — a step of the worklist, or a revalidation;
* `KeyedVM.Run.Raises` — the errors with which a move of an analysis can fail;
* `KeyedVM.Error.IsRedecoding` — an instruction was decoded a second time with another result.

## Main results

* `KeyedVM.Run.Traced.toInstruction_eq` — an offset is always decoded to the same instruction;
* `KeyedVM.Run.Reachable.grows` — an analysis takes nothing back;
* `KeyedVM.Run.Reachable.step_failsOnly`, `recheck_failsOnly` — a move fails because the iterations
  are used up, because states cannot be merged, or because a stored state cannot be executed;
* `KeyedVM.Run.turns_grow` — turn after turn, runs grow and instructions are never redecoded.
-/

namespace KeyedVM

namespace Run

variable {context : Context} {log : Log} {run base next earlier later : Run}

/-! ## Growing -/

/-- A later run knows all that an earlier one knew.  A state that is stored keeps its key, its
depth and its open regions and only gains producers; an instruction that is recorded stays what it
is; and so do the depth and the key at the first return. -/
structure Grows (earlier later : Run) : Prop where
  states : ∀ (offset : Offset) (state : State), earlier.states[offset]? = some state →
    ∃ grown, later.states[offset]? = some grown ∧ grown.key = state.key ∧ grown.Covers state
  findings : ∀ (offset : Offset) (finding : Finding), earlier.findings[offset]? = some finding →
    ∃ known, later.findings[offset]? = some known ∧ known.toInstruction = finding.toInstruction
  headers : ∀ header ∈ earlier.headers, header ∈ later.headers
  regions : ∀ region ∈ earlier.regions, region ∈ later.regions
  unknownCallees : ∀ callee ∈ earlier.unknownCallees, callee ∈ later.unknownCallees
  waitingFor : ∀ callee ∈ earlier.waitingFor, callee ∈ later.waitingFor
  returnDepth? : ∀ depth, earlier.returnDepth? = some depth → later.returnDepth? = some depth
  exitKey? : ∀ key, earlier.exitKey? = some key → later.exitKey? = some key

namespace Grows

/-- A run knows all that it knows. -/
lemma refl (run : Run) : run.Grows run where
  states _ state h := ⟨state, h, rfl, .refl state⟩
  findings _ finding h := ⟨finding, h, rfl⟩
  headers _ h := h
  regions _ h := h
  unknownCallees _ h := h
  waitingFor _ h := h
  returnDepth? _ h := h
  exitKey? _ h := h

/-- Runs grow step by step. -/
lemma trans (h : earlier.Grows run) (h' : run.Grows later) : earlier.Grows later where
  states offset state hstate := by
    obtain ⟨middle, hmiddle, hkey, hcovers⟩ := h.states offset state hstate
    obtain ⟨grown, hgrown, hkey', hcovers'⟩ := h'.states offset middle hmiddle
    exact ⟨grown, hgrown, hkey'.trans hkey, hcovers'.trans hcovers⟩
  findings offset finding hfinding := by
    obtain ⟨middle, hmiddle, hsame⟩ := h.findings offset finding hfinding
    obtain ⟨known, hknown, hsame'⟩ := h'.findings offset middle hmiddle
    exact ⟨known, hknown, hsame'.trans hsame⟩
  headers header hmem := h'.headers header (h.headers header hmem)
  regions region hmem := h'.regions region (h.regions region hmem)
  unknownCallees callee hmem := h'.unknownCallees callee (h.unknownCallees callee hmem)
  waitingFor callee hmem := h'.waitingFor callee (h.waitingFor callee hmem)
  returnDepth? depth hdepth := h'.returnDepth? depth (h.returnDepth? depth hdepth)
  exitKey? key hkey := h'.exitKey? key (h.exitKey? key hkey)

end Grows

/-- Whatever is taken in, the states stored before only gain producers. -/
lemma Intake.exists_grown (h : run.Intake base) {offset : Offset} {state : State}
    (hstate : run.states[offset]? = some state) :
    ∃ grown, base.states[offset]? = some grown ∧ grown.key = state.key ∧ grown.Covers state := by
  cases h with
  | tick => exact ⟨state, hstate, rfl, .refl state⟩
  | @store incoming rest _ hnew =>
    refine ⟨state, ?_, rfl, .refl state⟩
    rw [Std.ExtTreeMap.getElem?_insert, if_neg]
    · exact hstate
    · intro heq
      rw [Std.LawfulEqOrd.eq_of_compare heq, hstate] at hnew
      cases hnew
  | @merge incoming stored rest merged log _ hstored hmerge _ =>
    by_cases hoffset : incoming.ip = offset
    · subst hoffset
      obtain rfl : stored = state := Option.some.inj (hstored.symm.trans hstate)
      exact ⟨merged.state, Std.ExtTreeMap.getElem?_insert_self, State.merge_key hmerge,
        State.merge_covers_stored hmerge⟩
    · refine ⟨state, ?_, rfl, .refl state⟩
      rw [Std.ExtTreeMap.getElem?_insert, if_neg]
      · exact hstate
      · exact fun heq => hoffset (Std.LawfulEqOrd.eq_of_compare heq)

/-- Taking a state from the worklist loses nothing. -/
lemma Intake.grows (h : run.Intake base) : run.Grows base := by
  refine ⟨fun _ _ hstate => h.exists_grown hstate, ?_, ?_, ?_, ?_, ?_, ?_, ?_⟩
  all_goals rw [h.eq]
  · exact fun _ finding hfinding => ⟨finding, hfinding, rfl⟩
  all_goals exact fun _ hmem => hmem

/-- Taking over an execution takes nothing back, if the instruction is the known one. -/
lemma grows_absorb {finding : Finding} {effects : Effects}
    (hknown : ∀ known, base.findings[finding.offset]? = some known →
      known.toInstruction = finding.toInstruction) :
    base.Grows (base.absorb context finding effects) := by
  rw [absorb_eq]
  refine ⟨fun _ state hstate => ⟨state, hstate, rfl, .refl state⟩, ?_, ?_, ?_, ?_, ?_, ?_, ?_⟩
  · intro offset known hfound
    rw [Std.ExtTreeMap.getElem?_insert]
    split
    · next heq =>
      rw [← Std.LawfulEqOrd.eq_of_compare heq] at hfound
      exact ⟨finding, rfl, (hknown known hfound).symm⟩
    · exact ⟨known, hfound, rfl⟩
  iterate 4
    · exact fun _ hmem => Std.ExtTreeSet.mem_insertMany_list.2 (Or.inl hmem)
  · intro depth hdepth
    simp [hdepth]
  · intro key hkey
    simp [hkey]

/-! ## States that are known -/

/-- A state is stored or on the worklist. -/
def Knows (run : Run) (state : State) : Prop :=
  state ∈ run.queue ∨ ∃ offset : Offset, run.states[offset]? = some state

/-- What is known once something has been taken in was known before or is a merge. -/
lemma Intake.knows_cases (h : run.Intake base) {state : State} (hstate : base.Knows state) :
    run.Knows state ∨ ∃ stored incoming merged, run.Knows stored ∧ run.Knows incoming ∧
      stored.merge incoming = .ok merged ∧ state = merged.state := by
  cases h with
  | tick => exact Or.inl hstate
  | @store incoming rest hqueue _ =>
    have hincoming : run.Knows incoming := Or.inl (hqueue ▸ List.mem_cons_self)
    rcases hstate with hmem | ⟨offset, hstored⟩
    · exact Or.inl (Or.inl (hqueue ▸ List.mem_cons_of_mem _ hmem))
    · rw [Std.ExtTreeMap.getElem?_insert] at hstored
      split at hstored
      · obtain rfl := Option.some.inj hstored
        exact Or.inl hincoming
      · exact Or.inl (Or.inr ⟨offset, hstored⟩)
  | @merge incoming stored rest merged log hqueue hknown hmerge _ =>
    have hincoming : run.Knows incoming := Or.inl (hqueue ▸ List.mem_cons_self)
    rcases hstate with hmem | ⟨offset, hstored⟩
    · exact Or.inl (Or.inl (hqueue ▸ List.mem_cons_of_mem _ hmem))
    · rw [Std.ExtTreeMap.getElem?_insert] at hstored
      split at hstored
      · obtain rfl := Option.some.inj hstored
        exact Or.inr ⟨stored, incoming, merged, Or.inr ⟨_, hknown⟩, hincoming, hmerge, rfl⟩
      · exact Or.inl (Or.inr ⟨offset, hstored⟩)

/-! ## The same instruction again -/

/-- **An offset is always decoded to the same instruction.**

**Proof sketch.** The known instruction was decoded with the key of the state that was stored
before.  Taking something in keeps that key, so the same instruction is decoded again. -/
theorem Traced.toInstruction_eq (h : run.Traced context) (hintake : run.Intake base)
    {findings : Findings} {state : State} {finding known : Finding} {effects : Effects}
    (hstate : base.states[state.ip]? = some state)
    (hexecute : context.execute findings state = .ok (finding, effects))
    (hknown : base.findings[finding.offset]? = some known) :
    known.toInstruction = finding.toInstruction := by
  rw [hintake.eq, offset_of_execute hexecute] at hknown
  obtain ⟨hip, hstored, _, _, hearlier, -⟩ := h.exists_execution hknown
  obtain ⟨grown, hgrown, hkey, -⟩ := hintake.exists_grown hstored
  obtain rfl : grown = state := Option.some.inj (hgrown.symm.trans hstate)
  obtain ⟨_, hdecode⟩ := decodeAt_of_execute hearlier
  obtain ⟨_, hdecode'⟩ := decodeAt_of_execute hexecute
  rw [hip, ← hkey] at hdecode
  exact (Prod.mk.inj (Except.ok.inj (hdecode.symm.trans hdecode'))).1

/-- The finding at an offset holds the state that is stored there. -/
lemma Traced.state_eq (h : run.Traced context) (offset : Offset) :
    run.findings[offset]?.map (·.state) = run.states[offset]? := by
  cases hfinding : run.findings[offset]? with
  | none =>
    cases hstate : run.states[offset]? with
    | none => rfl
    | some state =>
      obtain ⟨-, _, finding, _, hfinding', -⟩ := (h.offsets offset).executed state hstate
      rw [hfinding] at hfinding'
      cases hfinding'
  | some finding => exact (h.exists_execution hfinding).2.1.symm

/-- One move of an analysis takes nothing back. -/
lemma Reachable.grows_of_proceeds (hrun : Reachable context log run)
    (h : run.Proceeds context next) : run.Grows next := by
  obtain ⟨base, hintake, rfl | ⟨state, finding, effects, hstate, hexecute, -, rfl⟩⟩ :=
    hrun.proceeds_cases h
  · exact hintake.grows
  · exact hintake.grows.trans (grows_absorb fun known hknown =>
      hrun.traced.toInstruction_eq hintake hstate hexecute hknown)

/-- **An analysis takes nothing back.** -/
theorem Reachable.grows (hearlier : Reachable context log earlier)
    (h : Relation.ReflTransGen (Proceeds context) earlier later) :
    Reachable context log later ∧ earlier.Grows later := by
  induction h with
  | refl => exact ⟨hearlier, .refl earlier⟩
  | tail _ hproceeds ih =>
    exact ⟨ih.1.proceed hproceeds, ih.2.trans (ih.1.grows_of_proceeds hproceeds)⟩

/-! ## How a move fails -/

/-- The errors with which a move of an analysis can fail. -/
inductive Raises (context : Context) (run : Run) : Error → Prop
  | limit : Raises context run (.iterationLimit context.settings.maxIterations)
  /-- The first state of the worklist cannot be merged. -/
  | merge {incoming stored : State} {error : Error} : incoming ∈ run.queue →
      run.states[incoming.ip]? = some stored → stored.merge incoming = .error error →
      Raises context run error
  /-- A state that is stored once something has been taken in cannot be executed. -/
  | execution {base : Run} {state : State} {error : Error} : run.Intake base →
      base.states[state.ip]? = some state →
      context.execute base.findings state = .error error → Raises context run error

/-- What an execution of a stored state finds can be taken over. -/
lemma Reachable.commit_eq_ok (h : Reachable context log run) (hintake : run.Intake base)
    {state : State} {finding : Finding} {effects : Effects}
    (hstate : base.states[state.ip]? = some state)
    (hexecute : context.execute base.findings state = .ok (finding, effects)) :
    base.commit context finding effects = .ok (base.absorb context finding effects) := by
  refine commit_eq_ok_iff.2 ⟨fun known hknown => ?_, rfl⟩
  have hsame := h.traced.toInstruction_eq hintake hstate hexecute hknown
  exact ⟨congrArg Instruction.opcode hsame, congrArg Instruction.operand hsame⟩

/-- A visit fails only if the execution does: what it finds can be taken over. -/
lemma Reachable.visit_failsOnly {p : Error → Prop} (h : Reachable context log run)
    (hintake : run.Intake base) {state : State} (hstate : base.states[state.ip]? = some state)
    (hexecute : ∀ error, context.execute base.findings state = .error error → p error) :
    FailsOnly (p ·.error) (base.visit context state) := by
  refine FailsOnly.bind (attempt_failsOnly _ hexecute) fun (finding, effects) hfound => ?_
  dsimp only
  rw [h.commit_eq_ok hintake hstate (attempt_eq_ok_iff.1 hfound)]
  exact .ok _

/-- How the arrival of a state fails: in the merge with the stored state, or in the execution of the
state that is then stored. -/
lemma Reachable.arrive_failsOnly {p : Error → Prop} (h : Reachable context log run)
    {incoming : State} {rest : List State} (hqueue : run.queue = incoming :: rest)
    (hmerge : ∀ stored error, run.states[incoming.ip]? = some stored →
      stored.merge incoming = .error error → p error)
    (hexecute : ∀ (base : Run) (state : State) (error : Error), run.Intake base →
      state.ip = incoming.ip → base.states[state.ip]? = some state →
      context.execute base.findings state = .error error → p error) :
    FailsOnly (p ·.error)
      ({ run with queue := rest, iterations := run.iterations + 1 }.arrive context incoming) := by
  cases hstored : run.states[incoming.ip]? with
  | none =>
    simp only [arrive, hstored]
    have hstate : (run.states.insert incoming.ip incoming)[incoming.ip]? = some incoming :=
      Std.ExtTreeMap.getElem?_insert_self
    exact h.visit_failsOnly (.store hqueue hstored) hstate
      fun error => hexecute _ incoming error (.store hqueue hstored) rfl hstate
  | some stored =>
    have hstored' : { run with queue := rest, iterations := run.iterations + 1
        }.states[incoming.ip]? = some stored := hstored
    rw [arrive_of_stored hstored']
    refine FailsOnly.bind (attempt_failsOnly _ fun error => hmerge stored error hstored)
      fun merged hmerged => ?_
    have hjoin := attempt_eq_ok_iff.1 hmerged
    have hip := h.ip_of_merge hstored hjoin
    set base := joined context incoming merged { run with
      queue := rest, iterations := run.iterations + 1 }
    have hintake : run.Intake base := intake_joined hqueue hstored hjoin
    dsimp only
    split
    · have hstate : base.states[merged.state.ip]? = some merged.state := by
        rw [hip, joined_states, Std.ExtTreeMap.getElem?_insert_self]
      exact h.visit_failsOnly hintake hstate fun error => hexecute base _ error hintake hip hstate
    · exact .pure _

/-- **How a step fails**: the iterations are used up, the first state of the worklist cannot be
merged, or a state at its place cannot be executed. -/
theorem Reachable.step_failsOnly {p : Error → Prop} (h : Reachable context log run)
    (hlimit : p (.iterationLimit context.settings.maxIterations))
    (hmerge : ∀ incoming rest stored error, run.queue = incoming :: rest →
      run.states[incoming.ip]? = some stored → stored.merge incoming = .error error → p error)
    (hexecute : ∀ (incoming : State) (rest : List State) (base : Run) (state : State)
      (error : Error), run.queue = incoming :: rest → run.Intake base → state.ip = incoming.ip →
      base.states[state.ip]? = some state →
      context.execute base.findings state = .error error → p error) :
    FailsOnly (p ·.error) (run.step context) := by
  unfold Run.step
  split
  · exact .ok _
  next incoming rest hqueue =>
  refine FailsOnly.bind (tick_failsOnly _ hlimit) fun ticked hticked => ?_
  obtain ⟨-, rfl⟩ := tick_eq_ok_iff.1 hticked
  refine FailsOnly.bind ?_ fun _ _ => .pure _
  exact h.arrive_failsOnly hqueue (fun stored error => hmerge incoming rest stored error hqueue)
    fun base state error => hexecute incoming rest base state error hqueue

/-- A step fails in one of the listed ways. -/
lemma Reachable.step_raises (h : Reachable context log run) :
    FailsOnly (run.Raises context ·.error) (run.step context) :=
  h.step_failsOnly .limit
    (fun _ _ _ _ hqueue hstored hmerge => .merge (hqueue ▸ List.mem_cons_self) hstored hmerge)
    fun _ _ _ _ _ _ hintake _ hstate hexecute => .execution hintake hstate hexecute

/-- **How one more execution fails**: the iterations are used up, or the stored state cannot be
executed. -/
theorem Reachable.recheck_failsOnly {p : Error → Prop} (h : Reachable context log run)
    (offset : Offset) (hlimit : p (.iterationLimit context.settings.maxIterations))
    (hexecute : ∀ state error, state.ip = offset → run.states[offset]? = some state →
      context.execute run.findings state = .error error → p error) :
    FailsOnly (p ·.error) (run.recheck context offset) := by
  refine FailsOnly.bind (tick_failsOnly _ hlimit) fun ticked hticked => ?_
  obtain ⟨-, rfl⟩ := tick_eq_ok_iff.1 hticked
  split
  · exact .pure _
  next state hstate =>
  obtain rfl := ((h.traced.offsets offset).executed state hstate).1
  refine FailsOnly.bind (attempt_failsOnly _ fun error => hexecute state error rfl hstate)
    fun (finding, effects) hfound => ?_
  dsimp only
  split
  · rw [h.commit_eq_ok .tick hstate (attempt_eq_ok_iff.1 hfound)]
    exact .ok _
  · exact .pure _

/-- One more execution of a stored state fails in one of the listed ways. -/
lemma Reachable.recheck_raises (h : Reachable context log run) (offset : Offset) :
    FailsOnly (run.Raises context ·.error) (run.recheck context offset) := by
  refine h.recheck_failsOnly offset .limit fun state error hip hstate hexecute => ?_
  subst hip
  exact .execution .tick hstate hexecute

/-- **How a revalidation fails**: like one of the moves it consists of. -/
theorem Reachable.revalidate_raises (h : Reachable context log run) :
    FailsOnly (fun aborted => ∃ later, Reachable context log later ∧
      later.Raises context aborted.error) (run.revalidate context) :=
  recheckAll_failsOnly (fun later offset hlater => (hlater.recheck_raises offset).mono
    fun _ hraises => ⟨later, hlater, hraises⟩) h _ _

end Run

/-- **How an analysis fails**: like one of its moves. -/
theorem Context.infer_raises (context : Context) (log : Log) :
    FailsOnly (fun error => ∃ log run, Run.Reachable context log run ∧ run.Raises context error)
      (context.infer log).2 :=
  infer_failsOnly ⟨log, _, .seed, .limit⟩
    (fun log run hrun => hrun.step_raises.mono fun _ hraises => ⟨log, run, hrun, hraises⟩)
    (fun log run offset hrun => (hrun.recheck_raises offset).mono
      fun _ hraises => ⟨log, run, hrun, hraises⟩) log

/-! ## Instructions are not redecoded -/

/-- An instruction was decoded a second time with another result. -/
def Error.IsRedecoding (error : Error) : Prop :=
  ∃ offset opcode operand known knownOperand,
    error = .inconsistent offset (.redecoded opcode operand known knownOperand)

/-- No execution blames a second decoding. -/
lemma Error.Arises.not_isRedecoding {evaluator : Evaluator} {offset : Offset}
    {stack : List Provenance} {error : Error} (h : error.Arises evaluator offset stack) :
    ¬ error.IsRedecoding := by
  rintro ⟨_, _, _, _, _, rfl⟩
  cases h with
  | evaluation _ hresolve =>
    obtain ⟨_, _, herror, -⟩ := evaluator.resolve_fails _ _ _ hresolve
    cases herror

namespace Run

variable {context : Context} {log : Log} {run next earlier later : Run}

/-- No move of an analysis blames a second decoding. -/
lemma Raises.not_isRedecoding {error : Error} (h : run.Raises context error) :
    ¬ error.IsRedecoding := by
  cases h with
  | limit =>
    rintro ⟨_, _, _, _, _, herror⟩
    cases herror
  | @merge incoming stored error _ _ hmerge =>
    refine State.merge_failsOnly (p := (¬ ·.IsRedecoding)) ?_ ?_ incoming error hmerge
    · rintro _ _ ⟨_, _, _, _, _, herror⟩
      cases herror
    · rintro _ _ ⟨_, _, _, _, _, herror⟩
      cases herror
  | execution _ _ hexecute =>
    exact (context.execute_arises _ _ _ hexecute).not_isRedecoding

/-! ## Turn after turn -/

/-- A turn of an analysis: a step of the worklist, or a revalidation. -/
inductive Turn (context : Context) (run : Run) : Run → Prop
  | step {next : Run} : run.step context = .ok (some next) → Turn context run next
  | revalidate {next : Run} {changed : Bool} :
      run.revalidate context = .ok (changed, next) → Turn context run next

/-- Executing all stored states once more is a sequence of moves. -/
lemma recheckAll_proceeds {offsets : List Offset} {changed changed' : Bool}
    (h : run.recheckAll context changed offsets = .ok (changed', next)) :
    Relation.ReflTransGen (Proceeds context) run next := by
  induction offsets generalizing run changed with
  | nil =>
    obtain ⟨-, rfl⟩ := Prod.mk.inj (Except.ok.inj h)
    exact .refl
  | cons offset rest ih =>
    simp only [recheckAll, bind_eq_ok_iff, Prod.exists] at h
    obtain ⟨stale, middle, hstale, h⟩ := h
    exact (ih h).head (.recheck hstale)

/-- Turns are made of moves. -/
lemma proceeds_of_turns (h : Relation.ReflTransGen (Turn context) earlier later) :
    Relation.ReflTransGen (Proceeds context) earlier later := by
  induction h with
  | refl => exact .refl
  | tail _ hturn ih =>
    cases hturn with
    | step hstep => exact ih.tail (.step hstep)
    | revalidate hrevalidate => exact ih.trans (recheckAll_proceeds hrevalidate)

/-- Emptying the worklist takes steps. -/
lemma turns_of_drainWithin {rounds : Nat} (h : run.drainWithin context rounds = .ok next) :
    Relation.ReflTransGen (Turn context) run next := by
  induction rounds generalizing run with
  | zero => simp [drainWithin, abort] at h
  | succ rounds ih =>
    simp only [drainWithin, bind_eq_ok_iff] at h
    obtain ⟨step?, hstep, h⟩ := h
    cases step? with
    | none =>
      obtain rfl := pure_eq_ok_iff.1 h
      exact .refl
    | some middle => exact (ih h).head (.step hstep)

/-- **Turn after turn, a run takes nothing back, and no instruction is redecoded.**  Take any run
that an analysis can be brought to by steps and revalidations, and any run that it can be brought to
from there.  The later run knows all that the earlier one knew.  Its findings are those of the
states that it stores, at the same offsets.  And neither its next step nor its next revalidation
fails because an instruction was decoded a second time with another result; no analysis does. -/
theorem turns_grow (hearlier : Relation.ReflTransGen (Turn context)
      (seed context.subject.offset context.entryKey log) earlier)
    (hlater : Relation.ReflTransGen (Turn context) earlier later) :
    earlier.Grows later ∧
    (∀ offset : Offset, later.findings[offset]?.map (·.state) = later.states[offset]?) ∧
    FailsOnly (¬ ·.error.IsRedecoding) (later.step context) ∧
    FailsOnly (¬ ·.error.IsRedecoding) (later.revalidate context) ∧
    FailsOnly (¬ ·.IsRedecoding) (context.infer log).2 := by
  have hseed : Reachable context log (seed context.subject.offset context.entryKey log) := .seed
  obtain ⟨hreachable, -⟩ := hseed.grows (proceeds_of_turns hearlier)
  obtain ⟨hlater, hgrows⟩ := hreachable.grows (proceeds_of_turns hlater)
  refine ⟨hgrows, hlater.traced.state_eq, ?_, ?_, ?_⟩
  · exact hlater.step_raises.mono fun _ hraises => hraises.not_isRedecoding
  · exact hlater.revalidate_raises.mono fun _ ⟨_, _, hraises⟩ => hraises.not_isRedecoding
  · exact (context.infer_raises log).mono fun _ ⟨_, _, _, hraises⟩ => hraises.not_isRedecoding

/-- The jump through the register that is overwritten goes to 0 when the worklist is empty for the
first time.  A revalidation finds that it goes to 47, and the steps after it reach that place.  The
analysis of 0 is kept. -/
theorem turns_grow_overwritten : ∃ earlier later : Run,
    Relation.ReflTransGen (Turn .overwritten) (seed 8 0 {}) earlier ∧
    Relation.ReflTransGen (Turn .overwritten) earlier later ∧ earlier.Grows later ∧
    (earlier.findings[(45 : Offset)]?.map (·.targets), earlier.headers.toList)
      = (some [0], [0, 8, 22, 33]) ∧
    (later.findings[(45 : Offset)]?.map (·.targets), later.headers.toList)
      = (some [47], [0, 8, 22, 33, 47]) := by
  obtain ⟨earlier, hdrain, hjump, hrest⟩ : ∃ earlier : Run,
      (seed 8 0 {}).drain .overwritten = .ok earlier ∧
      (earlier.findings[(45 : Offset)]?.map (·.targets), earlier.headers.toList)
        = (some [0], [0, 8, 22, 33]) ∧
      ((earlier.revalidate .overwritten).toOption.any fun checked =>
        (checked.2.drain .overwritten).toOption.any fun later => decide
          ((later.findings[(45 : Offset)]?.map (·.targets), later.headers.toList)
            = (some [47], [0, 8, 22, 33, 47]))) = true :=
    exists_eq_ok (by decide +kernel)
  obtain ⟨⟨changed, checked⟩, hrevalidate, hdrain'⟩ := exists_eq_ok
    (p := fun checked : Bool × Run =>
      ((checked.2.drain .overwritten).toOption.any fun later => decide
        ((later.findings[(45 : Offset)]?.map (·.targets), later.headers.toList)
          = (some [47], [0, 8, 22, 33, 47]))) = true) (by simpa using hrest)
  obtain ⟨later, hlater, hjump'⟩ := exists_eq_ok hdrain'
  have hearlier := turns_of_drainWithin hdrain
  have hturns := (turns_of_drainWithin hlater).head (.revalidate hrevalidate)
  exact ⟨earlier, later, hearlier, hturns,
    (turns_grow hearlier hturns).1, hjump, hjump'⟩

end Run

end KeyedVM
