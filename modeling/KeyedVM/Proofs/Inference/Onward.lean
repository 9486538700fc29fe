import KeyedVM.Proofs.Inference.Agreement
import KeyedVM.Proofs.Inference.Callees
import KeyedVM.Proofs.Inference.Succession

set_option relaxedAutoImplicit false
set_option autoImplicit false

/-!
# Where execution goes on

An instruction that does not end its path is followed by the one behind it.  This is told from its
opcode, and for a helper call from its meaning; the states that follow are never looked at.  The two
agree: jumps, returns and the helpers that exit or throw are the instructions that do not go on, and
every other one does, unless it is a call of a function whose exit key is not known yet.

## Main definitions

* `KeyedVM.Effects.Waits` — a path ends because an exit key is not known.

## Main results

* `KeyedVM.Finding.endsPath_iff` — which instructions end their path;
* `KeyedVM.Context.targets_of_execute` — only jumps have targets;
* `KeyedVM.Context.execute_onward` — where control runs on, execution goes on or waits;
* `KeyedVM.Context.exists_onward` — the same for the instructions of a result.
-/

namespace KeyedVM

namespace Effects

/-- If there are no targets and no region is opened, then execution goes on behind the instruction
or not at all. -/
lemma Outlined.ip_eq_next {instruction : Instruction} {effects : Effects} {successor : State}
    (h : effects.Outlined instruction) (htargets : effects.targets = [])
    (hregion : effects.region? = none) (hmem : successor ∈ effects.successors) :
    successor.ip = instruction.next := by
  obtain ⟨-, hnext⟩ | htarget | ⟨region, hopened, -⟩ := h.successors successor hmem
  · exact hnext
  · rw [htargets] at htarget
    exact absurd htarget List.not_mem_nil
  · rw [hregion] at hopened
    cases hopened

/-- The path ends at a call, because the exit key of the called function is not known. -/
def Waits (effects : Effects) : Prop :=
  ∃ site id, effects.meaning? = some (.call site) ∧ site.exportId? = some id ∧
    effects.waitingFor? = some id

end Effects

/-- Exactly jumps and returns leave their path. -/
lemma Opcode.endsPath_iff {opcode : Opcode} : opcode.endsPath = true ↔
    opcode.flow ∈ [Flow.jump, .conditionalJump, .switch, .ret] := by
  unfold endsPath
  cases opcode.flow <;> decide

/-- The helpers that end a path are the one that exits and the one that throws. -/
lemma HelperCall.endsPath_iff {call : HelperCall} :
    call.endsPath = true ↔ call ∈ [HelperCall.exit, .throwing] := by
  cases call <;> decide

/-- Exactly jumps, returns and the helpers that exit or throw end their path. -/
lemma Finding.endsPath_iff {finding : Finding} : finding.endsPath = true ↔
    finding.flow ∈ [Flow.jump, .conditionalJump, .switch, .ret] ∨
      ∃ call ∈ [HelperCall.exit, .throwing], ∃ reference? raw?,
        finding.meaning? = some (.helper call reference? raw?) := by
  rw [endsPath, Bool.or_eq_true, Opcode.endsPath_iff]
  refine or_congr Iff.rfl ⟨fun hends => ?_, ?_⟩
  · split at hends
    · next call reference? raw? hmeaning =>
      exact ⟨call, HelperCall.endsPath_iff.1 hends, reference?, raw?, hmeaning⟩
    · cases hends
  · rintro ⟨call, hcall, reference?, raw?, hmeaning⟩
    rw [hmeaning]
    exact HelperCall.endsPath_iff.2 hcall

/-- A helper that does not come back has no meaning but its name. -/
lemma Meaning.eq_helper_of_endsPath {meaning : Meaning} {call : HelperCall}
    (h : meaning.helper? = some call) (hends : call.endsPath = true) :
    ∃ reference? raw?, meaning = .helper call reference? raw? := by
  cases meaning with
  | helper name reference? raw? =>
    obtain rfl := Option.some.inj h
    exact ⟨reference?, raw?, rfl⟩
  | jump | call => cases h
  | box | cast | external | loadFunction =>
    obtain rfl := Option.some.inj h
    cases hends

namespace Context

variable {context : Context} {evaluator : Evaluator} {findings : Findings}
  {instruction : Instruction} {state : State} {key : Key} {t : Transfer} {finding : Finding}
  {effects : Effects}

/-- Only jumps have targets. -/
lemma transfer_targets (h : context.transfer findings instruction state key = .ok effects)
    (hjump : instruction.flow ∉ [Flow.jump, .conditionalJump, .switch]) : effects.targets = [] := by
  unfold transfer at h
  cases hflow : instruction.flow <;> simp only [hflow] at h
  case jump | conditionalJump | switch => simp [hflow] at hjump
  case sequential =>
    simp only [sequential, bind_eq_ok_iff, pure_eq_ok_iff] at h
    obtain ⟨_, -, rfl⟩ := h
    rfl
  case call =>
    obtain ⟨_, site, -, -, hmeaning, -⟩ := call_cases h
    simp [Effects.targets, hmeaning, Meaning.targets?]
  case ret =>
    simp only [ret, bind_eq_ok_iff, Prod.exists, pure_eq_ok_iff] at h
    obtain ⟨_, _, -, rfl⟩ := h
    rfl
  case enter =>
    obtain ⟨_, _, -, -, rfl⟩ := enter_exchanges h
    rfl
  case leave =>
    obtain ⟨_, _, _, -, -, rfl⟩ := leave_cases h
    rfl
  case helper =>
    simp only [helper, bind_eq_ok_iff, Prod.exists, pure_eq_ok_iff] at h
    obtain ⟨_, meaning, _, hcalled, rfl⟩ := h
    obtain ⟨-, hhelper⟩ := Transfer.helperCall_exchanges hcalled
    simp [Effects.targets, Meaning.targets?_eq_none hhelper]

/-- An instruction that has been executed and is not a jump has no targets. -/
lemma targets_of_execute (h : context.execute findings state = .ok (finding, effects))
    (hjump : finding.flow ∉ [Flow.jump, .conditionalJump, .switch]) : finding.targets = [] := by
  obtain ⟨instruction, key, -, htransfer, rfl⟩ := execute_eq_ok_iff.1 h
  exact transfer_targets htransfer hjump

/-- A call goes on or waits. -/
lemma call_goesOn (h : context.call evaluator t = .ok effects) :
    effects.successors ≠ [] ∨ effects.Waits := by
  simp only [call, bind_eq_ok_iff, Prod.exists] at h
  obtain ⟨address, resolved, -, h⟩ := h
  split at h
  · obtain rfl := pure_eq_ok_iff.1 h
    exact Or.inl (List.cons_ne_nil _ _)
  · next callee _ =>
    simp only [bind_eq_ok_iff, pure_eq_ok_iff] at h
    obtain ⟨popped, -, rfl⟩ := h
    cases hknown : callee.exitKey? with
    | none => exact Or.inr ⟨_, callee.id, rfl, rfl, rfl⟩
    | some key => exact Or.inl (List.cons_ne_nil _ _)

/-- An instruction that is no jump, no return and no helper that exits or throws goes on, or is a
call and waits. -/
lemma transfer_goesOn (h : context.transfer findings instruction state key = .ok effects)
    (hpath : instruction.flow ∉ [Flow.jump, .conditionalJump, .switch, .ret])
    (hback : ¬ ∃ call ∈ [HelperCall.exit, .throwing], ∃ reference? raw?,
      effects.meaning? = some (.helper call reference? raw?)) :
    effects.successors ≠ [] ∨ instruction.flow = .call ∧ effects.Waits := by
  unfold transfer at h
  cases hflow : instruction.flow <;> simp only [hflow] at h
  case jump | conditionalJump | switch | ret => simp [hflow] at hpath
  case call => exact (call_goesOn h).imp_right fun hwaits => ⟨rfl, hwaits⟩
  case sequential =>
    simp only [sequential, bind_eq_ok_iff, pure_eq_ok_iff] at h
    obtain ⟨_, -, rfl⟩ := h
    exact Or.inl (List.cons_ne_nil _ _)
  case enter =>
    obtain ⟨_, _, -, -, rfl⟩ := enter_exchanges h
    exact Or.inl (List.append_ne_nil_of_right_ne_nil _ (List.cons_ne_nil _ _))
  case leave =>
    obtain ⟨_, _, _, -, -, rfl⟩ := leave_cases h
    exact Or.inl (List.cons_ne_nil _ _)
  case helper =>
    simp only [helper, bind_eq_ok_iff, Prod.exists, pure_eq_ok_iff] at h
    obtain ⟨call, meaning, _, hcalled, rfl⟩ := h
    obtain ⟨-, hnamed⟩ := Transfer.helperCall_exchanges hcalled
    have hcomes : ¬ call.endsPath = true := by
      intro hends
      obtain ⟨reference?, raw?, rfl⟩ := Meaning.eq_helper_of_endsPath hnamed hends
      exact hback ⟨call, HelperCall.endsPath_iff.1 hends, reference?, raw?, rfl⟩
    rw [if_neg hcomes]
    exact Or.inl (List.cons_ne_nil _ _)

/-- **Where control runs on behind an instruction, execution goes on there**, unless it waits for
the exit key of a called function. -/
theorem execute_onward (h : context.execute findings state = .ok (finding, effects))
    (hpath : finding.endsPath = false) :
    (∃ successor ∈ effects.successors, successor.ip = finding.next) ∨
      finding.opcode = .call ∧ effects.Waits := by
  by_cases hopcode : finding.opcode = .enter
  · obtain ⟨hopens, hinside⟩ := execute_opens h
    obtain ⟨region, hregion⟩ := hopens hopcode
    obtain ⟨-, -, -, inside, hmem, hnext, -⟩ := hinside region hregion
    exact Or.inl ⟨inside, hmem, hnext⟩
  · obtain ⟨instruction, key, -, htransfer, rfl⟩ := execute_eq_ok_iff.1 h
    obtain ⟨hflow, hback⟩ := not_or.1 (mt Finding.endsPath_iff.2 (Bool.eq_false_iff.1 hpath))
    have htargets : effects.targets = [] := transfer_targets htransfer fun hjump =>
      hflow (List.mem_append_left [Flow.ret] hjump)
    have hregion : effects.region? = none := (transfer_plain htransfer).2 fun hflow =>
      hopcode (Opcode.flow_eq_enter_iff.1 hflow)
    rcases transfer_goesOn htransfer hflow hback with hgoes | ⟨hcall, hwaits⟩
    · obtain ⟨successor, hmem⟩ := List.exists_mem_of_ne_nil _ hgoes
      have hnext := (transfer_outlined htransfer).ip_eq_next htargets hregion hmem
      exact Or.inl ⟨successor, hmem, hnext⟩
    · exact Or.inr ⟨Opcode.flow_eq_call_iff.1 hcall, hwaits⟩

variable {log : Log} {inference : Inference}

/-- **Where control runs on behind an instruction of a result**, executing its state on the final
findings leads there, unless the instruction is a call of a function that the analysis waits for.

**Proof sketch.** At the end of an analysis the stored state can be executed on the final findings,
with the recorded meaning, so that the path goes on there as well.  If that execution waits, then
for a function without an exit key, and the recorded call of such a function is waited for. -/
lemma exists_onward (h : (context.infer log).2 = .ok inference) {offset : Offset}
    (hfinding : inference.findings[offset]? = some finding) (hpath : finding.endsPath = false) :
    (∃ last effects successor,
      context.execute inference.findings finding.state = .ok (last, effects) ∧
      successor ∈ effects.successors ∧ successor.ip = finding.next) ∨
    finding.opcode = .call ∧ ∃ site id, finding.meaning? = some (.call site) ∧
      site.exportId? = some id ∧ id ∈ inference.waitingFor := by
  obtain ⟨run, rfl, hreachable, -, hsettled, -⟩ := infer_eq_ok h
  have hfinding : run.findings[offset]? = some finding := hfinding
  obtain ⟨-, hstate, _, _, hrecorded, -⟩ := hreachable.traced.exists_execution hfinding
  obtain ⟨last, effects, hlast, hmeaning⟩ := hsettled offset finding.state hstate
  rw [hfinding, Option.map_some, Option.some.injEq] at hmeaning
  have hsame : last.toInstruction = finding.toInstruction :=
    (execute_agrees hlast hrecorded).instruction
  have hends : last.endsPath = false := by
    rw [← hpath, Finding.endsPath, Finding.endsPath, hsame, hmeaning]
  rcases execute_onward hlast hends with ⟨successor, hmem, hip⟩ |
    ⟨hopcode, site, id, hcall, hid, hwaiting⟩
  · rw [hsame] at hip
    exact Or.inl ⟨last, effects, successor, hlast, hmem, hip⟩
  · obtain ⟨hkeyed, heffects⟩ := execute_keyed hlast
    rw [hsame] at hopcode
    have hcall : finding.meaning? = some (.call site) := hmeaning.trans (heffects.trans hcall)
    have hwaits := hreachable.waits.known offset finding hfinding site id hcall hid
    rw [hkeyed.waiting id hwaiting] at hwaits
    exact Or.inr ⟨hopcode, site, id, hcall, hid, hwaits.resolve_right (by decide)⟩

end Context

end KeyedVM
