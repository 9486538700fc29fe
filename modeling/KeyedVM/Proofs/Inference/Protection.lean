import KeyedVM.Proofs.Inference.Agreement
import KeyedVM.Proofs.Inference.Nesting

set_option relaxedAutoImplicit false
set_option autoImplicit false

/-!
# Protected regions at the end of an analysis

An analysis ends when executing the stored states once more finds the recorded meanings.  The entry
of a protected region has no meaning: what it evaluates, the kind of the handler, the filter or the
caught type, and the handler, is in the region that it opens.  So the last executions of a `TRY` can
open another region than the one in the result, and the analysis ends all the same.

If the region is the one in the result, then everything else is final too: the region determines
how many slots the `TRY` takes, hence its effects.

## Main results

* `KeyedVM.Context.execute_determined` — the meaning and the region determine an execution;
* `KeyedVM.Run.Fenced.region_mem` — what the recorded execution of a `TRY` opened is in the result;
* `KeyedVM.Context.infer_protects` — the entries of protected regions in the result of an analysis;
* `KeyedVM.Context.infer_misses_handler` — a `TRY` can open another region than the one in the
  result.
-/

namespace KeyedVM

namespace Context

variable {context : Context} {findings findings' : Findings} {state : State}

/-! ## What a region determines -/

/-- The region that an entry opens determines the effects of the entry: its kind says which operands
are taken. -/
lemma enter_unique {evaluator evaluator' : Evaluator} {t : Transfer} {e e' : Effects}
    (h : context.enter evaluator t = .ok e) (h' : context.enter evaluator' t = .ok e')
    (hregion : e.region? = e'.region?) : e = e' := by
  obtain ⟨_, kinded, argued, u, region, hkinded, -, hargued, hu, -, rfl⟩ := enter_cases h
  obtain ⟨_, kinded', argued', u', region', hkinded', -, hargued', hu', -, rfl⟩ := enter_cases h'
  obtain rfl : region = region' := Option.some.inj hregion
  obtain rfl := Transfer.resolveArgument_unique hkinded hkinded'
  have hsame : argued = argued' := by
    rcases hargued with ⟨hkind, _, _, hargued⟩ | ⟨hkind, rfl⟩ <;>
      rcases hargued' with ⟨hkind', _, _, hargued'⟩ | ⟨hkind', rfl⟩
    · exact Transfer.resolveArgument_unique hargued hargued'
    · cases hk : region.kind <;> simp [hk] at hkind hkind'
    · cases hk : region.kind <;> simp [hk] at hkind hkind'
    · rfl
  subst hsame
  rw [Transfer.resolveArgument_unique hu hu']

/-- **The meaning and the region determine an execution**: two executions of one state that find the
same meaning and open the same region, or none, agree on everything. -/
theorem execute_determined {f f' : Finding} {e e' : Effects}
    (h : context.execute findings state = .ok (f, e))
    (h' : context.execute findings' state = .ok (f', e')) (hm : f.meaning? = f'.meaning?)
    (hregion : e.region? = e'.region?) : f = f' ∧ e = e' := by
  by_cases hopcode : f.opcode = .enter
  · obtain ⟨instruction, key, hd, ht, rfl⟩ := execute_eq_ok_iff.1 h
    obtain ⟨instruction', key', hd', ht', rfl⟩ := execute_eq_ok_iff.1 h'
    obtain ⟨rfl, rfl⟩ : instruction = instruction' ∧ key = key' := by
      simpa using hd.symm.trans hd'
    have hflow : instruction.flow = .enter := Opcode.flow_eq_enter_iff.2 hopcode
    simp only [transfer, hflow] at ht ht'
    obtain rfl := enter_unique ht ht' hregion
    exact ⟨rfl, rfl⟩
  · exact execute_unique h h' hm hopcode

/-- The entry of a protected region opens a region, at its own place. -/
lemma exists_opened {finding : Finding} {effects : Effects}
    (h : context.execute findings state = .ok (finding, effects))
    (hopcode : finding.opcode = .enter) :
    ∃ region, effects.region? = some region ∧ region.opener = state.ip := by
  obtain ⟨hopens, hregion⟩ := execute_opens h
  obtain ⟨region, hopened⟩ := hopens hopcode
  exact ⟨region, hopened, (hregion region hopened).2.1.trans (Run.offset_of_execute h)⟩

end Context

/-! ## The end of an analysis -/

namespace Run

variable {context : Context} {log : Log} {run : Run}

/-- At the end of an analysis, what the recorded execution of a `TRY` opened is in the result.

**Proof sketch.** The state inside the region was met, so the region is open at the instruction
behind the `TRY`; and whatever is open is in the result. -/
lemma Fenced.region_mem (h : run.Fenced) (htraced : run.Traced context) (hqueue : run.queue = [])
    {findings : Findings} {state : State} {finding : Finding} {effects : Effects} {region : Region}
    (hexecute : context.execute findings state = .ok (finding, effects))
    (hmet : ∀ successor ∈ effects.successors, run.Met successor)
    (hregion : effects.region? = some region) : region ∈ run.regions := by
  obtain ⟨-, -, -, inside, hinside, -, hregions⟩ :=
    (Context.execute_opens hexecute).2 region hregion
  obtain ⟨target, htarget, hcovers⟩ := (hmet inside hinside).covered htraced hqueue
  obtain ⟨-, hstate, -⟩ := htraced.exists_execution htarget
  have hnests := h.nested target.state (Or.inr ⟨_, hstate⟩)
  rw [hcovers.regions, hregions] at hnests
  cases hnests with
  | cons hguards _ => exact hguards.listed

/-- At the end of an analysis, the recorded execution of a `TRY` opened a region of the result, and
what it led to is covered. -/
lemma Reachable.exists_protected (h : Reachable context log run) (hqueue : run.queue = [])
    {offset : Offset} {finding : Finding} (hfinding : run.findings[offset]? = some finding)
    (hopcode : finding.opcode = .enter) :
    ∃ findings effects region,
      context.execute findings finding.state = .ok (finding, effects) ∧
      effects.region? = some region ∧ region ∈ run.regions ∧ region.opener = offset ∧
      ∀ successor ∈ effects.successors, run.findings.Covers successor := by
  obtain ⟨hip, -, findings, effects, hexecute, hawaited⟩ := h.traced.exists_execution hfinding
  have hmet : ∀ successor ∈ effects.successors, run.Met successor :=
    fun successor hmem => (hawaited successor hmem).met
  obtain ⟨region, hregion, hopener⟩ := Context.exists_opened hexecute hopcode
  exact ⟨findings, effects, region, hexecute, hregion,
    h.fenced.region_mem h.traced hqueue hexecute hmet hregion, hopener.trans hip,
    fun successor hmem => (hmet successor hmem).covered h.traced hqueue⟩

end Run

namespace Context

variable {context : Context} {log : Log} {inference : Inference}

/-- **The entries of protected regions in the result of an analysis.**  The state of every `TRY` was
executed, on some findings, with the recorded outcome: it opened a region of the result, and each
state this led to is covered by the state of an instruction of the result.  Executing the state once
more on the final findings opens a region at the same place.  If that is a region of the result,
then the outcome is the recorded one, so that the states it leads to are covered too. -/
theorem infer_protects (h : (context.infer log).2 = .ok inference) {offset : Offset}
    {finding : Finding} (hfinding : inference.findings[offset]? = some finding)
    (hopcode : finding.opcode = .enter) :
    (∃ findings effects region,
      context.execute findings finding.state = .ok (finding, effects) ∧
      effects.region? = some region ∧ region ∈ inference.regions ∧ region.opener = offset ∧
      ∀ successor ∈ effects.successors, inference.findings.Covers successor) ∧
    ∃ last effects region,
      context.execute inference.findings finding.state = .ok (last, effects) ∧
      last.toInstruction = finding.toInstruction ∧
      effects.region? = some region ∧ region.opener = offset ∧
      (region ∈ inference.regions → last = finding ∧
        ∀ successor ∈ effects.successors, inference.findings.Covers successor) := by
  obtain ⟨run, rfl, hreachable, hqueue, hsettled, -⟩ := infer_eq_ok h
  have hfinding : run.findings[offset]? = some finding := hfinding
  have htraced := hreachable.traced
  have hrecorded := hreachable.exists_protected hqueue hfinding hopcode
  refine ⟨hrecorded, ?_⟩
  obtain ⟨findings, effects, region, hexecute, hregion, hmem, hopener, hcovered⟩ := hrecorded
  obtain ⟨hip, hstate, -⟩ := htraced.exists_execution hfinding
  obtain ⟨last, effects', hlast, hmeaning⟩ := hsettled offset finding.state hstate
  rw [hfinding, Option.map_some, Option.some.injEq] at hmeaning
  have hsame := (execute_agrees hlast hexecute).instruction
  obtain ⟨region', hregion', hopener'⟩ := exists_opened hlast (by rw [hsame, hopcode])
  rw [hip] at hopener'
  refine ⟨last, effects', region', hlast, hsame, hregion', hopener', fun hmem' => ?_⟩
  obtain rfl := hreachable.fenced.eq_of_opener_eq htraced hqueue hmem hmem'
    (hopener.trans hopener'.symm)
  obtain ⟨rfl, rfl⟩ :=
    execute_determined hexecute hlast hmeaning (hregion.trans hregion'.symm)
  exact ⟨rfl, hcovered⟩

/-- Where a region lies inside another one, executing the inner `TRY` once more opens the region of
the result again, and its handler is covered. -/
theorem infer_protects_guardedTwice : ∃ inference finding effects region,
    (guardedTwice.infer {}).2 = .ok inference ∧ inference.findings[(26 : Offset)]? = some finding ∧
    guardedTwice.execute inference.findings finding.state = .ok (finding, effects) ∧
    effects.region? = some region ∧ region ∈ inference.regions ∧ region.handler = 52 ∧
    ∀ successor ∈ effects.successors, inference.findings.Covers successor := by
  obtain ⟨inference, hinfer, htry⟩ : ∃ inference, (guardedTwice.infer {}).2 = .ok inference ∧
      (inference.findings[(26 : Offset)]?.any fun finding => finding.opcode = .enter ∧
        ((guardedTwice.execute inference.findings finding.state).toOption.any fun last =>
          last.2.region?.any fun region => region ∈ inference.regions ∧ region.handler = 52)) :=
    exists_eq_ok (by decide +kernel)
  obtain ⟨finding, hfinding, htry⟩ := (Option.any_eq_true _ _).1 htry
  obtain ⟨hopcode, hopened⟩ := of_decide_eq_true htry
  obtain ⟨-, last, effects, region, hexecute, -, hregion, -, hfinal⟩ :=
    infer_protects hinfer hfinding hopcode
  simp only [hexecute, Except.toOption, hregion, Option.any_some, decide_eq_true_eq] at hopened
  obtain ⟨hmem, hhandler⟩ := hopened
  obtain ⟨rfl, hcovered⟩ := hfinal hmem
  exact ⟨inference, last, effects, region, hinfer, hfinding, hexecute, hregion, hmem, hhandler,
    hcovered⟩

/-- **A `TRY` can open another region than the one in the result.**  The handler of the `TRY` at 62
comes from the register that is pushed at 44.  When the `TRY` was executed, only one path to 44 was
known, and the entry value of the register gave the handler 0.  The path on which 72 is written to
the register leaves the state of the `TRY` as it is, so only its execution on the final findings
shows that the handler is 72.  No region of the result has that handler, and there is no instruction
at it. -/
theorem infer_misses_handler : ∃ inference finding last effects region successor,
    (movedHandler.infer {}).2 = .ok inference ∧
    inference.findings[(62 : Offset)]? = some finding ∧ finding.opcode = .enter ∧
    movedHandler.execute inference.findings finding.state = .ok (last, effects) ∧
    effects.region? = some region ∧ region.handler = 72 ∧ region ∉ inference.regions ∧
    successor ∈ effects.successors ∧ successor.ip = 72 ∧
    inference.findings[successor.ip]? = none := by
  obtain ⟨inference, hinfer, htry⟩ : ∃ inference, (movedHandler.infer {}).2 = .ok inference ∧
      (inference.findings[(62 : Offset)]?.any fun finding => finding.opcode = .enter ∧
        ((movedHandler.execute inference.findings finding.state).toOption.any fun last =>
          (last.2.region?.any fun region => region.handler = 72 ∧ region ∉ inference.regions) ∧
          last.2.successors.any fun successor => successor.ip = 72 ∧
            inference.findings[successor.ip]?.isNone)) :=
    exists_eq_ok (by decide +kernel)
  obtain ⟨finding, hfinding, htry⟩ := (Option.any_eq_true _ _).1 htry
  obtain ⟨hopcode, hlast⟩ := of_decide_eq_true htry
  obtain ⟨⟨last, effects⟩, hexecute, hopened, hfollowed⟩ := exists_eq_ok hlast
  obtain ⟨region, hregion, hmoved⟩ := (Option.any_eq_true _ _).1 hopened
  obtain ⟨hhandler, hmissing⟩ := of_decide_eq_true hmoved
  obtain ⟨successor, hmem, hstart⟩ := List.any_eq_true.1 hfollowed
  obtain ⟨hip, hnone⟩ := of_decide_eq_true hstart
  exact ⟨inference, finding, last, effects, region, successor, hinfer, hfinding, hopcode, hexecute,
    hregion, hhandler, hmissing, hmem, hip, Option.isNone_iff_eq_none.1 hnone⟩

end Context

end KeyedVM
