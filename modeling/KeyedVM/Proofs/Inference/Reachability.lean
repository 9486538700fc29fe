import KeyedVM.Proofs.ByteTable.Sequential
import KeyedVM.Proofs.Inference.Charting
import KeyedVM.Proofs.Inference.Logging
import Mathlib.Logic.Relation

set_option relaxedAutoImplicit false
set_option autoImplicit false

/-!
# Which instructions can be reached

Whatever is recorded in the result of an analysis was reached from the entry, step by step: along
the targets of jumps, to the place behind an instruction that does not end its path, or from an
opener to the filter and the handler of its region.  The targets of a jump are those that it had
when the step was made, and each of them was reported.  Later the jump may be resolved to other
targets, which take the place of the earlier ones, while the instructions that were reached stay.
So the steps that the result itself allows need not lead to all of its instructions.

## Main definitions

* `KeyedVM.Inference.Leads` — a step that the result of an analysis allows;
* `KeyedVM.Context.Resolved` — a step along a target that was reported at some time;
* `KeyedVM.Run.Connected` — the invariant of a run.

## Main results

* `KeyedVM.Run.Reachable.connected` — the invariant holds along every analysis;
* `KeyedVM.Context.infer_reached` — every instruction is reached by these two kinds of steps;
* `KeyedVM.Context.infer_strands` — steps that the result allows do not suffice.
-/

namespace KeyedVM

open Relation (ReflTransGen)

/-- The targets of an instruction are those of the jump that it means. -/
lemma Finding.mem_targets_iff {finding : Finding} {target : Offset} : target ∈ finding.targets ↔
    ∃ targets, finding.meaning? = some (.jump targets) ∧ target ∈ targets := by
  unfold Finding.targets
  rcases finding.meaning? with _ | meaning
  · simp
  · cases meaning <;> simp [Meaning.targets?]

/-! ## Steps of the result -/

namespace Inference

/-- Where control may go on from an instruction, as far as the result of an analysis says: at the
targets of a jump, behind an instruction that does not end its path, and at the filter and the
handler of a region that is opened here. -/
def ways (inference : Inference) (finding : Finding) : List Offset :=
  finding.targets ++ (if finding.opcode.endsPath then [] else [finding.next])
    ++ (inference.regions.toList.filter (·.opener = finding.offset)).flatMap Region.entries

/-- An instruction that does not end its path leads behind itself. -/
lemma next_mem_ways {inference : Inference} {finding : Finding}
    (h : finding.opcode.endsPath = false) : finding.next ∈ inference.ways finding := by
  simp [ways, h]

/-- The opener of a region leads to the filter and the handler. -/
lemma entry_mem_ways {inference : Inference} {finding : Finding} {region : Region}
    {entry : Offset} (hregion : region ∈ inference.regions)
    (hopener : region.opener = finding.offset) (hentry : entry ∈ region.entries) :
    entry ∈ inference.ways finding := by
  refine List.mem_append_right _ (List.mem_flatMap.2 ⟨region, ?_, hentry⟩)
  exact List.mem_filter.2 ⟨Std.ExtTreeSet.mem_toList.2 hregion, decide_eq_true hopener⟩

/-- A step that the result of an analysis allows. -/
def Leads (inference : Inference) (source target : Offset) : Prop :=
  ∃ finding, inference.findings[source]? = some finding ∧ target ∈ inference.ways finding

/-- The places of the list lead only to each other.  This is a test that runs over the list, not a
statement about all places, of which there are too many to try. -/
def closed (inference : Inference) (within : List Offset) : Bool :=
  within.all fun source =>
    (inference.findings[source]?.elim [] inference.ways).all (within.contains ·)

/-- From a closed list no step leads away. -/
lemma Leads.mem_of_closed {inference : Inference} {source target : Offset} {within : List Offset}
    (h : inference.Leads source target) (hclosed : inference.closed within = true)
    (hsource : source ∈ within) : target ∈ within := by
  obtain ⟨finding, hfinding, htarget⟩ := h
  have hways := List.all_eq_true.1 hclosed source hsource
  rw [hfinding] at hways
  exact List.contains_iff_mem.1 (List.all_eq_true.1 hways target htarget)

/-- What lies outside a list of places that holds the entry and is closed under steps cannot be
reached. -/
lemma not_reflTransGen_leads {inference : Inference} {entry offset : Offset} {within : List Offset}
    (hclosed : inference.closed within = true) (hentry : entry ∈ within)
    (hoffset : offset ∉ within) : ¬ ReflTransGen inference.Leads entry offset := by
  intro hpath
  have hmem : offset ∈ within := by
    clear hoffset
    induction hpath with
    | refl => exact hentry
    | tail _ hstep ih => exact hstep.mem_of_closed hclosed ih
  exact hoffset hmem

end Inference

/-! ## Steps of a run -/

/-- The meaning that was resolved, if a notice is about one. -/
def Notice.resolved? : Notice → Option Meaning
  | .resolved _ meaning => some meaning
  | _ => none

namespace Context

/-- The report about the targets of a jump. -/
def resolution (context : Context) (offset : Offset) (opcode : Opcode) (targets : List Offset) :
    Diagnostic where
  severity := .debug
  topic := .inference
  notice := .resolved opcode (.jump targets)
  exportId? := some context.subject.id
  offset? := some offset

/-- A step along a target that was reported at some time. -/
def Resolved (context : Context) (source target : Offset) : Prop :=
  ∃ opcode targets, context.resolution source opcode targets ∈ context.reports ∧
    target ∈ targets

end Context

namespace Run

variable {context : Context} {log : Log} {run base : Run}

/-- A target was reported, if reports are kept. -/
def Reports (context : Context) (run : Run) (source target : Offset) : Prop :=
  ∃ opcode targets, run.log.Keeps (context.resolution source opcode targets) ∧ target ∈ targets

/-- What was reported stays reported. -/
lemma Reports.mono {source target : Offset} (h : run.Reports context source target)
    (hlog : base.log.Extends run.log) : base.Reports context source target := by
  obtain ⟨opcode, targets, hkeeps, hmem⟩ := h
  exact ⟨opcode, targets, hlog.keeps hkeeps, hmem⟩

/-- A step that a run has made: to the place behind a recorded instruction that does not end its
path, along a target that was reported, or to the filter or the handler of a region. -/
def Takes (context : Context) (run : Run) (source target : Offset) : Prop :=
  (∃ finding, run.findings[source]? = some finding ∧ finding.opcode.endsPath = false ∧
    target = finding.next) ∨
  run.Reports context source target ∨
  ∃ region ∈ run.regions, region.opener = source ∧ target ∈ region.entries

/-- The invariant of a run: every instruction is recorded where it stands, every recorded target was
reported, and steps lead from the entry to every place that is on the worklist or has been
reached. -/
structure Connected (context : Context) (run : Run) : Prop where
  placed : ∀ (offset : Offset) (finding : Finding), run.findings[offset]? = some finding →
    finding.offset = offset
  reported : ∀ (offset : Offset) (finding : Finding), run.findings[offset]? = some finding →
    ∀ target ∈ finding.targets, run.Reports context offset target
  paths : ∀ offset, run.Visited offset →
    ReflTransGen (run.Takes context) context.subject.offset offset

/-- A place that is visited after something was taken in was visited before. -/
lemma Intake.visited {offset : Offset} (h : run.Intake base) (hvisited : base.Visited offset) :
    run.Visited offset := by
  have hkept : ∀ {incoming kept : State} {rest : List State}, run.queue = incoming :: rest →
      offset ∈ run.states.insert incoming.ip kept ∨ (∃ state ∈ rest, state.ip = offset) →
      run.Visited offset := by
    intro incoming kept rest hqueue hor
    rcases hor with hmem | ⟨state, hmem, hip⟩
    · rcases Std.ExtTreeMap.mem_insert.1 hmem with heq | hmem
      · refine Or.inr ⟨incoming, ?_, Std.LawfulEqOrd.eq_of_compare heq⟩
        rw [hqueue]
        exact List.mem_cons_self
      · exact Or.inl hmem
    · refine Or.inr ⟨state, ?_, hip⟩
      rw [hqueue]
      exact List.mem_cons_of_mem _ hmem
  cases h with
  | tick => exact hvisited
  | store hqueue _ => exact hkept hqueue hvisited
  | merge hqueue _ _ _ => exact hkept hqueue hvisited

/-- Taking a state from the worklist keeps the invariant. -/
lemma Connected.intake (h : run.Connected context) (hintake : run.Intake base) :
    base.Connected context := by
  have hlog := hintake.log_extends
  have hfindings : base.findings = run.findings := by rw [hintake.eq]
  have hregions : base.regions = run.regions := by rw [hintake.eq]
  refine ⟨fun offset finding hfinding => ?_, fun offset finding hfinding target htarget => ?_,
    fun offset hvisited => ?_⟩
  · exact h.placed offset finding (hfindings ▸ hfinding)
  · exact (h.reported offset finding (hfindings ▸ hfinding) target htarget).mono hlog
  · refine ReflTransGen.mono (fun source target htakes => ?_) _ _
      (h.paths offset (hintake.visited hvisited))
    rcases htakes with hnext | hreports | hregion
    · exact Or.inl (hfindings ▸ hnext)
    · exact Or.inr (Or.inl (hreports.mono hlog))
    · exact Or.inr (Or.inr (hregions ▸ hregion))

/-- The targets of a jump are reported when its execution is taken over, unless the jump was already
known to have them. -/
lemma absorb_reports {finding : Finding} {effects : Effects}
    (hknown : ∀ known, run.findings[finding.offset]? = some known →
      ∀ target ∈ known.targets, run.Reports context finding.offset target)
    {target : Offset} (htarget : target ∈ finding.targets) :
    (run.absorb context finding effects).Reports context finding.offset target := by
  obtain ⟨targets, hmeaning, hmem⟩ := Finding.mem_targets_iff.1 htarget
  by_cases hsame : (run.findings[finding.offset]?.bind (·.meaning?)) = some (.jump targets)
  · obtain ⟨known, hfinding, hjump⟩ := Option.bind_eq_some_iff.1 hsame
    have hold := hknown known hfinding target (Finding.mem_targets_iff.2 ⟨targets, hjump, hmem⟩)
    exact hold.mono (absorb_extends finding effects)
  · have hkept : (run.reportJump context finding run.findings[finding.offset]?).log.Keeps
        (context.resolution finding.offset finding.opcode targets) := by
      simp only [reportJump, hmeaning, if_neg hsame]
      intro henabled
      refine Log.mem_push ?_
      rwa [Log.enabled, (report_extends _ _ _).threshold] at henabled
    have hlog : (run.absorb context finding effects).log.Extends
        (run.reportJump context finding run.findings[finding.offset]?).log :=
      (recordWaiting_extends _ _).trans ((recordUnknownCallee_extends _ _).trans
        (recordReturn_extends _ _))
    exact ⟨finding.opcode, targets, hlog.keeps hkept, hmem⟩

/-- Taking over an execution keeps the steps that were made: an instruction that is executed again
stays what it is, and regions and reports are only added. -/
lemma Takes.absorb {finding : Finding} {effects : Effects} {source target : Offset}
    (h : run.Takes context source target) (hrun : run.Connected context)
    (hknown : ∀ known, run.findings[finding.offset]? = some known →
      known.opcode = finding.opcode ∧ known.operand = finding.operand) :
    (run.absorb context finding effects).Takes context source target := by
  rcases h with ⟨known, hsource, hends, hnext⟩ | hreports | ⟨region, hmem, hentry⟩
  · refine Or.inl ?_
    rw [absorb_findings, Std.ExtTreeMap.getElem?_insert]
    split
    · next heq =>
      obtain rfl := Std.LawfulEqOrd.eq_of_compare heq
      have hplace := hrun.placed finding.offset known hsource
      obtain ⟨hopcode, -⟩ := hknown known hsource
      refine ⟨finding, rfl, hopcode ▸ hends, ?_⟩
      rw [hnext, Instruction.next, Instruction.next, Instruction.size, Instruction.size, hplace,
        hopcode]
    · exact ⟨known, hsource, hends, hnext⟩
  · exact Or.inr (Or.inl (hreports.mono (absorb_extends finding effects)))
  · refine Or.inr (Or.inr ⟨region, ?_, hentry⟩)
    rw [absorb_regions, Std.ExtTreeSet.mem_insertMany_list]
    exact Or.inl hmem

/-- Taking over an execution keeps the invariant: wherever it leads, a step leads there. -/
lemma Connected.absorb {state : State} {finding : Finding} {effects : Effects}
    (h : run.Connected context) (hstate : run.states[state.ip]? = some state)
    (hexecute : context.execute run.findings state = .ok (finding, effects))
    (hknown : ∀ known, run.findings[finding.offset]? = some known →
      known.opcode = finding.opcode ∧ known.operand = finding.operand) :
    (run.absorb context finding effects).Connected context := by
  obtain ⟨houtline, hsame⟩ := Context.execute_outlined hexecute
  have hreported : ∀ target ∈ finding.targets,
      (run.absorb context finding effects).Reports context finding.offset target :=
    fun target htarget => absorb_reports (h.reported finding.offset) htarget
  refine ⟨?_, ?_, ?_⟩
  · intro offset known hfinding
    rw [absorb_findings, Std.ExtTreeMap.getElem?_insert] at hfinding
    split at hfinding
    · next heq =>
      obtain rfl := Option.some.inj hfinding
      exact Std.LawfulEqOrd.eq_of_compare heq
    · exact h.placed offset known hfinding
  · intro offset known hfinding target htarget
    rw [absorb_findings, Std.ExtTreeMap.getElem?_insert] at hfinding
    split at hfinding
    · next heq =>
      obtain rfl := Option.some.inj hfinding
      obtain rfl := Std.LawfulEqOrd.eq_of_compare heq
      exact hreported target htarget
    · exact (h.reported offset known hfinding target htarget).mono (absorb_extends finding effects)
  · have hold : ∀ offset, run.Visited offset →
        ReflTransGen ((run.absorb context finding effects).Takes context) context.subject.offset
          offset := fun offset hvisited =>
      ReflTransGen.mono (fun _ _ htakes => htakes.absorb h hknown) _ _ (h.paths offset hvisited)
    intro offset hvisited
    rw [Visited, absorb_states, absorb_queue] at hvisited
    rcases hvisited with hmem | ⟨successor, hmem, rfl⟩
    · exact hold offset (Or.inl hmem)
    rcases List.mem_append.1 hmem with hmem | hmem
    · exact hold successor.ip (Or.inr ⟨successor, hmem, rfl⟩)
    -- the executed state stands at the instruction, from which one more step leads on
    have hhere : ReflTransGen ((run.absorb context finding effects).Takes context)
        context.subject.offset finding.offset := by
      rw [offset_of_execute hexecute]
      refine hold state.ip (Or.inl (Std.ExtTreeMap.mem_iff_isSome_getElem?.2 ?_))
      rw [hstate]
      rfl
    refine hhere.tail ?_
    obtain ⟨hends, hnext⟩ | htarget | ⟨region, hregion, hentry⟩ :=
      houtline.successors successor hmem
    · refine Or.inl ⟨finding, ?_, hends, hnext⟩
      rw [absorb_findings, Std.ExtTreeMap.getElem?_insert_self]
    · exact Or.inr (Or.inl (hreported successor.ip (hsame ▸ htarget)))
    · refine Or.inr (Or.inr ⟨region, ?_, (houtline.region region hregion).1, hentry⟩)
      rw [absorb_regions, Std.ExtTreeSet.mem_insertMany_list, hregion]
      exact Or.inr (List.contains_iff_mem.2 (Option.mem_toList.2 rfl))

/-- **The invariant holds along every analysis.** -/
theorem Reachable.connected (h : Reachable context log run) : run.Connected context := by
  refine h.induct ?_ (fun run base hrun hintake => hrun.intake hintake) ?_
  · refine ⟨?_, ?_, ?_⟩
    · intro offset finding hfinding
      simp [Run.seed] at hfinding
    · intro offset finding hfinding
      simp [Run.seed] at hfinding
    · rintro offset (hmem | ⟨state, hmem, rfl⟩)
      · simp [Run.seed] at hmem
      · rw [List.mem_singleton.1 hmem]
        exact ReflTransGen.refl
  · intro base state finding effects hbase hstate hexecute hknown
    exact hbase.absorb hstate hexecute hknown

end Run

namespace Context

variable {context : Context} {log : Log} {inference : Inference}

/-- **Every instruction of a result was reached.**  Every recorded target was reported.  From the
entry of the function to each of its instructions lead steps that the result allows or that go along
targets which were reported at some time.  If all targets that were reported are still recorded,
then steps that the result allows suffice. -/
theorem infer_reached (h : (context.infer log).2 = .ok inference) :
    (∀ (offset : Offset) (finding : Finding), inference.findings[offset]? = some finding →
      ∀ target ∈ finding.targets, context.Resolved offset target) ∧
    (∀ offset ∈ inference.findings, ReflTransGen (fun source target =>
      inference.Leads source target ∨ context.Resolved source target) inference.entry offset) ∧
    ((∀ source target, context.Resolved source target → inference.Leads source target) →
      ∀ offset ∈ inference.findings, ReflTransGen inference.Leads inference.entry offset) := by
  rw [infer_log context log (.withThreshold .debug)] at h
  obtain ⟨run, rfl, hreachable, -, -, hlog⟩ := infer_eq_ok h
  have hconnected := hreachable.connected
  have hresolved : ∀ source target, run.Reports context source target →
      context.Resolved source target := by
    rintro source target ⟨opcode, targets, hkeeps, hmem⟩
    exact ⟨opcode, targets, mem_reports hreachable hlog hkeeps, hmem⟩
  have hpaths : ∀ offset ∈ run.findings, ReflTransGen (fun source target =>
      (Inference.ofRun context.subject run).Leads source target ∨
        context.Resolved source target) context.subject.offset offset := by
    intro offset hmem
    obtain ⟨finding, hfinding⟩ := Option.isSome_iff_exists.1
      (Std.ExtTreeMap.mem_iff_isSome_getElem?.1 hmem)
    obtain ⟨state, hstate⟩ := (hreachable.traced.offsets offset).stored finding hfinding
    have hvisited : run.Visited offset :=
      Or.inl (Std.ExtTreeMap.mem_iff_isSome_getElem?.2 (by rw [hstate]; rfl))
    refine ReflTransGen.mono (fun source target htakes => ?_) _ _
      (hconnected.paths offset hvisited)
    rcases htakes with ⟨here, hhere, hends, rfl⟩ | hreports | ⟨region, hmem, rfl, hentry⟩
    · exact Or.inl ⟨here, hhere, Inference.next_mem_ways hends⟩
    · exact Or.inr (hresolved source target hreports)
    · obtain ⟨here, hhere⟩ := Option.isSome_iff_exists.1
        (Std.ExtTreeMap.mem_iff_isSome_getElem?.1 (hreachable.charted.regions region hmem).1)
      refine Or.inl ⟨here, hhere, Inference.entry_mem_ways hmem ?_ hentry⟩
      exact (hconnected.placed _ here hhere).symm
  refine ⟨?_, hpaths, ?_⟩
  · intro offset finding hfinding target htarget
    exact hresolved offset target (hconnected.reported offset finding hfinding target htarget)
  · intro hrecorded offset hmem
    refine ReflTransGen.mono (fun source target hstep => ?_) _ _ (hpaths offset hmem)
    exact hstep.elim id (hrecorded source target)

/-- Where two paths meet, the instruction at the first target of the jump was reached along it.  The
jump to a sum keeps its target, and its result leads to the last instruction. -/
theorem infer_reached_meeting :
    (∃ inference, (meeting.infer {}).2 = .ok inference ∧ (0 : Offset) ∈ inference.findings ∧
      ReflTransGen (fun source target => inference.Leads source target ∨
        meeting.Resolved source target) inference.entry 0) ∧
    ∃ inference, (jumpToSum.infer {}).2 = .ok inference ∧ (22 : Offset) ∈ inference.findings ∧
      ReflTransGen inference.Leads inference.entry 22 := by
  constructor
  · obtain ⟨inference, hinfer, hmem⟩ : ∃ inference, (meeting.infer {}).2 = .ok inference ∧
        inference.findings.contains 0 = true := exists_eq_ok (by decide +kernel)
    have hmem := Std.ExtTreeMap.contains_iff_mem.1 hmem
    exact ⟨inference, hinfer, hmem, (infer_reached hinfer).2.1 0 hmem⟩
  · obtain ⟨inference, hinfer, hmem, hjump⟩ :
        ∃ inference, (jumpToSum.infer {}).2 = .ok inference ∧
          inference.findings.contains 22 = true ∧
          (inference.findings[(14 : Offset)]?.any (16 ∈ inference.ways ·)) = true :=
      exists_eq_ok (by decide +kernel)
    have hmem := Std.ExtTreeMap.contains_iff_mem.1 hmem
    have hreports : ∀ diagnostic ∈ jumpToSum.reports,
        ∀ meaning ∈ diagnostic.notice.resolved?, diagnostic.offset? = some 14 ∧
          meaning = .jump [16] := by decide +kernel
    refine ⟨inference, hinfer, hmem, (infer_reached hinfer).2.2 ?_ 22 hmem⟩
    rintro source target ⟨opcode, targets, hreport, htarget⟩
    obtain ⟨hsource, htargets⟩ := hreports _ hreport (.jump targets) rfl
    obtain rfl : source = 14 := Option.some.inj hsource
    obtain rfl : targets = [16] := by simpa using htargets
    obtain rfl := List.mem_singleton.1 htarget
    obtain ⟨finding, hfinding, hways⟩ := (Option.any_eq_true _ _).1 hjump
    exact ⟨finding, hfinding, of_decide_eq_true hways⟩

/-- **Steps that the result allows do not suffice.**  Where the paths meet, the jump goes first to
the entry value of the register and later only to what is written on one of the paths.  The
instructions at the first target stay, although nothing leads to them any more. -/
theorem infer_strands : ∃ inference, (meeting.infer {}).2 = .ok inference ∧
    (0 : Offset) ∈ inference.findings ∧ ¬ ReflTransGen inference.Leads inference.entry 0 := by
  obtain ⟨inference, hinfer, hentry, hmem, hclosed⟩ :
      ∃ inference, (meeting.infer {}).2 = .ok inference ∧ inference.entry = 8 ∧
        inference.findings.contains 0 = true ∧
        inference.closed [8, 14, 20, 22, 28, 31, 34, 36, 42] = true :=
    exists_eq_ok (by decide +kernel)
  refine ⟨inference, hinfer, Std.ExtTreeMap.contains_iff_mem.1 hmem, ?_⟩
  exact Inference.not_reflTransGen_leads hclosed (by rw [hentry]; decide) (by decide)

end Context

end KeyedVM
