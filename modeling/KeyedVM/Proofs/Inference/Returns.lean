import KeyedVM.Proofs.Inference.Growth

set_option relaxedAutoImplicit false
set_option autoImplicit false

/-!
# How a function returns

The result of an analysis says with which depth of the stack and with which key the function
returns.  Both are taken from the return that is executed first, at a time when its state may still
grow; returns that differ from it are reported, the depth and the key each on its own.  A stored
state keeps its depth and its key when it grows.  So what was taken from the first return still fits
it in the end, and what was reported about the others still holds.

## Main definitions

* `KeyedVM.Findings.ReturnsAt` — an instruction returns with a depth and a key;
* `KeyedVM.Context.mismatch` — the reports about returns that differ from the first one;
* `KeyedVM.Run.Summarized` — the invariant of a run.

## Main results

* `KeyedVM.Context.execute_return?` — the returns, and nothing else, have a depth and a key;
* `KeyedVM.Run.Reachable.summarized` — the invariant holds along every analysis;
* `KeyedVM.Context.infer_returns` — what the result of an analysis says about returns.
-/

namespace KeyedVM

/-! ## Executions of returns -/

/-- Returns are the only opcode with that effect on control flow. -/
lemma Opcode.flow_eq_ret_iff {opcode : Opcode} : opcode.flow = .ret ↔ opcode = .ret := by
  cases opcode <;> simp [Opcode.flow]

namespace Context

variable {context : Context} {findings : Findings} {state : State} {finding : Finding}
  {effects : Effects}

/-- Only a return has a depth and a key to report: the depth before it and the key behind it. -/
lemma transfer_return? {instruction : Instruction} {key : Key}
    (h : context.transfer findings instruction state key = .ok effects) :
    effects.return? = if instruction.opcode = .ret then some (state.depth, key) else none := by
  by_cases hret : instruction.opcode = .ret
  · have hflow : instruction.flow = .ret := Opcode.flow_eq_ret_iff.2 hret
    simp only [transfer, hflow, ret, bind_eq_ok_iff, Prod.exists, pure_eq_ok_iff] at h
    obtain ⟨_, _, hpop, rfl⟩ := h
    obtain ⟨_, -, rfl⟩ := Transfer.pop_eq_ok_iff.1 hpop
    rw [if_pos hret]
  · rw [if_neg hret]
    unfold transfer at h
    cases hflow : instruction.flow <;> simp only [hflow] at h
    case sequential =>
      simp only [sequential, bind_eq_ok_iff, pure_eq_ok_iff] at h
      obtain ⟨_, -, rfl⟩ := h
      rfl
    case jump =>
      simp only [jump, bind_eq_ok_iff, Prod.exists, pure_eq_ok_iff] at h
      obtain ⟨_, _, -, _, -, rfl⟩ := h
      rfl
    case conditionalJump =>
      simp only [conditionalJump, bind_eq_ok_iff, Prod.exists, pure_eq_ok_iff] at h
      obtain ⟨_, _, -, _, _, -, _, -, rfl⟩ := h
      rfl
    case switch =>
      simp only [switch, bind_eq_ok_iff, Prod.exists, pure_eq_ok_iff] at h
      obtain ⟨_, _, -, _, _, -, _, -, _, -, rfl⟩ := h
      rfl
    case call =>
      simp only [call, bind_eq_ok_iff, Prod.exists] at h
      obtain ⟨_, _, -, h⟩ := h
      split at h
      · obtain rfl := pure_eq_ok_iff.1 h
        rfl
      · simp only [bind_eq_ok_iff, pure_eq_ok_iff] at h
        obtain ⟨_, -, rfl⟩ := h
        rfl
    case ret => exact absurd (Opcode.flow_eq_ret_iff.1 hflow) hret
    case enter =>
      obtain ⟨_, _, -, -, rfl⟩ := enter_exchanges h
      rfl
    case leave =>
      obtain ⟨_, _, _, -, -, rfl⟩ := leave_cases h
      rfl
    case helper =>
      simp only [helper, bind_eq_ok_iff, Prod.exists, pure_eq_ok_iff] at h
      obtain ⟨_, _, _, -, rfl⟩ := h
      rfl

/-- **The returns, and nothing else, have a depth and a key**: the depth of the state, and the key
behind the instruction. -/
theorem execute_return? (h : context.execute findings state = .ok (finding, effects)) :
    ∃ key, decodeAt context.image.table context.image.blob state.ip state.key
        = .ok (finding.toInstruction, key) ∧
      effects.return? = if finding.opcode = .ret then some (state.depth, key) else none := by
  obtain ⟨instruction, key, hdecode, htransfer, rfl⟩ := execute_eq_ok_iff.1 h
  exact ⟨key, hdecode, transfer_return? htransfer⟩

/-- The reports about a return that differs from the first one. -/
def mismatch (context : Context) (offset : Offset) (notice : Notice) : Diagnostic where
  severity := .warning
  topic := .inference
  notice := notice
  exportId? := some context.subject.id
  offset? := some offset

end Context

/-- An instruction returns with a depth of the stack and a key: it is recorded as a return, this is
the depth of its state, and the key is the one behind it, under the key of its state. -/
def Findings.ReturnsAt (context : Context) (findings : Findings) (offset : Offset) (depth : Nat)
    (key : Key) : Prop :=
  ∃ finding, findings[offset]? = some finding ∧ finding.opcode = .ret ∧
    finding.state.depth = depth ∧
    decodeAt context.image.table context.image.blob offset finding.state.key
      = .ok (finding.toInstruction, key)

/-! ## The invariant -/

namespace Run

variable {context : Context} {log : Log} {run base : Run}

/-- A return agrees with what was taken from the first one, or the difference was reported. -/
structure Answers (context : Context) (run : Run) (offset : Offset) (depth : Nat) (key : Key) :
    Prop where
  depth : ∃ known, run.returnDepth? = some known ∧
    (known = depth ∨ run.log.Keeps (context.mismatch offset (.returnDepth depth known)))
  key : ∃ known, run.exitKey? = some known ∧
    (known = key ∨ run.log.Keeps (context.mismatch offset (.returnKey key known)))

/-- The invariant of a run: the state stored at an instruction has the depth and the key of the
recorded state; the depth and the key of the returns were taken from one of them, if there is one;
and all of them agree with it, or the differences were reported. -/
structure Summarized (context : Context) (run : Run) : Prop where
  stored : ∀ (offset : Offset) (finding : Finding), run.findings[offset]? = some finding →
    ∃ state, run.states[offset]? = some state ∧ state.key = finding.state.key ∧
      state.depth = finding.state.depth
  first : (run.returnDepth? = none ∧ run.exitKey? = none) ∨
    ∃ offset depth key, run.findings.ReturnsAt context offset depth key ∧
      run.returnDepth? = some depth ∧ run.exitKey? = some key
  others : ∀ offset depth key, run.findings.ReturnsAt context offset depth key →
    run.Answers context offset depth key

section Answers

variable {offset : Offset} {depth : Nat} {key : Key}

/-- An answer stays one while what was taken from the first return stays and the log grows. -/
lemma Answers.mono (h : run.Answers context offset depth key)
    (hdepth : ∀ known, run.returnDepth? = some known → base.returnDepth? = some known)
    (hkey : ∀ known, run.exitKey? = some known → base.exitKey? = some known)
    (hlog : base.log.Extends run.log) : base.Answers context offset depth key := by
  obtain ⟨⟨depth', hknown, hor⟩, key', hknown', hor'⟩ := h
  exact ⟨⟨depth', hdepth _ hknown, hor.imp_right hlog.keeps⟩,
    key', hkey _ hknown', hor'.imp_right hlog.keeps⟩

/-- A report about a return is kept, if warnings are. -/
lemma report_keeps (offset : Offset) (notice : Notice) :
    (run.report context .warning offset notice).log.Keeps (context.mismatch offset notice) := by
  intro henabled
  refine Log.mem_push ?_
  rwa [Log.enabled, (report_extends _ _ _).threshold] at henabled

/-- A return agrees with the first depth, or the difference is reported. -/
lemma recordDepth_answers (run : Run) (offset : Offset) (depth : Nat) :
    ∃ known, (run.recordDepth context offset depth).returnDepth? = some known ∧
      (known = depth ∨ (run.recordDepth context offset depth).log.Keeps
        (context.mismatch offset (.returnDepth depth known))) := by
  unfold recordDepth
  split
  · exact ⟨depth, rfl, Or.inl rfl⟩
  · next known hknown =>
    split
    · next hsame => exact ⟨known, hknown, Or.inl hsame⟩
    · exact ⟨known, hknown, Or.inr (report_keeps _ _)⟩

/-- A return agrees with the first key, or the difference is reported. -/
lemma recordExitKey_answers (run : Run) (offset : Offset) (key : Key) :
    ∃ known, (run.recordExitKey context offset key).exitKey? = some known ∧
      (known = key ∨ (run.recordExitKey context offset key).log.Keeps
        (context.mismatch offset (.returnKey key known))) := by
  unfold recordExitKey
  split
  · exact ⟨key, rfl, Or.inl rfl⟩
  · next known hknown =>
    split
    · next hsame => exact ⟨known, hknown, Or.inl hsame⟩
    · exact ⟨known, hknown, Or.inr (report_keeps _ _)⟩

/-- A return that is taken over agrees with the first one, or the difference is reported. -/
lemma recordReturn_answers (run : Run) (offset : Offset) (depth : Nat) (key : Key) :
    (run.recordReturn context offset (some (depth, key))).Answers context offset depth key := by
  refine ⟨?_, recordExitKey_answers _ offset key⟩
  obtain ⟨known, hknown, hor⟩ := recordDepth_answers run offset depth
  refine ⟨known, ?_, hor.imp_right (recordExitKey_extends offset key).keeps⟩
  rw [recordReturn, recordExitKey_eq]
  exact hknown

/-- A return that is executed agrees with the first one, or the difference is reported. -/
lemma absorb_answers {finding : Finding} {effects : Effects}
    (h : effects.return? = some (depth, key)) :
    (run.absorb context finding effects).Answers context finding.offset depth key := by
  set jumped := run.reportJump context finding run.findings[finding.offset]? with hjumped
  set noted : Run := { jumped with
    headers := jumped.headers.insertMany effects.headers
    regions := jumped.regions.insertMany effects.region?.toList } with hnoted
  have hsame : noted.returnDepth? = run.returnDepth? ∧ noted.exitKey? = run.exitKey? := by
    rw [hnoted, hjumped, reportJump_eq]
    exact ⟨rfl, rfl⟩
  have hlog : (run.absorb context finding effects).log.Extends
      (noted.recordReturn context finding.offset effects.return?).log :=
    (recordWaiting_extends _ _).trans (recordUnknownCallee_extends _ _)
  rw [h] at hlog
  refine (recordReturn_answers noted finding.offset depth key).mono ?_ ?_ hlog
  · intro known hknown
    rw [recordReturn_eq, hsame.1] at hknown
    rw [absorb_eq, h]
    exact hknown
  · intro known hknown
    rw [recordReturn_eq, hsame.2] at hknown
    rw [absorb_eq, h]
    exact hknown

end Answers

/-! ## The invariant holds -/

/-- Taking a state from the worklist keeps the invariant. -/
lemma Summarized.intake (h : run.Summarized context) (hintake : run.Intake base) :
    base.Summarized context := by
  have hfindings : base.findings = run.findings := by rw [hintake.eq]
  have hdepth : base.returnDepth? = run.returnDepth? := by rw [hintake.eq]
  have hkey : base.exitKey? = run.exitKey? := by rw [hintake.eq]
  refine ⟨fun offset finding hfinding => ?_, ?_, fun offset depth key hreturns => ?_⟩
  · obtain ⟨state, hstate, hkey, hdepth⟩ := h.stored offset finding (hfindings ▸ hfinding)
    obtain ⟨grown, hgrown, hsame, hcovers⟩ := hintake.exists_grown hstate
    exact ⟨grown, hgrown, hsame.trans hkey, hcovers.depth_eq.trans hdepth⟩
  · rw [hfindings, hdepth, hkey]
    exact h.first
  · exact (h.others offset depth key (hfindings ▸ hreturns)).mono (fun _ => hdepth.trans)
      (fun _ => hkey.trans) hintake.log_extends

section Absorb

variable {state : State} {finding : Finding} {effects : Effects} {offset : Offset} {depth : Nat}
  {key : Key}

/-- A return stays one when an execution is taken over: where its own state is executed again, that
state has kept its depth and its key. -/
lemma Summarized.returnsAt_absorb (h : run.Summarized context)
    (hstate : run.states[state.ip]? = some state)
    (hexecute : context.execute run.findings state = .ok (finding, effects))
    (hreturns : run.findings.ReturnsAt context offset depth key) :
    (run.absorb context finding effects).findings.ReturnsAt context offset depth key := by
  obtain ⟨known, hknown, hopcode, hdepth, hdecode⟩ := hreturns
  unfold Findings.ReturnsAt
  rw [absorb_findings, Std.ExtTreeMap.getElem?_insert]
  split
  · next heq =>
    obtain rfl := Std.LawfulEqOrd.eq_of_compare heq
    rw [offset_of_execute hexecute] at hknown hdecode ⊢
    obtain ⟨stored, hstored, hkey', hdepth'⟩ := h.stored _ known hknown
    obtain rfl : stored = state := Option.some.inj (hstored.symm.trans hstate)
    obtain ⟨_, hdecode'⟩ := decodeAt_of_execute hexecute
    rw [hkey', hdecode] at hdecode'
    obtain ⟨hsame, -⟩ := Prod.mk.inj (Except.ok.inj hdecode')
    refine ⟨finding, rfl, ?_, ?_, ?_⟩
    · exact (congrArg Instruction.opcode hsame).symm.trans hopcode
    · rw [state_of_execute hexecute, hdepth', hdepth]
    · rw [state_of_execute hexecute, hkey', hdecode, hsame]
  · exact ⟨known, hknown, hopcode, hdepth, hdecode⟩

/-- A return in a run that has taken over an execution was one before, or is what was executed. -/
lemma returnsAt_of_absorb (hexecute : context.execute run.findings state = .ok (finding, effects))
    (hreturns : (run.absorb context finding effects).findings.ReturnsAt context offset depth key) :
    (offset = finding.offset ∧ effects.return? = some (depth, key)) ∨
      run.findings.ReturnsAt context offset depth key := by
  obtain ⟨known, hknown, hopcode, hdepth, hdecode⟩ := hreturns
  rw [absorb_findings, Std.ExtTreeMap.getElem?_insert] at hknown
  split at hknown
  · next heq =>
    obtain rfl := Std.LawfulEqOrd.eq_of_compare heq
    obtain rfl := Option.some.inj hknown
    obtain ⟨key', hdecode', hreturn⟩ := Context.execute_return? hexecute
    rw [state_of_execute hexecute] at hdepth hdecode
    rw [offset_of_execute hexecute, hdecode', Except.ok.injEq, Prod.mk.injEq] at hdecode
    rw [if_pos hopcode, hdepth, hdecode.2] at hreturn
    exact Or.inl ⟨rfl, hreturn⟩
  · exact Or.inr ⟨known, hknown, hopcode, hdepth, hdecode⟩

/-- What is executed as a return is one in the run that takes it over. -/
lemma returnsAt_absorb_self
    (hexecute : context.execute run.findings state = .ok (finding, effects))
    (hreturn : effects.return? = some (depth, key)) :
    (run.absorb context finding effects).findings.ReturnsAt context finding.offset depth key := by
  obtain ⟨key', hdecode, hreturn'⟩ := Context.execute_return? hexecute
  rw [hreturn] at hreturn'
  split at hreturn'
  · next hopcode =>
    obtain ⟨rfl, rfl⟩ := Prod.mk.inj (Option.some.inj hreturn')
    refine ⟨finding, ?_, hopcode, by rw [state_of_execute hexecute], ?_⟩
    · rw [absorb_findings, Std.ExtTreeMap.getElem?_insert_self]
    · rw [state_of_execute hexecute, offset_of_execute hexecute, hdecode]
  · cases hreturn'

/-- Taking over an execution keeps the invariant.

**Proof sketch.** What was taken from the first return is never replaced.  If there was none, it is
taken from what is executed, provided that this is a return; and whatever return is executed, it is
compared with the first one. -/
lemma Summarized.absorb (h : run.Summarized context)
    (hstate : run.states[state.ip]? = some state)
    (hexecute : context.execute run.findings state = .ok (finding, effects)) :
    (run.absorb context finding effects).Summarized context := by
  have hdepth : (run.absorb context finding effects).returnDepth?
      = run.returnDepth?.or (effects.return?.map (·.1)) := by rw [absorb_eq]
  have hkey : (run.absorb context finding effects).exitKey?
      = run.exitKey?.or (effects.return?.map (·.2)) := by rw [absorb_eq]
  refine ⟨fun offset known hknown => ?_, ?_, fun offset depth key hreturns => ?_⟩
  · rw [absorb_findings, Std.ExtTreeMap.getElem?_insert] at hknown
    rw [absorb_states]
    split at hknown
    · next heq =>
      obtain rfl := Option.some.inj hknown
      rw [← Std.LawfulEqOrd.eq_of_compare heq, offset_of_execute hexecute,
        state_of_execute hexecute]
      exact ⟨state, hstate, rfl, rfl⟩
    · exact h.stored offset known hknown
  · rw [hdepth, hkey]
    rcases h.first with ⟨hnone, hnone'⟩ | ⟨offset, depth, key, hreturns, hsome, hsome'⟩
    · rw [hnone, hnone']
      cases hreturn : effects.return? with
      | none => exact Or.inl ⟨rfl, rfl⟩
      | some pair =>
        exact Or.inr ⟨_, _, _, returnsAt_absorb_self hexecute hreturn, rfl, rfl⟩
    · rw [hsome, hsome']
      exact Or.inr ⟨offset, depth, key, h.returnsAt_absorb hstate hexecute hreturns, rfl, rfl⟩
  · rcases returnsAt_of_absorb hexecute hreturns with ⟨rfl, hreturn⟩ | hreturns
    · exact absorb_answers hreturn
    · refine (h.others offset depth key hreturns).mono ?_ ?_ (absorb_extends finding effects)
      · intro known hknown
        rw [hdepth, hknown, Option.some_or]
      · intro known hknown
        rw [hkey, hknown, Option.some_or]

end Absorb

/-- **The invariant holds along every analysis.** -/
theorem Reachable.summarized (h : Reachable context log run) : run.Summarized context := by
  refine h.induct ⟨?_, Or.inl ⟨rfl, rfl⟩, ?_⟩ (fun _ _ hrun hintake => hrun.intake hintake)
    fun _ _ _ _ hbase hstate hexecute _ => hbase.absorb hstate hexecute
  · intro offset finding hfinding
    simp [Run.seed] at hfinding
  · rintro offset depth key ⟨finding, hfinding, -⟩
    simp [Run.seed] at hfinding

/-- Every recorded return has a depth and a key. -/
lemma Reachable.exists_returnsAt (h : Reachable context log run) {offset : Offset}
    {finding : Finding} (hfinding : run.findings[offset]? = some finding)
    (hopcode : finding.opcode = .ret) :
    ∃ key, run.findings.ReturnsAt context offset finding.state.depth key := by
  obtain ⟨rfl, -, _, _, hexecute, -⟩ := h.traced.exists_execution hfinding
  obtain ⟨key, hdecode⟩ := decodeAt_of_execute hexecute
  exact ⟨key, finding, hfinding, hopcode, rfl, hdecode⟩

end Run

/-! ## The result -/

namespace Context

variable {context : Context} {log : Log} {inference : Inference}

/-- If an analysis has reported no difference, all returns are as the result says. -/
lemma returnsAt_of_infer {depth : Nat} {key : Key} (h : (context.infer log).2 = .ok inference)
    (hwarnings : log.enabled .warning = true) (hdepth : inference.returnDepth? = some depth)
    (hkey : inference.exitKey? = some key)
    (hdepths : ∀ offset other, context.mismatch offset (.returnDepth other depth)
      ∉ (context.infer log).1.entries)
    (hkeys : ∀ offset other, context.mismatch offset (.returnKey other key)
      ∉ (context.infer log).1.entries)
    {offset : Offset} {finding : Finding} (hfinding : inference.findings[offset]? = some finding)
    (hopcode : finding.opcode = .ret) :
    inference.findings.ReturnsAt context offset depth key := by
  obtain ⟨run, rfl, hreachable, -, -, hlog⟩ := infer_eq_ok h
  have hmem : ∀ {offset notice}, run.log.Keeps (context.mismatch offset notice) →
      context.mismatch offset notice ∈ (context.infer log).1.entries := by
    intro offset notice hkeeps
    have hthreshold : run.log.threshold = log.threshold :=
      hreachable.log_extends.threshold.trans (Log.push_extends _ _).threshold
    refine hlog.entries _ (hkeeps ?_)
    rw [Log.enabled, hthreshold]
    exact hwarnings
  obtain ⟨key', hreturns⟩ := hreachable.exists_returnsAt hfinding hopcode
  obtain ⟨⟨_, hknown, hor⟩, _, hknown', hor'⟩ :=
    hreachable.summarized.others offset _ key' hreturns
  obtain rfl := Option.some.inj (hdepth.symm.trans hknown)
  obtain rfl := Option.some.inj (hkey.symm.trans hknown')
  obtain rfl := hor.resolve_right fun hkeeps => hdepths _ _ (hmem hkeeps)
  obtain rfl := hor'.resolve_right fun hkeeps => hkeys _ _ (hmem hkeeps)
  exact hreturns

/-- **What the result of an analysis says about returns.**  It has a depth exactly if it has a key,
and exactly if it has a return.  If it does, then there is one return with that depth and that key;
and if the same analysis, with any log that keeps warnings, has reported no return with another
depth or another key, then all its returns have that depth and that key. -/
theorem infer_returns (h : (context.infer log).2 = .ok inference) :
    (inference.returnDepth?.isSome ↔ inference.exitKey?.isSome) ∧
    (inference.exitKey?.isSome ↔ ∃ (offset : Offset) (finding : Finding),
      inference.findings[offset]? = some finding ∧ finding.opcode = .ret) ∧
    ∀ depth key, inference.returnDepth? = some depth → inference.exitKey? = some key →
      (∃ offset, inference.findings.ReturnsAt context offset depth key) ∧
      ∀ log' : Log, log'.enabled .warning = true →
        (∀ offset other, context.mismatch offset (.returnDepth other depth)
          ∉ (context.infer log').1.entries) →
        (∀ offset other, context.mismatch offset (.returnKey other key)
          ∉ (context.infer log').1.entries) →
        ∀ (offset : Offset) (finding : Finding), inference.findings[offset]? = some finding →
          finding.opcode = .ret → inference.findings.ReturnsAt context offset depth key := by
  obtain ⟨run, rfl, hreachable, -⟩ := infer_eq_ok h
  have hsummarized := hreachable.summarized
  refine ⟨?_, ?_, fun depth key hdepth hkey => ⟨?_, ?_⟩⟩
  · show run.returnDepth?.isSome ↔ run.exitKey?.isSome
    rcases hsummarized.first with ⟨hnone, hnone'⟩ | ⟨_, _, _, -, hsome, hsome'⟩
    · rw [hnone, hnone', Option.isSome_none, Option.isSome_none]
    · rw [hsome, hsome', Option.isSome_some, Option.isSome_some]
  · constructor
    · intro hsome
      rcases hsummarized.first with ⟨-, hnone⟩ | ⟨offset, _, _, ⟨finding, hfinding, hret, -⟩, -, -⟩
      · rw [show (Inference.ofRun context.subject run).exitKey? = none from hnone] at hsome
        cases hsome
      · exact ⟨offset, finding, hfinding, hret⟩
    · rintro ⟨offset, finding, hfinding, hopcode⟩
      obtain ⟨key, hreturns⟩ := hreachable.exists_returnsAt hfinding hopcode
      obtain ⟨-, known, hknown, -⟩ := hsummarized.others offset _ key hreturns
      exact Option.isSome_iff_exists.2 ⟨known, hknown⟩
  · rcases hsummarized.first with ⟨hnone, -⟩ | ⟨offset, _, _, hreturns, hsome, hsome'⟩
    · cases hnone.symm.trans hdepth
    · obtain rfl := Option.some.inj (hdepth.symm.trans hsome)
      obtain rfl := Option.some.inj (hkey.symm.trans hsome')
      exact ⟨offset, hreturns⟩
  · intro log' hwarnings hdepths hkeys offset finding hfinding hopcode
    -- the result does not depend on the log, so the log that was kept is as good as any
    exact returnsAt_of_infer (infer_log context log log' ▸ h) hwarnings hdepth hkey hdepths hkeys
      hfinding hopcode

/-- Two returns with the same key: `PUSHI 0`, `PUSHI 22`, `JZ`; and both behind the jump and at 22
`PUSHI 0`, `RET`. -/
def forked : Context := .ofBlocks
  [(0, [(.pushi .dword, .dword 0), (.pushi .dword, .dword 22), (.jz, .none),
    (.pushi .dword, .dword 0), (.ret, .none)]),
    (3687929593, [(.pushi .dword, .dword 0), (.ret, .none)])]

/-- No report says that the two returns differ, so both have the depth and the key of the result. -/
theorem infer_returns_forked : ∃ inference, (forked.infer {}).2 = .ok inference ∧
    inference.findings.ReturnsAt forked 20 1 1943085169 ∧
    inference.findings.ReturnsAt forked 28 1 1943085169 := by
  obtain ⟨inference, hinfer, hdepth, hkey, hfirst, hsecond⟩ : ∃ inference,
      (forked.infer {}).2 = .ok inference ∧ inference.returnDepth? = some 1 ∧
      inference.exitKey? = some 1943085169 ∧
      (inference.findings[(20 : Offset)]?.map (·.opcode)) = some .ret ∧
      (inference.findings[(28 : Offset)]?.map (·.opcode)) = some .ret :=
    exists_eq_ok (by decide +kernel)
  have hquiet : ∀ report ∈ (forked.infer {}).1.entries,
      (match report.notice with
        | .returnDepth _ _ | .returnKey _ _ => false
        | _ => true) = true := by decide +kernel
  have hall := ((infer_returns hinfer).2.2 1 _ hdepth hkey).2 {} rfl
    (fun offset other hmem => Bool.false_ne_true (hquiet _ hmem))
    (fun offset other hmem => Bool.false_ne_true (hquiet _ hmem))
  obtain ⟨first, hfirst, hopcode⟩ := Option.map_eq_some_iff.1 hfirst
  obtain ⟨second, hsecond, hopcode'⟩ := Option.map_eq_some_iff.1 hsecond
  exact ⟨inference, hinfer, hall 20 first hfirst hopcode, hall 28 second hsecond hopcode'⟩

end Context

end KeyedVM
