import KeyedVM.Inference
import KeyedVM.Proofs.Inference.Covering
import KeyedVM.Proofs.Inference.Effects

set_option relaxedAutoImplicit false
set_option autoImplicit false

/-!
# Steps of a run

What one step of an analysis can do, and what holds when an analysis has come to its end.  An
analysis changes what it knows in two ways only: it takes the first state off the worklist, or it
executes a stored state once more.  Whatever is to be shown for every analysis is shown for these
two.

## Main definitions

* `KeyedVM.Run.joined` — a run after a state has been merged into a stored one;
* `KeyedVM.Run.Reachable` — the runs that an analysis passes through;
* `KeyedVM.Run.Settled` — executing any stored state once more finds its recorded meaning.

## Main results

* `KeyedVM.Run.absorb_eq` — what taking over an execution changes, all of it;
* `KeyedVM.Run.step_cases`, `KeyedVM.Run.recheck_cases` — what one step can do;
* `KeyedVM.Context.run_eq_ok`, `KeyedVM.Context.infer_eq_ok` — the end of an analysis is reachable,
  has an empty worklist and is settled.
-/

namespace KeyedVM

/-- Inserting a member of a set changes nothing. -/
lemma insert_eq_of_mem {α : Type} [Ord α] [Std.TransOrd α] [Std.LawfulEqOrd α]
    {s : Std.ExtTreeSet α} {a : α} (h : a ∈ s) : s.insert a = s := by
  apply Std.ExtTreeSet.ext_mem
  intro x
  rw [Std.ExtTreeSet.mem_insert]
  constructor
  · rintro (hx | hx)
    · exact Std.LawfulEqOrd.eq_of_compare hx ▸ h
    · exact hx
  · exact Or.inr

/-! ## Logs -/

namespace Log

/-- A log extends another one if it keeps the same severities and has all its reports. -/
structure Extends (later earlier : Log) : Prop where
  threshold : later.threshold = earlier.threshold
  entries : ∀ d ∈ earlier.entries, d ∈ later.entries

/-- A log extends itself. -/
lemma Extends.refl (log : Log) : log.Extends log := ⟨rfl, fun _ hd => hd⟩

/-- A log that extends an extension extends the first log. -/
lemma Extends.trans {a b c : Log} (hab : a.Extends b) (hbc : b.Extends c) : a.Extends c :=
  ⟨hab.threshold.trans hbc.threshold, fun d hd => hab.entries d (hbc.entries d hd)⟩

/-- A report extends the log, also if it is not kept. -/
lemma push_extends (log : Log) (diagnostic : Diagnostic) :
    (log.push diagnostic).Extends log := by
  unfold push
  split
  · exact ⟨rfl, fun d hd => Array.mem_push.2 (Or.inl hd)⟩
  · exact Extends.refl log

/-- A report of a severity that is kept is found in the log. -/
lemma mem_push {log : Log} {diagnostic : Diagnostic}
    (h : log.enabled diagnostic.severity = true) :
    diagnostic ∈ (log.push diagnostic).entries := by
  rw [push, if_pos h]
  exact Array.mem_push_self

end Log

namespace Run

variable {context : Context} {run next : Run}

/-! ## Taking over an execution -/

/-- A report only adds to the log. -/
lemma report_extends (severity : Severity) (offset : Offset) (notice : Notice) :
    (run.report context severity offset notice).log.Extends run.log :=
  run.log.push_extends _

/-- The first return counts for the depth of the stack. -/
lemma recordDepth_eq (offset : Offset) (depth : Nat) :
    run.recordDepth context offset depth = { run with
      returnDepth? := run.returnDepth?.or (some depth)
      log := (run.recordDepth context offset depth).log } := by
  cases hd : run.returnDepth? with
  | none => simp [recordDepth, hd]
  | some known =>
    rw [Option.some_or, ← hd]
    by_cases h : known = depth
    · have hsame : run.recordDepth context offset depth = run := by simp [recordDepth, hd, h]
      rw [hsame]
    · simp [recordDepth, hd, h, report]

/-- Recording a depth only adds to the log. -/
lemma recordDepth_extends (offset : Offset) (depth : Nat) :
    (run.recordDepth context offset depth).log.Extends run.log := by
  unfold recordDepth
  split
  · exact .refl _
  · split
    · exact .refl _
    · exact report_extends _ _ _

/-- The first return counts for the key. -/
lemma recordExitKey_eq (offset : Offset) (key : Key) :
    run.recordExitKey context offset key = { run with
      exitKey? := run.exitKey?.or (some key)
      log := (run.recordExitKey context offset key).log } := by
  cases hk : run.exitKey? with
  | none => simp [recordExitKey, hk]
  | some known =>
    rw [Option.some_or, ← hk]
    by_cases h : known = key
    · have hsame : run.recordExitKey context offset key = run := by simp [recordExitKey, hk, h]
      rw [hsame]
    · simp [recordExitKey, hk, h, report]

/-- Recording an exit key only adds to the log. -/
lemma recordExitKey_extends (offset : Offset) (key : Key) :
    (run.recordExitKey context offset key).log.Extends run.log := by
  unfold recordExitKey
  split
  · exact .refl _
  · split
    · exact .refl _
    · exact report_extends _ _ _

/-- The first return counts. -/
lemma recordReturn_eq (offset : Offset) (return? : Option (Nat × Key)) :
    run.recordReturn context offset return? = { run with
      returnDepth? := run.returnDepth?.or (return?.map (·.1))
      exitKey? := run.exitKey?.or (return?.map (·.2))
      log := (run.recordReturn context offset return?).log } := by
  rcases return? with _ | ⟨depth, key⟩
  · simp [recordReturn]
  · have h := @recordExitKey_eq context (run.recordDepth context offset depth) offset key
    rw [recordReturn]
    generalize (recordExitKey context offset key (run.recordDepth context offset depth)) = last
      at h ⊢
    rw [recordDepth_eq] at h
    exact h

/-- Recording a return only adds to the log. -/
lemma recordReturn_extends (offset : Offset) (return? : Option (Nat × Key)) :
    (run.recordReturn context offset return?).log.Extends run.log := by
  rcases return? with _ | ⟨depth, key⟩
  · exact .refl _
  · exact (recordExitKey_extends offset key).trans (recordDepth_extends offset depth)

/-- The target of a call that is no export is noted. -/
lemma recordUnknownCallee_eq (offset : Offset) (callee? : Option Offset) :
    run.recordUnknownCallee context offset callee? = { run with
      unknownCallees := run.unknownCallees.insertMany callee?.toList
      log := (run.recordUnknownCallee context offset callee?).log } := by
  rcases callee? with _ | address
  · simp [recordUnknownCallee]
  · by_cases h : address ∈ run.unknownCallees
    · simp [recordUnknownCallee, h, insert_eq_of_mem h]
    · simp [recordUnknownCallee, h, report]

/-- Recording an unknown callee only adds to the log. -/
lemma recordUnknownCallee_extends (offset : Offset) (callee? : Option Offset) :
    (run.recordUnknownCallee context offset callee?).log.Extends run.log := by
  unfold recordUnknownCallee
  split
  · exact .refl _
  · split
    · exact .refl _
    · exact report_extends _ _ _

/-- An export whose exit key is missing is noted. -/
lemma recordWaiting_eq (offset : Offset) (callee? : Option ExportId) :
    run.recordWaiting context offset callee? = { run with
      waitingFor := run.waitingFor.insertMany callee?.toList
      log := (run.recordWaiting context offset callee?).log } := by
  rcases callee? with _ | id
  · simp [recordWaiting]
  · by_cases h : id ∈ run.waitingFor
    · simp [recordWaiting, h, insert_eq_of_mem h]
    · simp [recordWaiting, h, report]

/-- Recording a callee without an exit key only adds to the log. -/
lemma recordWaiting_extends (offset : Offset) (callee? : Option ExportId) :
    (run.recordWaiting context offset callee?).log.Extends run.log := by
  unfold recordWaiting
  split
  · exact .refl _
  · split
    · exact .refl _
    · exact report_extends _ _ _

/-- Reporting a jump changes nothing but the log. -/
lemma reportJump_eq (finding : Finding) (known? : Option Finding) :
    run.reportJump context finding known? = { run with
      log := (run.reportJump context finding known?).log } := by
  unfold reportJump
  split
  · split
    · rfl
    · rfl
  · rfl

/-- Reporting the targets of a jump only adds to the log. -/
lemma reportJump_extends (finding : Finding) (known? : Option Finding) :
    (run.reportJump context finding known?).log.Extends run.log := by
  unfold reportJump
  split
  · split
    · exact .refl _
    · exact report_extends _ _ _
  · exact .refl _

/-- **What taking over an execution changes**: all it knows but the stored states and the
iterations, and each of these by what the effects say. -/
lemma absorb_eq (finding : Finding) (effects : Effects) :
    run.absorb context finding effects = { run with
      findings := run.findings.insert finding.offset finding
      queue := run.queue ++ effects.successors
      headers := run.headers.insertMany effects.headers
      regions := run.regions.insertMany effects.region?.toList
      returnDepth? := run.returnDepth?.or (effects.return?.map (·.1))
      exitKey? := run.exitKey?.or (effects.return?.map (·.2))
      unknownCallees := run.unknownCallees.insertMany effects.unknownCallee?.toList
      waitingFor := run.waitingFor.insertMany effects.waitingFor?.toList
      log := (run.absorb context finding effects).log } := by
  unfold absorb
  simp only
  rw [recordWaiting_eq, recordUnknownCallee_eq, recordReturn_eq, reportJump_eq]

/-- Taking over effects only adds to the log. -/
lemma absorb_extends (finding : Finding) (effects : Effects) :
    (run.absorb context finding effects).log.Extends run.log := by
  refine (recordWaiting_extends _ _).trans ((recordUnknownCallee_extends _ _).trans
    ((recordReturn_extends _ _).trans ?_))
  exact reportJump_extends _ _

/-- Taking over effects leaves the stored states alone. -/
@[simp] lemma absorb_states (finding : Finding) (effects : Effects) :
    (run.absorb context finding effects).states = run.states := by
  rw [absorb_eq]

/-- Taking over effects records the finding at its offset. -/
@[simp] lemma absorb_findings (finding : Finding) (effects : Effects) :
    (run.absorb context finding effects).findings
      = run.findings.insert finding.offset finding := by
  rw [absorb_eq]

/-- Taking over effects appends the successors to the worklist. -/
@[simp] lemma absorb_queue (finding : Finding) (effects : Effects) :
    (run.absorb context finding effects).queue = run.queue ++ effects.successors := by
  rw [absorb_eq]

/-! ## Steps -/

/-- A step of the analysis succeeds exactly if its computation does. -/
lemma attempt_eq_ok_iff {α : Type} {result : Except Error α} {a : α} :
    run.attempt result = .ok a ↔ result = .ok a := by
  cases result <;> simp [attempt, abort]

/-- A tick succeeds exactly while iterations are left, and counts one. -/
lemma tick_eq_ok_iff : run.tick context = .ok next ↔
    run.iterations < context.settings.maxIterations ∧
      next = { run with iterations := run.iterations + 1 } := by
  by_cases h : run.iterations < context.settings.maxIterations
  · simp [tick, h, eq_comm]
  · simp [tick, h, abort]

/-- A result is taken over if the instruction is the one that is known. -/
lemma commit_eq_ok_iff {finding : Finding} {effects : Effects} :
    run.commit context finding effects = .ok next ↔
      (∀ known, run.findings[finding.offset]? = some known →
        known.opcode = finding.opcode ∧ known.operand = finding.operand) ∧
      next = run.absorb context finding effects := by
  cases hk : run.findings[finding.offset]? with
  | none => simp [commit, hk, eq_comm]
  | some known =>
    by_cases h : known.opcode = finding.opcode ∧ known.operand = finding.operand
    · simp [commit, hk, h, eq_comm]
    · simp [commit, hk, h, abort]

/-- Visiting a state executes it on the findings so far and takes over the result. -/
lemma visit_eq_ok_iff {state : State} : run.visit context state = .ok next ↔
    ∃ finding effects, context.execute run.findings state = .ok (finding, effects) ∧
      run.commit context finding effects = .ok next := by
  simp only [visit, bind_eq_ok_iff, Prod.exists, attempt_eq_ok_iff]

/-- The run after an incoming state was merged into the stored one, before anything is
executed. -/
def joined (context : Context) (incoming : State) (merged : State.Merged) (run : Run) : Run :=
  let run := { run with states := run.states.insert incoming.ip merged.state }
  if merged.keyDiverged then
    run.report context .warning incoming.ip (.keyDiverged incoming.key merged.state.key)
  else run

/-- Merging a state changes the state that is stored at its offset and the log. -/
lemma joined_eq (incoming : State) (merged : State.Merged) :
    run.joined context incoming merged = { run with
      states := run.states.insert incoming.ip merged.state
      log := (run.joined context incoming merged).log } := by
  unfold joined
  split
  · rfl
  · rfl

/-- Joining states only adds to the log. -/
lemma joined_extends (incoming : State) (merged : State.Merged) :
    (run.joined context incoming merged).log.Extends run.log := by
  unfold joined
  split
  · exact report_extends _ _ _
  · exact .refl _

/-- Joining states stores the merged one at its offset. -/
@[simp] lemma joined_states (incoming : State) (merged : State.Merged) :
    (run.joined context incoming merged).states
      = run.states.insert incoming.ip merged.state := by
  rw [joined_eq]

/-- Joining states leaves the findings alone. -/
@[simp] lemma joined_findings (incoming : State) (merged : State.Merged) :
    (run.joined context incoming merged).findings = run.findings := by
  rw [joined_eq]

/-- Joining states leaves the worklist alone. -/
@[simp] lemma joined_queue (incoming : State) (merged : State.Merged) :
    (run.joined context incoming merged).queue = run.queue := by
  rw [joined_eq]

/-- At a known offset an incoming state is merged; what was merged is visited if it has grown. -/
lemma arrive_of_stored {incoming stored : State}
    (hstored : run.states[incoming.ip]? = some stored) :
    run.arrive context incoming = (do
      let merged ← run.attempt (stored.merge incoming)
      let run := run.joined context incoming merged
      if merged.changed then run.visit context merged.state else return run) := by
  rw [arrive, hstored]
  simp only
  cases hmerge : stored.merge incoming with
  | error error => rfl
  | ok merged =>
    have hkey : stored.key = merged.state.key := (State.merge_key hmerge).symm
    rw [hkey]
    rfl

/-- **What a state that arrives can do.**  At a new offset it is stored and visited.  At a known
offset it is merged, and the merged state is visited if it has grown. -/
lemma arrive_cases {incoming : State} (h : run.arrive context incoming = .ok next) :
    (run.states[incoming.ip]? = none ∧
      { run with states := run.states.insert incoming.ip incoming }.visit context incoming
        = .ok next) ∨
    (∃ stored merged, run.states[incoming.ip]? = some stored ∧
      stored.merge incoming = .ok merged ∧ merged.changed = false ∧
      next = run.joined context incoming merged) ∨
    (∃ stored merged, run.states[incoming.ip]? = some stored ∧
      stored.merge incoming = .ok merged ∧ merged.changed = true ∧
      (run.joined context incoming merged).visit context merged.state = .ok next) := by
  cases hstored : run.states[incoming.ip]? with
  | none =>
    rw [arrive, hstored] at h
    exact Or.inl ⟨rfl, h⟩
  | some stored =>
    rw [arrive_of_stored hstored] at h
    simp only [bind_eq_ok_iff, attempt_eq_ok_iff] at h
    obtain ⟨merged, hmerged, h⟩ := h
    cases hchanged : merged.changed with
    | false =>
      simp only [hchanged, Bool.false_eq_true, if_false, pure_eq_ok_iff] at h
      exact Or.inr (Or.inl ⟨stored, merged, rfl, hmerged, hchanged, h.symm⟩)
    | true =>
      simp only [hchanged, if_true] at h
      exact Or.inr (Or.inr ⟨stored, merged, rfl, hmerged, hchanged, h⟩)

/-- A step takes the first state off the worklist, counts an iteration and lets the state
arrive. -/
lemma step_cases (h : run.step context = .ok (some next)) :
    ∃ incoming rest, run.queue = incoming :: rest ∧
      run.iterations < context.settings.maxIterations ∧
      { run with queue := rest, iterations := run.iterations + 1 }.arrive context incoming
        = .ok next := by
  unfold step at h
  split at h
  · simp at h
  · next incoming rest hqueue =>
    simp only [bind_eq_ok_iff, tick_eq_ok_iff, pure_eq_ok_iff, Option.some.injEq] at h
    obtain ⟨_, ⟨hlt, rfl⟩, _, harrive, rfl⟩ := h
    exact ⟨incoming, rest, hqueue, hlt, harrive⟩

/-- There is no step exactly if the worklist is empty. -/
lemma step_eq_none_iff : run.step context = .ok none ↔ run.queue = [] := by
  unfold step
  split
  · next hqueue => simp [hqueue]
  · next incoming rest hqueue =>
    simp only [bind_eq_ok_iff, pure_eq_ok_iff, hqueue]
    simp

/-- The execution of a stored state on the findings of the run finds the recorded meaning. -/
def SettledAt (context : Context) (run : Run) (offset : Offset) : Prop :=
  ∀ state, run.states[offset]? = some state → ∃ finding effects,
    context.execute run.findings state = .ok (finding, effects) ∧
    run.findings[offset]?.map (·.meaning?) = some finding.meaning?

/-- **What executing a stored state once more can do.**  Either it finds the recorded meaning and
nothing changes but the number of iterations, or its result is taken over. -/
lemma recheck_cases {offset : Offset} {changed : Bool}
    (h : run.recheck context offset = .ok (changed, next)) :
    (changed = false ∧ next = { run with iterations := run.iterations + 1 } ∧
      run.SettledAt context offset) ∨
    (changed = true ∧ ∃ state finding effects, run.states[offset]? = some state ∧
      context.execute run.findings state = .ok (finding, effects) ∧
      { run with iterations := run.iterations + 1 }.commit context finding effects
        = .ok next) := by
  simp only [recheck, bind_eq_ok_iff, tick_eq_ok_iff] at h
  obtain ⟨_, ⟨-, rfl⟩, h⟩ := h
  split at h
  · next hnone =>
    simp only [pure_eq_ok_iff, Prod.mk.injEq] at h
    obtain ⟨rfl, rfl⟩ := h
    refine Or.inl ⟨rfl, rfl, fun state hstate => ?_⟩
    have hnone' : run.states[offset]? = none := hnone
    rw [hnone'] at hstate
    cases hstate
  · next state hstate =>
    simp only [bind_eq_ok_iff, attempt_eq_ok_iff, Prod.exists] at h
    obtain ⟨finding, effects, hexecute, h⟩ := h
    split at h
    · simp only [bind_eq_ok_iff, pure_eq_ok_iff, Prod.mk.injEq] at h
      obtain ⟨_, hcommit, rfl, rfl⟩ := h
      exact Or.inr ⟨rfl, state, finding, effects, hstate, hexecute, hcommit⟩
    · next hsame =>
      simp only [pure_eq_ok_iff, Prod.mk.injEq] at h
      obtain ⟨rfl, rfl⟩ := h
      refine Or.inl ⟨rfl, rfl, fun state' hstate' => ?_⟩
      obtain rfl : state = state' := Option.some.inj (hstate.symm.trans hstate')
      exact ⟨finding, effects, hexecute, by simpa using hsame⟩

/-! ## Whole runs -/

/-- The runs that an analysis passes through: the start, and whatever a step or the execution of a
stored state leads to. -/
inductive Reachable (context : Context) (log : Log) : Run → Prop
  | seed : Reachable context log (seed context.subject.offset context.entryKey log)
  | step {run next : Run} : Reachable context log run → run.step context = .ok (some next) →
      Reachable context log next
  | recheck {run next : Run} {offset : Offset} {changed : Bool} : Reachable context log run →
      run.recheck context offset = .ok (changed, next) → Reachable context log next

/-- An analysis only adds to its log. -/
lemma Reachable.log_extends {log : Log} (h : Reachable context log run) : run.log.Extends log := by
  have hvisit : ∀ {run next : Run} {state : State}, run.visit context state = .ok next →
      next.log.Extends run.log := by
    intro run next state h
    obtain ⟨finding, effects, -, hcommit⟩ := visit_eq_ok_iff.1 h
    obtain ⟨-, rfl⟩ := commit_eq_ok_iff.1 hcommit
    exact absorb_extends finding effects
  induction h with
  | seed => exact .refl log
  | step _ hstep ih =>
    obtain ⟨incoming, rest, -, -, harrive⟩ := step_cases hstep
    obtain ⟨-, h⟩ | ⟨_, merged, -, -, -, rfl⟩ | ⟨_, merged, -, -, -, h⟩ := arrive_cases harrive
    · exact (hvisit h).trans ih
    · exact (joined_extends incoming merged).trans ih
    · exact (hvisit h).trans ((joined_extends incoming merged).trans ih)
  | recheck _ hrecheck ih =>
    obtain ⟨-, rfl, -⟩ | ⟨-, _, finding, effects, -, -, hcommit⟩ := recheck_cases hrecheck
    · exact ih
    · obtain ⟨-, rfl⟩ := commit_eq_ok_iff.1 hcommit
      exact (absorb_extends finding effects).trans ih

/-- Every stored state is settled. -/
def Settled (context : Context) (run : Run) : Prop := ∀ offset, run.SettledAt context offset

variable {log : Log}

/-- Working until the worklist is empty leads from reachable runs to reachable runs, and to an
empty worklist. -/
lemma drainWithin_eq_ok {rounds : Nat} (hrun : Reachable context log run)
    (h : run.drainWithin context rounds = .ok next) :
    Reachable context log next ∧ next.queue = [] := by
  induction rounds generalizing run with
  | zero => simp [drainWithin, abort] at h
  | succ rounds ih =>
    simp only [drainWithin, bind_eq_ok_iff] at h
    obtain ⟨step?, hstep, h⟩ := h
    cases step? with
    | none =>
      simp only [pure_eq_ok_iff] at h
      subst h
      exact ⟨hrun, step_eq_none_iff.1 hstep⟩
    | some run' => exact ih (hrun.step hstep) h

/-- Executing stored states once more leads from reachable runs to reachable runs. -/
lemma recheckAll_reachable {offsets : List Offset} {changed changed' : Bool}
    (hrun : Reachable context log run)
    (h : run.recheckAll context changed offsets = .ok (changed', next)) :
    Reachable context log next := by
  induction offsets generalizing run changed with
  | nil =>
    simp only [recheckAll, Except.ok.injEq, Prod.mk.injEq] at h
    exact h.2 ▸ hrun
  | cons offset rest ih =>
    simp only [recheckAll, bind_eq_ok_iff, Prod.exists] at h
    obtain ⟨stale, run', hstale, h⟩ := h
    exact ih (hrun.recheck hstale) h

/-- If no meaning has changed, only iterations were spent and all the states are settled. -/
lemma recheckAll_eq_false {offsets : List Offset} {changed : Bool}
    (h : run.recheckAll context changed offsets = .ok (false, next)) :
    changed = false ∧ next = { run with iterations := next.iterations } ∧
      ∀ offset ∈ offsets, run.SettledAt context offset := by
  induction offsets generalizing run changed with
  | nil =>
    simp only [recheckAll, Except.ok.injEq, Prod.mk.injEq] at h
    obtain ⟨rfl, rfl⟩ := h
    exact ⟨rfl, rfl, by simp⟩
  | cons offset rest ih =>
    simp only [recheckAll, bind_eq_ok_iff, Prod.exists] at h
    obtain ⟨stale, run', hstale, h⟩ := h
    obtain ⟨hor, hnext, hsettled⟩ := ih h
    obtain ⟨hchanged, rfl⟩ : changed = false ∧ stale = false := by simpa using hor
    obtain ⟨-, rfl, hoffset⟩ | ⟨hfalse, -⟩ := recheck_cases hstale
    · refine ⟨hchanged, hnext, ?_⟩
      intro o ho
      rcases List.mem_cons.1 ho with rfl | ho
      · exact hoffset
      · exact hsettled o ho
    · exact absurd hfalse (by decide)

/-- Working until nothing changes leads to a settled run with an empty worklist. -/
lemma settleWithin_eq_ok {rounds : Nat} (hrun : Reachable context log run)
    (h : run.settleWithin context rounds = .ok next) :
    Reachable context log next ∧ next.queue = [] ∧ next.Settled context := by
  induction rounds generalizing run with
  | zero => simp [settleWithin, abort] at h
  | succ rounds ih =>
    simp only [settleWithin, bind_eq_ok_iff, Prod.exists] at h
    obtain ⟨drained, hdrain, changed, checked, hcheck, h⟩ := h
    obtain ⟨hdrained, hqueue⟩ := drainWithin_eq_ok hrun hdrain
    have hchecked := recheckAll_reachable hdrained hcheck
    cases changed with
    | true => exact ih hchecked (by simpa using h)
    | false =>
      simp only [Bool.false_eq_true, if_false, pure_eq_ok_iff] at h
      subst h
      obtain ⟨-, hsame, hsettled⟩ := recheckAll_eq_false hcheck
      refine ⟨hchecked, by rw [hsame]; exact hqueue, ?_⟩
      intro offset state hstate
      rw [hsame] at hstate ⊢
      have hstored : drained.states[offset]? = some state := hstate
      have hmem : offset ∈ drained.states :=
        Std.ExtTreeMap.mem_iff_isSome_getElem?.2 (by rw [hstored]; rfl)
      exact hsettled offset (Std.ExtTreeMap.mem_keys.2 hmem) state hstored

end Run

namespace Context

variable {context : Context} {log : Log}

/-- The end of an analysis is a reachable run, its worklist is empty, and it is settled. -/
theorem run_eq_ok {run : Run} (h : context.run log = .ok run) :
    Run.Reachable context log run ∧ run.queue = [] ∧ run.Settled context :=
  Run.settleWithin_eq_ok .seed h

/-- A successful analysis ends with a run that is reachable and settled and has an empty
worklist, and it reports nothing but what that run has reported. -/
theorem infer_eq_ok {inference : Inference} (h : (context.infer log).2 = .ok inference) :
    ∃ run, inference = .ofRun context.subject run ∧
      Run.Reachable context (context.announce log (.started context.subject.id
        context.subject.offset context.entryKey)) run ∧
      run.queue = [] ∧ run.Settled context ∧ (context.infer log).1.Extends run.log := by
  unfold infer at h ⊢
  simp only at h ⊢
  cases hrun : context.run (context.announce log (.started context.subject.id
      context.subject.offset context.entryKey)) with
  | error => simp [hrun] at h
  | ok run =>
    simp only [hrun, Except.ok.injEq] at h
    obtain ⟨hreachable, hqueue, hsettled⟩ := run_eq_ok hrun
    exact ⟨run, h.symm, hreachable, hqueue, hsettled, Log.push_extends _ _⟩

end Context

end KeyedVM
