import KeyedVM.Proofs.Inference.Runs

set_option relaxedAutoImplicit false
set_option autoImplicit false

/-!
# The log is only written

An analysis adds reports to its log and never looks at them.  What it finds therefore does not
depend on the log it is given, nor on which severities that log keeps.  All that an analysis
reports can be read off the log of the same analysis that keeps everything.

## Main definitions

* `KeyedVM.Run.withLog` — a run with another log;
* `KeyedVM.SameOutcome` — two outcomes that agree but for the log;
* `KeyedVM.Context.reports` — all the reports of an analysis.

## Main results

* `KeyedVM.Context.infer_log` — the result of an analysis does not depend on the log.
-/

namespace KeyedVM

/-- Two outcomes of a part of an analysis agree: both fail with the same error, or both succeed
with related results. -/
inductive SameOutcome {α : Type} (R : α → α → Prop) : Except Aborted α → Except Aborted α → Prop
  | ok {a b : α} : R a b → SameOutcome R (.ok a) (.ok b)
  | error {error : Error} {log log' : Log} :
      SameOutcome R (.error ⟨error, log⟩) (.error ⟨error, log'⟩)

/-- Outcomes of sequences agree if the outcomes of their parts do. -/
lemma SameOutcome.bind {α β : Type} {R : α → α → Prop} {S : β → β → Prop}
    {x y : Except Aborted α} {f g : α → Except Aborted β} (h : SameOutcome R x y)
    (hfg : ∀ a b, R a b → SameOutcome S (f a) (g b)) : SameOutcome S (x >>= f) (y >>= g) := by
  cases h with
  | ok hab => exact hfg _ _ hab
  | error => exact .error

namespace Run

variable {context : Context}

/-- A run with another log. -/
def withLog (run : Run) (log : Log) : Run := { run with log }

/-- Two runs know the same, apart from their logs. -/
def Alike (a b : Run) : Prop := ∃ log, a = b.withLog log

/-- Whether a step succeeds has nothing to do with the log. -/
lemma attempt_same {α : Type} (run : Run) (log : Log) (result : Except Error α) :
    SameOutcome (· = ·) ((run.withLog log).attempt result) (run.attempt result) := by
  cases result with
  | error => exact .error
  | ok => exact .ok rfl

/-- A tick does the same whatever the log. -/
lemma tick_same (run : Run) (log : Log) :
    SameOutcome Alike ((run.withLog log).tick context) (run.tick context) := by
  by_cases h : run.iterations < context.settings.maxIterations
  · simp only [tick, withLog, h, if_true]
    exact .ok ⟨log, rfl⟩
  · simp only [tick, withLog, h, if_false]
    exact .error

/-- Taking over an execution does the same whatever the log. -/
lemma absorb_alike (run : Run) (log : Log) (finding : Finding) (effects : Effects) :
    Alike ((run.withLog log).absorb context finding effects)
      (run.absorb context finding effects) := by
  refine ⟨((run.withLog log).absorb context finding effects).log, ?_⟩
  rw [absorb_eq, @absorb_eq context run]
  rfl

/-- Joining states does the same whatever the log. -/
lemma joined_alike (run : Run) (log : Log) (incoming : State) (merged : State.Merged) :
    Alike ((run.withLog log).joined context incoming merged)
      (run.joined context incoming merged) := by
  refine ⟨((run.withLog log).joined context incoming merged).log, ?_⟩
  rw [joined_eq, @joined_eq context run]
  rfl

/-- Committing a finding does the same whatever the log. -/
lemma commit_same (run : Run) (log : Log) (finding : Finding) (effects : Effects) :
    SameOutcome Alike ((run.withLog log).commit context finding effects)
      (run.commit context finding effects) := by
  unfold commit
  cases hk : run.findings[finding.offset]? with
  | none =>
    simp only [withLog, hk]
    exact .ok (absorb_alike run log finding effects)
  | some known =>
    simp only [withLog, hk]
    split
    · exact .ok (absorb_alike run log finding effects)
    · exact .error

/-- A visit does the same whatever the log. -/
lemma visit_same (run : Run) (log : Log) (state : State) :
    SameOutcome Alike ((run.withLog log).visit context state) (run.visit context state) := by
  apply (attempt_same run log _).bind
  rintro ⟨finding, effects⟩ _ rfl
  exact commit_same run log finding effects

/-- An arrival does the same whatever the log. -/
lemma arrive_same (run : Run) (log : Log) (incoming : State) :
    SameOutcome Alike ((run.withLog log).arrive context incoming)
      (run.arrive context incoming) := by
  cases hstored : run.states[incoming.ip]? with
  | none =>
    have hstored' : (run.withLog log).states[incoming.ip]? = none := hstored
    rw [arrive, arrive, hstored, hstored']
    exact visit_same { run with states := run.states.insert incoming.ip incoming } log incoming
  | some stored =>
    have hstored' : (run.withLog log).states[incoming.ip]? = some stored := hstored
    rw [arrive_of_stored hstored, arrive_of_stored hstored']
    apply (attempt_same run log _).bind
    rintro merged _ rfl
    obtain ⟨log', hlog⟩ := @joined_alike context run log incoming merged
    simp only [hlog]
    split
    · exact visit_same _ log' merged.state
    · exact .ok ⟨log', rfl⟩

/-- A step of the worklist does the same whatever the log. -/
lemma step_same (run : Run) (log : Log) :
    SameOutcome (Option.Rel Alike) ((run.withLog log).step context) (run.step context) := by
  cases hqueue : run.queue with
  | nil =>
    have hqueue' : (run.withLog log).queue = [] := hqueue
    rw [step, step, hqueue, hqueue']
    exact .ok .none
  | cons incoming rest =>
    have hqueue' : (run.withLog log).queue = incoming :: rest := hqueue
    rw [step, step, hqueue, hqueue']
    apply (tick_same { run with queue := rest } log).bind
    rintro _ ticked ⟨log', rfl⟩
    apply (arrive_same ticked log' incoming).bind
    rintro _ arrived ⟨log', rfl⟩
    exact .ok (.some ⟨log', rfl⟩)

/-- One more execution does the same whatever the log. -/
lemma recheck_same (run : Run) (log : Log) (offset : Offset) :
    SameOutcome (fun a b => a.1 = b.1 ∧ Alike a.2 b.2)
      ((run.withLog log).recheck context offset) (run.recheck context offset) := by
  apply (tick_same run log).bind
  rintro _ ticked ⟨log', rfl⟩
  cases hstate : ticked.states[offset]? with
  | none =>
    have hstate' : (ticked.withLog log').states[offset]? = none := hstate
    simp only [hstate']
    exact .ok ⟨rfl, log', rfl⟩
  | some state =>
    have hstate' : (ticked.withLog log').states[offset]? = some state := hstate
    simp only [hstate']
    apply (attempt_same ticked log' _).bind
    rintro ⟨finding, effects⟩ _ rfl
    have hfindings : (ticked.withLog log').findings = ticked.findings := rfl
    simp only [hfindings]
    split
    · apply (commit_same ticked log' finding effects).bind
      rintro _ committed ⟨log'', rfl⟩
      exact .ok ⟨rfl, log'', rfl⟩
    · exact .ok ⟨rfl, log', rfl⟩

/-- Executing all stored states once more does the same whatever the log. -/
lemma recheckAll_same (run : Run) (log : Log) (changed : Bool) (offsets : List Offset) :
    SameOutcome (fun a b => a.1 = b.1 ∧ Alike a.2 b.2)
      ((run.withLog log).recheckAll context changed offsets)
      (run.recheckAll context changed offsets) := by
  induction offsets generalizing run log changed with
  | nil => exact .ok ⟨rfl, log, rfl⟩
  | cons offset rest ih =>
    apply (recheck_same run log offset).bind
    rintro ⟨stale, a⟩ ⟨stale', checked⟩ ⟨hstale, log', ha⟩
    obtain rfl : stale = stale' := hstale
    obtain rfl : a = checked.withLog log' := ha
    exact ih checked log' (changed || stale)

/-- Working off the worklist does the same whatever the log. -/
lemma drainWithin_same (run : Run) (log : Log) (rounds : Nat) :
    SameOutcome Alike ((run.withLog log).drainWithin context rounds)
      (run.drainWithin context rounds) := by
  induction rounds generalizing run log with
  | zero => exact .error
  | succ rounds ih =>
    apply (step_same run log).bind
    rintro _ _ (⟨⟨log', rfl⟩⟩ | _)
    · exact ih _ log'
    · exact .ok ⟨log, rfl⟩

/-- The whole loop does the same whatever the log. -/
lemma settleWithin_same (run : Run) (log : Log) (rounds : Nat) :
    SameOutcome Alike ((run.withLog log).settleWithin context rounds)
      (run.settleWithin context rounds) := by
  induction rounds generalizing run log with
  | zero => exact .error
  | succ rounds ih =>
    apply (drainWithin_same run log _).bind
    rintro _ drained ⟨log', rfl⟩
    apply (recheckAll_same drained log' false _).bind
    rintro ⟨changed, a⟩ ⟨changed', checked⟩ ⟨hchanged, log', ha⟩
    obtain rfl : changed = changed' := hchanged
    obtain rfl : a = checked.withLog log' := ha
    simp only
    split
    · exact ih checked log'
    · exact .ok ⟨log', rfl⟩

end Run

namespace Context

/-- **The result of an analysis does not depend on the log.**

**Proof sketch.** Two analyses with different logs start with runs that are alike.  Every step of
one is matched by a step of the other that leads to runs that are alike, or both fail with the
same error. -/
theorem infer_log (context : Context) (log log' : Log) :
    (context.infer log).2 = (context.infer log').2 := by
  have h : SameOutcome Run.Alike
      (context.run (context.announce log (.started context.subject.id context.subject.offset
        context.entryKey)))
      (context.run (context.announce log' (.started context.subject.id context.subject.offset
        context.entryKey))) :=
    Run.settleWithin_same (Run.seed context.subject.offset context.entryKey
      (context.announce log' _)) (context.announce log _) _
  unfold infer
  simp only
  generalize context.run (context.announce log _) = x at h ⊢
  generalize context.run (context.announce log' _) = y at h ⊢
  cases h with
  | ok halike =>
    obtain ⟨log'', rfl⟩ := halike
    rfl
  | error => rfl

/-- Everything that the analysis reports, whatever is kept of it elsewhere. -/
def reports (context : Context) : List Diagnostic :=
  (context.infer (Log.withThreshold .debug)).1.entries.toList

end Context

end KeyedVM
