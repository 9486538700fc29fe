import KeyedVM.Proofs.Inference.Faults
import KeyedVM.Proofs.Inference.Settling
import Mathlib.Order.Filter.AtTopBot.Basic

set_option relaxedAutoImplicit false
set_option autoImplicit false

/-!
# Termination without a limit

The limit of iterations is never needed to bring an analysis to its end: under all limits that are
large enough, the analysis of a function comes to the same outcome, and it is not that the limit was
reached.  The limit enters in one place only, where an iteration is counted.  So what one step does
under a limit that is not yet reached it does under every larger one, and both loops end because
each of their rounds leaves less to be done.

## Main definitions

* `KeyedVM.Context.withLimit` — the same context with another limit of iterations;
* `KeyedVM.Conclusive` — a computation that comes to the same outcome under all large limits.

## Main results

* `KeyedVM.Run.drain_conclusive` — emptying the worklist is conclusive;
* `KeyedVM.Run.settleWithin_conclusive` — so is working until nothing changes;
* `KeyedVM.Image.infer_conclusive` — every analysis comes to an end by itself.
-/

namespace KeyedVM

open Filter

/-- The same context with another limit of iterations. -/
def Context.withLimit (context : Context) (limit : ℕ) : Context :=
  { context with settings := { context.settings with maxIterations := limit } }

/-! ## Conclusive computations -/

/-- A computation that comes to the same outcome under all limits that are large enough, and the
outcome is not that the limit was reached. -/
def Conclusive {α : Type} (f : ℕ → Except Aborted α) : Prop :=
  ∃ outcome, FailsOnly (¬ ·.error.IsLimit) outcome ∧ ∀ᶠ limit in atTop, f limit = outcome

namespace Conclusive

variable {α β : Type} {f : ℕ → Except Aborted α} {g : ℕ → α → Except Aborted β}

/-- What comes to one outcome in the end, which is not about the limit, is conclusive. -/
lemma of_eventually {outcome : Except Aborted α} (houtcome : FailsOnly (¬ ·.error.IsLimit) outcome)
    (h : ∀ᶠ limit in atTop, f limit = outcome) : Conclusive f := ⟨outcome, houtcome, h⟩

/-- Success under every limit is conclusive. -/
lemma ok (a : α) : Conclusive fun _ => (.ok a : Except Aborted α) :=
  of_eventually (.ok a) (.of_forall fun _ => rfl)

/-- What does not depend on the limit and fails with located errors only is conclusive. -/
lemma of_located {outcome : Except Aborted α} (houtcome : FailsOnly Aborted.IsLocated outcome)
    (h : ∀ limit, f limit = outcome) : Conclusive f :=
  of_eventually (houtcome.mono fun _ => Error.IsLocated.not_isLimit) (.of_forall h)

/-- What comes to agree with a conclusive computation is conclusive. -/
lemma congr {f' : ℕ → Except Aborted α} (hf : Conclusive f)
    (h : ∀ᶠ limit in atTop, f' limit = f limit) : Conclusive f' := by
  obtain ⟨outcome, houtcome, hsame⟩ := hf
  refine of_eventually houtcome ?_
  filter_upwards [h, hsame] with limit hlimit hlimit'
  exact hlimit.trans hlimit'

/-- A sequence is conclusive if its first part is, and if its second part is for the value of the
first. -/
lemma bind (hf : Conclusive f)
    (hg : ∀ a, (∀ᶠ limit in atTop, f limit = .ok a) → Conclusive fun limit => g limit a) :
    Conclusive fun limit => f limit >>= g limit := by
  obtain ⟨outcome, houtcome, hsame⟩ := hf
  cases outcome with
  | error aborted =>
    refine of_eventually (.error (houtcome aborted rfl)) ?_
    filter_upwards [hsame] with limit hlimit
    rw [hlimit]
    rfl
  | ok a =>
    refine (hg a hsame).congr ?_
    filter_upwards [hsame] with limit hlimit
    rw [hlimit]
    rfl

end Conclusive

/-! ## Steps -/

namespace Run

variable {context : Context} {log : Log} {run next : Run}

/-- An iteration is counted under every limit that is not yet reached. -/
lemma tick_conclusive (context : Context) (run : Run) :
    Conclusive fun limit => run.tick (context.withLimit limit) := by
  refine .of_eventually (.ok { run with iterations := run.iterations + 1 }) ?_
  filter_upwards [eventually_gt_atTop run.iterations] with limit hlimit
  exact if_pos hlimit

/-- A state arrives in the same way under every limit. -/
lemma arrive_withLimit (context : Context) (run : Run) (incoming : State) (limit : ℕ) :
    run.arrive (context.withLimit limit) incoming = run.arrive context incoming := rfl

/-- A state is executed in the same way under every limit. -/
lemma attempt_withLimit (context : Context) (run : Run) (state : State) (limit : ℕ) :
    run.attempt ((context.withLimit limit).execute run.findings state)
      = run.attempt (context.execute run.findings state) := rfl

/-- The result of an execution is taken over in the same way under every limit. -/
lemma commit_withLimit (context : Context) (run : Run) (finding : Finding) (effects : Effects)
    (limit : ℕ) : run.commit (context.withLimit limit) finding effects
      = run.commit context finding effects := rfl

/-- What is left to be done does not depend on the limit. -/
lemma work_withLimit (context : Context) (run : Run) (limit : ℕ) :
    run.work (context.withLimit limit) = run.work context := rfl

/-- A step of the worklist is conclusive. -/
lemma step_conclusive (context : Context) (run : Run) :
    Conclusive fun limit => run.step (context.withLimit limit) := by
  unfold step
  cases run.queue with
  | nil => exact .ok none
  | cons incoming rest =>
    refine (tick_conclusive context _).bind fun ticked _ => ?_
    have harrive := Conclusive.of_located (ticked.arrive_located incoming)
      (arrive_withLimit context ticked incoming)
    exact harrive.bind fun next _ => .ok (some next)

/-- One more execution of a stored state is conclusive. -/
lemma recheck_conclusive (context : Context) (run : Run) (offset : Offset) :
    Conclusive fun limit => run.recheck (context.withLimit limit) offset := by
  refine (tick_conclusive context run).bind fun ticked _ => ?_
  cases ticked.states[offset]? with
  | none => exact .ok _
  | some state =>
    have hexecute := Conclusive.of_located
      (ticked.attempt_located (context.execute_located ticked.findings state))
      (attempt_withLimit context ticked state)
    refine hexecute.bind fun (finding, effects) _ => ?_
    dsimp only
    split
    · have hcommit := Conclusive.of_located (ticked.commit_located finding effects)
        (commit_withLimit context ticked finding effects)
      exact hcommit.bind fun next _ => .ok (true, next)
    · exact .ok _

/-- Executing all stored states once more is conclusive. -/
lemma recheckAll_conclusive (context : Context) (run : Run) (changed : Bool)
    (offsets : List Offset) :
    Conclusive fun limit => run.recheckAll (context.withLimit limit) changed offsets := by
  induction offsets generalizing run changed with
  | nil => exact .ok _
  | cons offset rest ih =>
    exact (recheck_conclusive context run offset).bind fun (_, next) _ => ih next _

/-! ## The inner loop -/

/-- Taking over effects takes no iteration. -/
@[simp] lemma absorb_iterations (finding : Finding) (effects : Effects) :
    (run.absorb context finding effects).iterations = run.iterations := by
  rw [absorb_eq]

/-- A visit takes no iteration. -/
lemma visit_iterations {state : State} (h : run.visit context state = .ok next) :
    next.iterations = run.iterations := by
  obtain ⟨finding, effects, -, hcommit⟩ := visit_eq_ok_iff.1 h
  obtain ⟨-, rfl⟩ := commit_eq_ok_iff.1 hcommit
  exact absorb_iterations finding effects

/-- A step spends one iteration. -/
lemma step_iterations (h : run.step context = .ok (some next)) :
    run.iterations < context.settings.maxIterations ∧ next.iterations = run.iterations + 1 := by
  obtain ⟨incoming, rest, -, hlt, harrive⟩ := step_cases h
  refine ⟨hlt, ?_⟩
  obtain ⟨-, hnext⟩ | ⟨stored, merged, -, -, -, rfl⟩ | ⟨stored, merged, -, -, -, hnext⟩ :=
    arrive_cases harrive
  · exact visit_iterations hnext
  · rw [joined_eq]
  · rw [visit_iterations hnext, joined_eq]

/-- Emptying the worklist is one step, and then emptying the rest of it: the number of rounds that
are left is the number of iterations that are left. -/
lemma drain_eq (context : Context) (run : Run) : run.drain context = (do
    match ← run.step context with
    | none => return run
    | some next => next.drain context) := by
  unfold drain
  rw [drainWithin]
  cases hstep : run.step context with
  | error aborted => rfl
  | ok step? =>
    cases step? with
    | none => rfl
    | some next =>
      obtain ⟨hlt, hnext⟩ := step_iterations hstep
      have hrounds : context.settings.maxIterations - next.iterations + 1
          = context.settings.maxIterations - run.iterations := by omega
      change next.drainWithin context _ = next.drainWithin context _
      rw [hrounds]

/-- **Emptying the worklist is conclusive.** -/
theorem drain_conclusive (context : Context) (run : Run) :
    Conclusive fun limit => run.drain (context.withLimit limit) := by
  -- each step leaves less to be done: potential, or else states on the worklist
  induction hmeasure : toLex (run.potential, run.queue.length) using WellFoundedLT.induction
    generalizing run with
  | _ measure ih =>
  subst hmeasure
  refine Conclusive.congr ?_ (.of_forall fun limit => drain_eq (context.withLimit limit) run)
  refine (step_conclusive context run).bind fun step? hstep => ?_
  cases step? with
  | none => exact .ok run
  | some next =>
    obtain ⟨limit, hlimit⟩ := hstep.exists
    refine ih _ ?_ next rfl
    rcases step_advances hlimit with hless | ⟨hstates, -, hqueue⟩
    · exact Prod.Lex.left _ _ hless
    · rw [potential_congr hstates]
      exact Prod.Lex.right _ hqueue

/-! ## The outer loop -/

/-- **Working until nothing changes is conclusive**, for any number of rounds that grows with the
limit. -/
theorem settleWithin_conclusive (context : Context) (run : Run)
    (hrun : ∀ᶠ limit in atTop, Reachable (context.withLimit limit) log run) {rounds : ℕ → ℕ}
    (hrounds : Tendsto rounds atTop atTop) :
    Conclusive fun limit => run.settleWithin (context.withLimit limit) (rounds limit) := by
  induction hwork : run.work context using WellFoundedLT.induction generalizing run rounds with
  | _ work ih =>
  subst hwork
  have hpos : ∀ᶠ limit in atTop, rounds limit = rounds limit - 1 + 1 := by
    filter_upwards [hrounds.eventually_gt_atTop 0] with limit hlimit
    omega
  have hless : Tendsto (fun limit => rounds limit - 1) atTop atTop :=
    (tendsto_sub_atTop_nat 1).comp hrounds
  have hround : Conclusive fun limit =>
      run.settleWithin (context.withLimit limit) (rounds limit - 1 + 1) := by
    refine (drain_conclusive context run).bind fun drained hdrain => ?_
    refine (recheckAll_conclusive context drained _ _).bind fun (changed, next) hcheck => ?_
    cases changed with
    | false => exact .ok next
    | true =>
      refine ih _ ?_ next ?_ hless rfl
      · obtain ⟨limit, hlimit, hdrain, hcheck⟩ := (hrun.and (hdrain.and hcheck)).exists
        rw [← work_withLimit context next limit, ← work_withLimit context run limit]
        exact round_descends hlimit hdrain hcheck
      · filter_upwards [hrun, hdrain, hcheck] with limit hlimit hdrain hcheck
        exact recheckAll_reachable (drainWithin_eq_ok hlimit hdrain).1 hcheck
  refine hround.congr ?_
  filter_upwards [hpos] with limit hlimit
  rw [← hlimit]

end Run

/-! ## The whole analysis -/

/-- **A whole run is conclusive**: the potential bounds the iterations that it can take. -/
lemma Context.run_conclusive (context : Context) (log : Log) :
    Conclusive fun limit => (context.withLimit limit).run log := by
  have hseed : ∀ limit, Run.Reachable (context.withLimit limit) log
      (.seed context.subject.offset context.entryKey log) := fun _ => .seed
  exact Run.settleWithin_conclusive context _ (.of_forall hseed) (tendsto_add_atTop_nat 1)

/-- Under all limits that are large enough, an analysis makes the same reports and comes to the same
outcome. -/
lemma Context.infer_eventually (context : Context) (log : Log) :
    ∃ log' outcome, FailsOnly (¬ ·.IsLimit) outcome ∧
      ∀ᶠ limit in atTop, (context.withLimit limit).infer log = (log', outcome) := by
  obtain ⟨last, hlast, hsame⟩ := context.run_conclusive (context.announce log
    (.started context.subject.id context.subject.offset context.entryKey))
  cases last with
  | error aborted =>
    refine ⟨aborted.log, .error aborted.error, .error (hlast aborted rfl), ?_⟩
    filter_upwards [hsame] with limit hlimit
    unfold Context.infer
    dsimp only
    split
    · next hrun => rw [Except.error.inj (hrun.symm.trans hlimit)]
    · next hrun => cases hrun.symm.trans hlimit
  | ok run =>
    refine ⟨context.announce run.log (.finished context.subject.id run.findings.size
      run.headers.size run.iterations), .ok (.ofRun context.subject run), .ok _, ?_⟩
    filter_upwards [hsame] with limit hlimit
    unfold Context.infer
    dsimp only
    split
    · next hrun => cases hrun.symm.trans hlimit
    · next hrun =>
      rw [Except.ok.inj (hrun.symm.trans hlimit)]
      rfl

/-- **Every analysis comes to an end by itself.**  For every function of every program there is a
bound such that under all limits of iterations from it on the analysis comes to the same outcome,
with the same reports, and the outcome is not that the limit was reached.

**Proof sketch.** There are finitely many offsets, so finitely often a new one is explored or a
stored state grows; in between, each step shortens the worklist.  After a revalidation all states
are settled, and if nothing is explored and nothing grows until the next one, that one changes
nothing and is the last. -/
theorem Image.infer_conclusive (image : Image) (settings : Settings) (log : Log) (id : ExportId) :
    ∃ bound log' outcome, (∀ limit, outcome ≠ .error (.iterationLimit limit)) ∧
      ∀ limit ≥ bound,
        image.infer { settings with maxIterations := limit } log id = (log', outcome) := by
  unfold Image.infer
  cases hfind : image.exports.find id with
  | error error =>
    refine ⟨0, log, .error error, fun limit hlimit => ?_, fun limit _ => rfl⟩
    obtain rfl := Except.error.inj hlimit
    unfold ExportTable.find at hfind
    split at hfind <;> cases hfind
  | ok subject =>
    obtain ⟨log', outcome, hfails, hsame⟩ :=
      Context.infer_eventually { image, settings, subject } log
    obtain ⟨bound, hbound⟩ := eventually_atTop.1 hsame
    refine ⟨bound, log', outcome, fun limit hlimit => ?_, hbound⟩
    exact hfails _ hlimit ⟨limit, rfl⟩

end KeyedVM
