import KeyedVM.Proofs.ByteTable.Sequential
import KeyedVM.Proofs.Inference.Runs

set_option relaxedAutoImplicit false
set_option autoImplicit false

/-!
# Larger limits change no success

Two limits bound the work of an analysis: the number of its iterations, and the number of
instructions that may take part in computing one value.  A limit that is reached ends the analysis
with an error.  So an analysis that succeeds has reached none, and under larger limits it takes the
same steps and comes to the same result.

The limits are looked at where an iteration is counted and where a closure grows.  What these two do
under some limits they do under larger ones, if they succeed; all else does not depend on limits,
and a computation is made of both.

## Main definitions

* `KeyedVM.Persists` — whatever a computation succeeds with, another one succeeds with as well;
* `KeyedVM.Context.withLimits` — the same context with other limits.

## Main results

* `KeyedVM.Findings.closure_persists` — a closure that is found is found under larger limits;
* `KeyedVM.Context.execute_persists` — an execution that succeeds does so under larger limits;
* `KeyedVM.Run.step_persists`, `recheck_persists` — and so does every move of an analysis;
* `KeyedVM.Image.infer_persists` — and so does the analysis of a function, with the same result.
-/

namespace KeyedVM

/-! ## Successes that persist -/

/-- Whatever the first computation succeeds with, the second one succeeds with as well. -/
def Persists {ε α : Type} (x y : Except ε α) : Prop := ∀ a, x = .ok a → y = .ok a

namespace Persists

variable {ε α β : Type} {x y : Except ε α} {f g : α → Except ε β}

/-- Every success persists in the same computation. -/
lemma refl (x : Except ε α) : Persists x x := fun _ h => h

/-- An error is no success. -/
lemma error (e : ε) (y : Except ε α) : Persists (.error e) y := by
  intro a h
  cases h

/-- Successes of a sequence persist if those of its parts do. -/
lemma bind (h : Persists x y) (hfg : ∀ a, Persists (f a) (g a)) :
    Persists (x >>= f) (y >>= g) := by
  intro b hb
  obtain ⟨a, ha, hb⟩ := bind_eq_ok_iff.1 hb
  exact bind_eq_ok_iff.2 ⟨a, h a ha, hfg a b hb⟩

/-- Renaming the errors does not affect successes. -/
lemma mapError {ε' : Type} (h : Persists x y) (r : ε → ε') :
    Persists (x.mapError r) (y.mapError r) := by
  intro a ha
  exact mapError_eq_ok_iff.2 (h a (mapError_eq_ok_iff.1 ha))

/-- Successes that persist at every member persist for a whole list. -/
lemma mapM (h : ∀ a, Persists (f a) (g a)) (as : List α) : Persists (as.mapM f) (as.mapM g) := by
  intro bs hbs
  rw [mapM_eq_ok_iff] at hbs ⊢
  exact hbs.imp h

end Persists

/-! ## Evaluations -/

namespace Findings

/-- A closure that was found with less room is found with more. -/
lemma expand_persists (findings : Findings) (limit limit' : Nat) {room room' : Nat}
    (h : room ≤ room') (members : Provenance) (pending : List Offset) :
    Persists (findings.expand limit room members pending)
      (findings.expand limit' room' members pending) := by
  induction room generalizing room' members pending with
  | zero =>
    unfold expand
    split
    · exact .refl _
    · exact .error _ _
  | succ room ih =>
    obtain ⟨more, rfl⟩ : ∃ more, room' = more + 1 := ⟨room' - 1, by omega⟩
    unfold expand
    split
    · exact .refl _
    · exact (Persists.refl _).bind fun producers => ih (by omega) _ _

/-- **A closure that is found is found under larger limits.** -/
theorem closure_persists (findings : Findings) {limit limit' : Nat} (h : limit ≤ limit')
    (source : Offset) :
    Persists (findings.closure limit source) (findings.closure limit' source) :=
  findings.expand_persists limit limit' h ∅ [source]

end Findings

/-- The same context with other limits. -/
def Context.withLimits (context : Context) (iterations closure : Nat) : Context :=
  { context with
    settings := { context.settings with maxIterations := iterations, maxClosure := closure } }

namespace Evaluator

/-- An evaluation that succeeds does so under larger limits. -/
lemma evaluate_persists {context : Context} {closure : Nat} (iterations : Nat)
    (h : context.settings.maxClosure ≤ closure) (findings : Findings) (source consumer : Offset) :
    Persists (evaluate ⟨findings, context.settings⟩ source consumer)
      (evaluate ⟨findings, (context.withLimits iterations closure).settings⟩ source consumer) := by
  refine ((findings.closure_persists h source).mapError _).bind fun members => ?_
  exact .refl _

/-- A value that is resolved under lower limits is resolved alike under higher ones. -/
lemma resolve_persists {context : Context} {closure : Nat} (iterations : Nat)
    (h : context.settings.maxClosure ≤ closure) (findings : Findings) (value : Provenance)
    (consumer : Offset) :
    Persists (resolve ⟨findings, context.settings⟩ value consumer)
      (resolve ⟨findings, (context.withLimits iterations closure).settings⟩ value consumer) := by
  unfold resolve
  split
  · exact .refl _
  · refine (Persists.mapM (fun source => ?_) _).bind fun candidates => .refl _
    exact evaluate_persists iterations h findings source consumer

end Evaluator

/-! ## Executions -/

section Executions

variable {a b : Evaluator}
  (h : ∀ value consumer, Persists (a.resolve value consumer) (b.resolve value consumer))

include h

/-- A single number that is found stays the single number. -/
lemma Evaluator.resolveSingle_persists (value : Provenance) (consumer : Offset) (role : String) :
    Persists (a.resolveSingle value consumer role) (b.resolveSingle value consumer role) :=
  (h value consumer).bind fun _ => .refl _

namespace Transfer

variable (transfer : Transfer)

/-- An argument that is resolved stays what it is. -/
lemma resolveArgument_persists (role : String) :
    Persists (transfer.resolveArgument a role) (transfer.resolveArgument b role) := by
  refine (Persists.refl _).bind fun (value, popped) => ?_
  exact (Evaluator.resolveSingle_persists h value popped.offset role).bind fun _ => .refl _

/-- A call of an external method that succeeds has the same effects. -/
lemma external_persists (image : Image) :
    Persists (transfer.external image a) (transfer.external image b) := by
  refine (transfer.resolveArgument_persists h _).bind fun (raw, popped) => ?_
  dsimp only
  split
  · exact .refl _
  · refine (Persists.refl _).bind fun named => ?_
    split
    · exact .refl _
    · split
      · exact (popped.resolveArgument_persists h _).bind fun _ => .refl _
      · exact .refl _

/-- A helper of any form that succeeds has the same effects. -/
lemma helperForm_persists (image : Image) (call : HelperCall) (form : HelperForm) :
    Persists (transfer.helperForm image a call form) (transfer.helperForm image b call form) := by
  cases form with
  | external => exact transfer.external_persists h image
  | naming role flagged pops pushes =>
    exact (transfer.resolveArgument_persists h role).bind fun _ => .refl _
  | plain pops pushes => exact .refl _
  | throwing => exact (transfer.resolveArgument_persists h _).bind fun _ => .refl _

/-- A helper call that succeeds has the same effects. -/
lemma helperCall_persists (image : Image) :
    Persists (transfer.helperCall image a) (transfer.helperCall image b) := by
  refine (transfer.resolveArgument_persists h _).bind fun (id, popped) => ?_
  dsimp only
  split
  · exact .refl _
  · exact (popped.helperForm_persists h image _ _).bind fun _ => .refl _

end Transfer

namespace Context

variable (transfer : Transfer)

/-- A jump that succeeds has the same effects. -/
lemma jump_persists : Persists (jump a transfer) (jump b transfer) := by
  refine (Persists.refl _).bind fun (target, popped) => ?_
  exact (h target popped.offset).bind fun _ => .refl _

/-- A conditional jump that succeeds has the same effects. -/
lemma conditionalJump_persists :
    Persists (conditionalJump a transfer) (conditionalJump b transfer) := by
  refine (Persists.refl _).bind fun (target, popped) => ?_
  refine (Persists.refl _).bind fun (_, popped) => ?_
  exact (h target popped.offset).bind fun _ => .refl _

/-- A switch that succeeds has the same effects. -/
lemma switch_persists (image : Image) :
    Persists (switch image a transfer) (switch image b transfer) := by
  refine (Persists.refl _).bind fun (address, popped) => ?_
  refine (Persists.refl _).bind fun (_, popped) => ?_
  exact (Evaluator.resolveSingle_persists h address popped.offset _).bind fun _ => .refl _

/-- A call that succeeds has the same effects. -/
lemma call_persists (context : Context) :
    Persists (context.call a transfer) (context.call b transfer) :=
  (transfer.resolveArgument_persists h _).bind fun _ => .refl _

/-- What a handler takes stays what it is. -/
lemma handlerArguments_persists (kind : HandlerKind) :
    Persists (handlerArguments a kind transfer) (handlerArguments b kind transfer) := by
  cases kind with
  | typed => exact (transfer.resolveArgument_persists h _).bind fun _ => .refl _
  | filtered => exact (transfer.resolveArgument_persists h _).bind fun _ => .refl _
  | fault => exact .refl _
  | cleanup => exact .refl _

/-- The entry of a region that succeeds has the same effects. -/
lemma enter_persists (context : Context) :
    Persists (context.enter a transfer) (context.enter b transfer) := by
  refine (transfer.resolveArgument_persists h _).bind fun (raw, kinded) => ?_
  dsimp only
  split
  · exact .refl _
  · refine (handlerArguments_persists h kinded _).bind fun (caught?, filter?, argued) => ?_
    exact (argued.resolveArgument_persists h _).bind fun _ => .refl _

/-- The end of a region that succeeds has the same effects. -/
lemma leave_persists : Persists (leave a transfer) (leave b transfer) :=
  (transfer.resolveArgument_persists h _).bind fun _ => .refl _

/-- An instruction that calls a helper and succeeds has the same effects. -/
lemma helper_persists (image : Image) :
    Persists (helper image a transfer) (helper image b transfer) :=
  (transfer.helperCall_persists h image).bind fun _ => .refl _

end Context

end Executions

namespace Context

variable {context : Context} {closure : Nat} (iterations : Nat)
  (hclosure : context.settings.maxClosure ≤ closure)

include hclosure

/-- Effects that are found under lower limits are the same under higher ones. -/
lemma transfer_persists (findings : Findings) (instruction : Instruction) (state : State)
    (key : Key) : Persists (context.transfer findings instruction state key)
      ((context.withLimits iterations closure).transfer findings instruction state key) := by
  have hresolve := Evaluator.resolve_persists iterations hclosure findings
  unfold transfer
  cases instruction.flow with
  | sequential => exact .refl _
  | jump => exact jump_persists hresolve _
  | conditionalJump => exact conditionalJump_persists hresolve _
  | switch => exact switch_persists hresolve _ context.image
  | call => exact call_persists hresolve _ context
  | ret => exact .refl _
  | enter => exact enter_persists hresolve _ context
  | leave => exact leave_persists hresolve _
  | helper => exact helper_persists hresolve _ context.image

/-- **An execution that succeeds does so under larger limits**, with the same result. -/
theorem execute_persists (findings : Findings) (state : State) :
    Persists (context.execute findings state)
      ((context.withLimits iterations closure).execute findings state) := by
  refine (Persists.refl _).bind fun (instruction, key) => ?_
  exact (transfer_persists iterations hclosure findings instruction state key).bind fun _ => .refl _

end Context

/-! ## Moves of an analysis -/

namespace Run

/-- The successful result of a step of the analysis persists. -/
lemma attempt_persists {α : Type} {x y : Except Error α} (h : Persists x y) (run : Run) :
    Persists (run.attempt x) (run.attempt y) := by
  intro a ha
  exact attempt_eq_ok_iff.2 (h a (attempt_eq_ok_iff.1 ha))

variable {context : Context} {iterations closure : Nat}
  (hiterations : context.settings.maxIterations ≤ iterations)
  (hclosure : context.settings.maxClosure ≤ closure)

section Closures

include hclosure

/-- A visit that succeeds comes to the same run under higher limits. -/
lemma visit_persists (run : Run) (state : State) :
    Persists (run.visit context state)
      (run.visit (context.withLimits iterations closure) state) := by
  have hexecute := context.execute_persists iterations hclosure run.findings state
  exact (attempt_persists hexecute run).bind fun _ => .refl _

/-- An arrival that succeeds comes to the same run under higher limits. -/
lemma arrive_persists (run : Run) (incoming : State) :
    Persists (run.arrive context incoming)
      (run.arrive (context.withLimits iterations closure) incoming) := by
  unfold arrive
  cases run.states[incoming.ip]? with
  | none => exact visit_persists hclosure _ incoming
  | some stored =>
    refine (Persists.refl _).bind fun merged => ?_
    dsimp only
    split
    · exact visit_persists hclosure _ merged.state
    · exact .refl _

end Closures

section Iterations

include hiterations

/-- An iteration that may be counted may be counted under larger limits. -/
lemma tick_persists (run : Run) :
    Persists (run.tick context) (run.tick (context.withLimits iterations closure)) := by
  intro next hnext
  obtain ⟨hlt, rfl⟩ := tick_eq_ok_iff.1 hnext
  exact tick_eq_ok_iff.2 ⟨Nat.lt_of_lt_of_le hlt hiterations, rfl⟩

include hclosure

/-- **A step that succeeds does so under larger limits.** -/
theorem step_persists (run : Run) :
    Persists (run.step context) (run.step (context.withLimits iterations closure)) := by
  unfold step
  cases run.queue with
  | nil => exact .refl _
  | cons incoming rest =>
    refine (tick_persists hiterations _).bind fun ticked => ?_
    exact (arrive_persists hclosure ticked incoming).bind fun _ => .refl _

/-- **A recheck that succeeds does so under larger limits.** -/
theorem recheck_persists (run : Run) (offset : Offset) :
    Persists (run.recheck context offset)
      (run.recheck (context.withLimits iterations closure) offset) := by
  refine (tick_persists hiterations run).bind fun ticked => ?_
  cases ticked.states[offset]? with
  | none => exact .refl _
  | some state =>
    have hexecute := context.execute_persists iterations hclosure ticked.findings state
    exact (attempt_persists hexecute ticked).bind fun _ => .refl _

/-! ## Loops -/

/-- Executing all stored states once more persists, if it succeeds. -/
lemma recheckAll_persists (run : Run) (changed : Bool) (offsets : List Offset) :
    Persists (run.recheckAll context changed offsets)
      (run.recheckAll (context.withLimits iterations closure) changed offsets) := by
  induction offsets generalizing run changed with
  | nil => exact .refl _
  | cons offset rest ih =>
    exact (recheck_persists hiterations hclosure run offset).bind fun (_, next) => ih next _

/-- A worklist that was worked off within fewer rounds is worked off within more. -/
lemma drainWithin_persists {rounds rounds' : Nat} (h : rounds ≤ rounds') (run : Run) :
    Persists (run.drainWithin context rounds)
      (run.drainWithin (context.withLimits iterations closure) rounds') := by
  induction rounds generalizing rounds' run with
  | zero => exact .error _ _
  | succ rounds ih =>
    obtain ⟨more, rfl⟩ : ∃ more, rounds' = more + 1 := ⟨rounds' - 1, by omega⟩
    refine (step_persists hiterations hclosure run).bind fun step? => ?_
    cases step? with
    | none => exact .refl _
    | some next => exact ih (by omega) next

/-- A loop that came to its end within fewer rounds does so within more. -/
lemma settleWithin_persists {rounds rounds' : Nat} (h : rounds ≤ rounds') (run : Run) :
    Persists (run.settleWithin context rounds)
      (run.settleWithin (context.withLimits iterations closure) rounds') := by
  induction rounds generalizing rounds' run with
  | zero => exact .error _ _
  | succ rounds ih =>
    obtain ⟨more, rfl⟩ : ∃ more, rounds' = more + 1 := ⟨rounds' - 1, by omega⟩
    have hrounds : context.settings.maxIterations - run.iterations + 1 ≤
        iterations - run.iterations + 1 := by omega
    refine (drainWithin_persists hiterations hclosure hrounds run).bind fun drained => ?_
    refine (recheckAll_persists hiterations hclosure drained _ _).bind fun (changed, next) => ?_
    dsimp only
    split
    · exact ih (by omega) next
    · exact .refl _

end Iterations

end Run

/-! ## The whole analysis -/

/-- **A run that succeeds under lower limits is the run under higher ones.** -/
lemma Context.run_persists {context : Context} {iterations closure : Nat}
    (hiterations : context.settings.maxIterations ≤ iterations)
    (hclosure : context.settings.maxClosure ≤ closure) (log : Log) :
    Persists (context.run log) ((context.withLimits iterations closure).run log) :=
  Run.settleWithin_persists hiterations hclosure (Nat.succ_le_succ hiterations) _

/-- An analysis that succeeds does so under larger limits, with the same reports and the same
result. -/
lemma Context.infer_withLimits (context : Context) {iterations closure : Nat}
    (hiterations : context.settings.maxIterations ≤ iterations)
    (hclosure : context.settings.maxClosure ≤ closure) {log log' : Log} {inference : Inference}
    (h : context.infer log = (log', .ok inference)) :
    (context.withLimits iterations closure).infer log = (log', .ok inference) := by
  unfold Context.infer at h ⊢
  dsimp only at h ⊢
  split at h
  · cases h
  · next run hrun =>
    have hlater := context.run_persists hiterations hclosure _ run hrun
    split
    · next hfails => cases hfails.symm.trans hlater
    · next hsame =>
      obtain rfl := Except.ok.inj (hsame.symm.trans hlater)
      exact h

/-- **Larger limits change no success.**  If the analysis of a function succeeds, then under limits
that are at least as large it makes the same reports and comes to the same result, with the same
number of iterations.

**Proof sketch.** Both analyses take the same steps.  Under the smaller limits every count of an
iteration and every closure was within them, for otherwise the analysis would have failed; so they
are within the larger ones. -/
theorem Image.infer_persists {image : Image} {settings : Settings} {log log' : Log} {id : ExportId}
    {inference : Inference} {iterations closure : Nat}
    (hiterations : settings.maxIterations ≤ iterations) (hclosure : settings.maxClosure ≤ closure)
    (h : image.infer settings log id = (log', .ok inference)) :
    image.infer { settings with maxIterations := iterations, maxClosure := closure } log id =
      (log', .ok inference) := by
  unfold Image.infer at h ⊢
  cases hfind : image.exports.find id with
  | error error =>
    rw [hfind] at h
    cases h
  | ok subject =>
    rw [hfind] at h
    exact Context.infer_withLimits { image, settings, subject } hiterations hclosure h

/-- The function that jumps to a sum, as the only function of a program. -/
def Image.jumpToSum : Image :=
  { Context.jumpToSum.image with exports := .ofList [Context.jumpToSum.subject] }

/-- The jump to a sum takes 12 iterations, and its target takes 3 instructions to compute.  With
less of either the analysis fails; with more of both it comes to the same result. -/
theorem Image.infer_persists_jumpToSum :
    (jumpToSum.infer { maxIterations := 11, maxClosure := 3 } {} 1).2.isOk = false ∧
    (jumpToSum.infer { maxIterations := 12, maxClosure := 2 } {} 1).2.isOk = false ∧
    ∃ log inference,
      jumpToSum.infer { maxIterations := 12, maxClosure := 3 } {} 1 = (log, .ok inference) ∧
      inference.iterations = 12 ∧
      jumpToSum.infer { maxIterations := 500, maxClosure := 40 } {} 1 = (log, .ok inference) := by
  obtain ⟨inference, hinfer, hiterations⟩ :
      ∃ inference, (jumpToSum.infer { maxIterations := 12, maxClosure := 3 } {} 1).2 =
        .ok inference ∧ inference.iterations = 12 := exists_eq_ok (by decide +kernel)
  have hpair : jumpToSum.infer { maxIterations := 12, maxClosure := 3 } {} 1 =
      ((jumpToSum.infer { maxIterations := 12, maxClosure := 3 } {} 1).1, .ok inference) :=
    Prod.ext rfl hinfer
  refine ⟨by decide +kernel, by decide +kernel, _, inference, hpair, hiterations, ?_⟩
  exact infer_persists (by decide) (by decide) hpair

end KeyedVM
