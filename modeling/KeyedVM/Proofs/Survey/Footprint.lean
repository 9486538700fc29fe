import KeyedVM.Proofs.Survey.ExitKeys

set_option relaxedAutoImplicit false
set_option autoImplicit false

/-!
# What a survey changes

A survey writes exit keys into the table of functions between its rounds.  However it ends, nothing
else of the program has changed.  A fatal error in the first round comes before any key is written,
and a report agrees with the table: every function in it that was found to return has the key with
which it does, and the functions that were left out have the keys that they had.

## Main definitions

* `KeyedVM.Stage.Spares` — functions that a survey is not about have the keys that they had.

## Main results

* `KeyedVM.Survey.run_of_round_error` — if the first round fails, the program stays as it is;
* `KeyedVM.Stage.Reached.spares` — at no stage has a key of another function changed;
* `KeyedVM.Survey.run_footprint` — a survey changes exit keys only, and they match its report.
-/

namespace KeyedVM

/-! ## The first round -/

namespace Survey

variable {survey : Survey} {error : Error}

/-- What a round comes to does not depend on what was reported before. -/
lemma round_withLog (survey : Survey) (log : Log) (progress : Progress) (pending : List ExportId) :
    (round { survey with log } progress pending).2 = (survey.round progress pending).2 := by
  obtain ⟨_, hinfer⟩ := survey.exists_inferAll pending
  obtain ⟨_, hinfer'⟩ := exists_inferAll { survey with log } pending
  simp only [round, hinfer, hinfer']
  split
  · rfl
  · rfl

/-- **If the first round fails, the program stays as it is**, and the survey ends with the error of
the round.

**Proof sketch.** All functions are in the table, so that their keys can be recorded: what fails is
the analysis of a function, and this comes before any key is recorded. -/
theorem run_of_round_error (h : (survey.round {} survey.subjects).2 = .error error)
    (elapsed : String) :
    (survey.run elapsed).2 = .error error ∧ (survey.run elapsed).1.image = survey.image := by
  obtain ⟨log, survey', outcome, hrounds, himage, houtcome⟩ := survey.exists_run elapsed
  have hstart :
      Stage.Reached survey { survey := { survey with log }, pending := survey.subjects } :=
    .start log
  have hbusy : survey.subjects.isEmpty = false := by
    rw [← Bool.not_eq_true, List.isEmpty_iff]
    intro hnone
    rw [hnone] at h
    cases h
  rw [← round_withLog survey log] at h
  rcases hstart.framed.round_cases with ⟨log', error', herror, -⟩ | ⟨_, _, _, hok, -⟩
  · have hround : round { survey with log } {} survey.subjects =
        ({ survey with log := log' }, .error error') := herror
    obtain rfl : error' = error := by
      rw [hround] at h
      exact Except.error.inj h
    unfold rounds at hrounds
    rw [hbusy, if_neg Bool.false_ne_true, hround] at hrounds
    obtain ⟨rfl, rfl⟩ := Prod.mk.inj hrounds
    exact ⟨houtcome, himage⟩
  · have hround : (round { survey with log } {} survey.subjects).2 = _ := congrArg Prod.snd hok
    rw [h] at hround
    cases hround

end Survey

/-! ## The other functions -/

namespace Stage

variable {start : Survey} {stage stage' : Stage}

/-- The functions that a survey is not about have the exit keys that they had. -/
def Spares (start : Survey) (stage : Stage) : Prop :=
  ∀ id, id ∉ start.subjects →
    stage.survey.image.exports.exitKey? id = start.image.exports.exitKey? id

/-- A turn writes the exit keys of results only, and these are of functions of the survey. -/
lemma Spares.turn (h : stage.Spares start) (hframed : stage.Framed start)
    (hturn : stage.Turn stage') : stage'.Spares start := by
  intro id hid
  have hnone : stage'.progress.results[id]? = none :=
    Std.ExtTreeMap.getElem?_eq_none fun hmem => hid ((hframed.turn hturn).results id hmem)
  rw [hturn.keys, hnone, Option.bind_none, Option.none_or]
  exact h id hid

/-- **At no stage has a key of another function changed.** -/
theorem Reached.spares (h : Reached start stage) : stage.Spares start :=
  (h.induct (fun _ _ _ => rfl) fun _ _ _ hframed hold _ hturn => hold.turn hframed hturn).2

end Stage

/-! ## The whole survey -/

namespace Survey

/-- Whether a survey makes a report or fails, the program behind it is that of some stage. -/
lemma exists_reached_image (survey : Survey) (elapsed : String) :
    ∃ stage, Stage.Reached survey stage ∧ (survey.run elapsed).1.image = stage.survey.image := by
  rcases survey.run_cases elapsed with ⟨stage, _, hreached, -, himage, -⟩ |
      ⟨stage, hreached, himage, -⟩
  · exact ⟨stage, hreached, himage⟩
  · exact ⟨stage, hreached, himage⟩

/-- A report lists the functions that the survey has left out. -/
lemma skipped_of_run {survey : Survey} {elapsed : String} {report : Report}
    (h : (survey.run elapsed).2 = .ok report) : report.skipped = survey.leftOut := by
  obtain ⟨-, -, outcome, -, -, houtcome⟩ := survey.exists_run elapsed
  rw [houtcome] at h
  obtain ⟨⟨progress, rounds⟩, -, rfl⟩ := map_eq_ok_iff.1 h
  exact (reflects_buildGraphs progress survey.leftOut rounds).2.1

/-- **A survey changes exit keys only, and they match its report.**  Whatever its outcome, code,
byte table and references are as before, and so are the functions but for their exit keys.  If the
first round fails, the exit keys are as before as well.  If a report is made, then every function in
it that was found to return has the key with which it does, and every function that was left out has
the key that it had.

**Proof sketch.** At every stage the program differs from the one at the start in exit keys at most.
A turn records the exit keys of all results that are kept, also of those from earlier rounds, so
that at every stage the table has the key of every result; and the results are of functions that are
not left out. -/
theorem run_footprint (survey : Survey) (elapsed : String) :
    survey.image.Resembles (survey.run elapsed).1.image ∧
    (∀ error, (survey.round {} survey.subjects).2 = .error error →
      (survey.run elapsed).2 = .error error ∧ (survey.run elapsed).1.image = survey.image) ∧
    ∀ report, (survey.run elapsed).2 = .ok report →
      (∀ (id : ExportId) (recovered : Recovered) (key : Key),
        report.exports[id]? = some recovered → recovered.inference.exitKey? = some key →
        (survey.run elapsed).1.image.exports.exitKey? id = some key) ∧
      ∀ id ∈ report.skipped,
        (survey.run elapsed).1.image.exports.exitKey? id = survey.image.exports.exitKey? id := by
  refine ⟨?_, fun error h => run_of_round_error h elapsed, fun report hreport => ⟨?_, ?_⟩⟩
  · obtain ⟨stage, hreached, himage⟩ := survey.exists_reached_image elapsed
    rw [himage]
    exact hreached.framed.resembles
  · intro id recovered key hid hkey
    obtain ⟨stage, hreached, himage, hreflects, -⟩ := exists_stage hreport
    obtain ⟨hresult, -⟩ := hreflects.exports id recovered hid
    rw [himage]
    exact hreached.holds id recovered.inference key hresult hkey
  · intro id hid
    rw [skipped_of_run hreport] at hid
    obtain ⟨stage, hreached, himage⟩ := survey.exists_reached_image elapsed
    rw [himage]
    exact hreached.spares id fun hsubject => (mem_subjects.1 hsubject).2 hid

end Survey

/-- Two functions.  The function 1 leaves a protected region, but none is open; the function 2
returns at once, but its exit key in the table is not the one with which it does. -/
def Image.unfenced : Image where
  blob := .ofBlocks .sequential
    [(0, [(.pushi .dword, .dword 0), (.leave, .none)]),
      (0, [(.pushi .dword, .dword 0), (.ret, .none)])]
  table := .sequential
  exports := .ofList [
    { id := 1, offset := 0, entryKey? := some 0 },
    { id := 2, offset := 8, entryKey? := some 0, exitKey? := some 1 }]
  references := ∅

/-- One survey learns the exit key of the function 2 and leaves the function 0 out.  Another one
fails in its first round, and the exit key of its function 2 stays as it is. -/
theorem Survey.run_footprint_mixed :
    (∃ report, ((start .mixed {}).run "").2 = .ok report ∧ 0 ∈ report.skipped ∧
      (∃ recovered ∈ report.exports[(2 : ExportId)]?,
        recovered.inference.exitKey? = some 46942392) ∧
      Image.mixed.exports.exitKey? 2 = some 1 ∧
      ((start .mixed {}).run "").1.image.exports.exitKey? 2 = some 46942392 ∧
      ((start .mixed {}).run "").1.image.exports.exitKey? 0 = Image.mixed.exports.exitKey? 0) ∧
    ∃ error, ((start .unfenced {}).round {} (start .unfenced {}).subjects).2 = .error error ∧
      ((start .unfenced {}).run "").2 = .error error ∧
      ((start .unfenced {}).run "").1.image = .unfenced := by
  obtain ⟨report, hreport, hskipped, recovered, hrecovered, hkey⟩ :
      ∃ report, ((start .mixed {}).run "").2 = .ok report ∧ 0 ∈ report.skipped ∧
        ∃ recovered ∈ report.exports[(2 : ExportId)]?,
          recovered.inference.exitKey? = some 46942392 := exists_eq_ok (by decide +kernel)
  obtain ⟨-, -, hmatches⟩ := (start .mixed {}).run_footprint ""
  obtain ⟨hkeys, hspared⟩ := hmatches report hreport
  obtain ⟨-, hfirst, -⟩ := (start .unfenced {}).run_footprint ""
  refine ⟨⟨report, hreport, hskipped, ⟨recovered, hrecovered, hkey⟩, by decide +kernel,
    hkeys 2 recovered _ hrecovered hkey, hspared 0 hskipped⟩, ?_⟩
  have hfails : ((start .unfenced {}).round {} (start .unfenced {}).subjects).2.isOk = false := by
    decide +kernel
  cases hround : ((start .unfenced {}).round {} (start .unfenced {}).subjects).2 with
  | ok pair =>
    rw [hround] at hfails
    cases hfails
  | error error => exact ⟨error, rfl, hfirst error hround⟩

end KeyedVM
