import KeyedVM.Proofs.Survey.Accounting

set_option relaxedAutoImplicit false
set_option autoImplicit false

/-!
# The exit keys of a survey

The code behind a call is decoded with the exit key of the called function.  A function whose path
ended at a call, because the key was missing, is analysed again as soon as the key is learned.  So
if a survey ends before its rounds are used up, then no function waits for a key that is known.  The
keys with which functions were analysed are not looked at again: a key that was in the table from
the start, or that was learned in one round and changes in a later one, leaves its traces in the
callers.

## Main definitions

* `KeyedVM.Stage.Awake` — functions that wait for a known key are pending;
* `KeyedVM.Round.Revises` — a function was found to return with another key than the table had;
* `KeyedVM.Stage.LastAnalysed` — the round in which a function was analysed last;
* `KeyedVM.Round.GoesOn` — a call went on with an exit key;
* `KeyedVM.Stage.Explains` — a stage explains the keys with which a function was analysed.

## Main results

* `KeyedVM.Stage.Reached.awake` — functions that wait for a known key are pending at every stage;
* `KeyedVM.Stage.Turn.revises` — an exit key changes only if the function returns otherwise;
* `KeyedVM.Survey.run_awake` — no function waits for a key that is known;
* `KeyedVM.Survey.run_explains` — a call went on with the final exit key unless that was revised.
-/

namespace KeyedVM

/-- A result is that of the analysis of the function with its id. -/
lemma Image.exists_infer {image : Image} {settings : Settings} {id : ExportId}
    {inference : Inference} (h : image.outcome settings id = .ok inference) :
    ∃ subject, image.exports.find id = .ok subject ∧
      (Context.infer { image, settings, subject } {}).2 = .ok inference := by
  unfold outcome infer at h
  split at h
  · cases h
  · next subject hsubject => exact ⟨subject, hsubject, h⟩

/-- Report and stage at the end of a survey. -/
lemma Survey.exists_stage {survey : Survey} {elapsed : String} {report : Report}
    (h : (survey.run elapsed).2 = .ok report) :
    ∃ stage, Stage.Reached survey stage ∧
      (survey.run elapsed).1.image = stage.survey.image ∧ report.Reflects stage.progress ∧
      stage.past.length = report.rounds ∧
      (report.rounds < max 1 survey.settings.exitKeyRounds →
        ∀ id ∈ stage.pending, id ∈ stage.progress.failures) := by
  rcases survey.run_cases elapsed with ⟨stage, error, -, -, -, herror⟩ |
      ⟨stage, hreached, himage, hok, -, hended⟩
  · rw [h] at herror
    cases herror
  · obtain rfl := Except.ok.inj (h.symm.trans hok)
    obtain ⟨hreflects, -, hrounds⟩ :=
      reflects_buildGraphs stage.progress survey.leftOut stage.past.length
    exact ⟨stage, hreached, himage, hreflects, hrounds.symm, hrounds.symm ▸ hended⟩

/-! ## Functions that wait -/

namespace Stage

variable {start : Survey} {stage stage' : Stage}

/-- Every function that waits for an exit key that is known is pending. -/
def Awake (stage : Stage) : Prop :=
  ∀ (id : ExportId) (inference : Inference), stage.progress.results[id]? = some inference →
    ∀ callee ∈ inference.waitingFor, stage.survey.image.exports.exitKey? callee ≠ none →
      id ∈ stage.pending

/-- A turn wakes up the functions that wait for a key that becomes known.

**Proof sketch.** When a function has just been analysed, it waits only for keys that were missing.
When it has not, then it was not pending, so that again it waits only for keys that were missing.
A key that is known now has changed, and the functions that wait for it are pending. -/
lemma Awake.turn (h : stage.Awake) (hturn : stage.Turn stage') : stage'.Awake := by
  intro id inference hresult callee hcallee hknown
  refine (hturn.pending id).2 (Or.inl ⟨inference, hresult, callee, hcallee, ?_⟩)
  have hmissing : stage.survey.image.exports.exitKey? callee = none := by
    rcases hturn.recorded.result_cases hresult with ⟨-, houtcome⟩ | ⟨hnot, hold⟩
    · obtain ⟨subject, -, hinfer⟩ := Image.exists_infer houtcome
      exact (Context.infer_waits hinfer).1 callee hcallee
    · exact not_not.1 fun hkey => hnot (h id inference hold callee hcallee hkey)
  rwa [hmissing]

/-- **Functions that wait for a known key are pending at every stage.** -/
theorem Reached.awake (h : Reached start stage) : stage.Awake := by
  refine (h.induct (fun log id inference hresult => ?_) fun _ _ _ _ hold _ hturn =>
    hold.turn hturn).2
  simp at hresult

end Stage

/-- **No function waits for a key that is known**, if a survey ends before its rounds are used up.

**Proof sketch.** A function that waits for a known key would be pending.  When a survey ends early,
only functions that have failed are pending, and these are not in the report. -/
theorem Survey.run_awake {survey : Survey} {elapsed : String} {report : Report}
    (hreport : (survey.run elapsed).2 = .ok report)
    (hrounds : report.rounds < survey.settings.exitKeyRounds)
    {id : ExportId} {recovered : Recovered} (hid : report.exports[id]? = some recovered) :
    ∀ callee ∈ recovered.inference.waitingFor,
      (survey.run elapsed).1.image.exports.exitKey? callee = none := by
  intro callee hcallee
  obtain ⟨stage, hreached, himage, hreflects, -, hended⟩ := exists_stage hreport
  obtain ⟨hresult, -⟩ := hreflects.exports id recovered hid
  rw [himage]
  by_contra hknown
  have hpending := hreached.awake id recovered.inference hresult callee hcallee hknown
  obtain ⟨hmem, -⟩ := Std.ExtTreeMap.getElem?_eq_some_iff.1 hresult
  exact hreached.accounts.disjoint id hmem (hended (by omega) id hpending)

/-- Three functions.  The function 1 calls 2 and then returns; 2 returns at once; 3 calls itself. -/
def Image.calling : Image where
  blob := .ofBlocks .sequential
    [(0, [(.pushi .dword, .dword 16), (.call, .none)]),
      (46942392, [(.pushi .dword, .dword 0), (.ret, .none)]),
      (0, [(.pushi .dword, .dword 0), (.ret, .none)]),
      (0, [(.pushi .dword, .dword 24), (.call, .none)])]
  table := .sequential
  exports := .ofList [
    { id := 1, offset := 0, entryKey? := some 0 },
    { id := 2, offset := 16, entryKey? := some 0 },
    { id := 3, offset := 24, entryKey? := some 0 }]
  references := ∅

/-- The function 1 waits for 2 in the first round and for none in the end.  The function 3 waits for
itself, and its exit key is not known. -/
theorem Survey.run_awake_calling :
    ∃ report, ((start .calling { exitKeyRounds := 3 }).run "").2 = .ok report ∧ report.rounds = 2 ∧
      (∃ recovered ∈ report.exports[(1 : ExportId)]?, recovered.inference.waitingFor.isEmpty) ∧
      ∃ recovered ∈ report.exports[(3 : ExportId)]?, 3 ∈ recovered.inference.waitingFor ∧
        ((start .calling { exitKeyRounds := 3 }).run "").1.image.exports.exitKey? 3 = none := by
  obtain ⟨report, hreport, hrounds, hone, recovered, hrecovered, hwaiting⟩ :
      ∃ report, ((start .calling { exitKeyRounds := 3 }).run "").2 = .ok report ∧
        report.rounds = 2 ∧
        (∃ recovered ∈ report.exports[(1 : ExportId)]?, recovered.inference.waitingFor.isEmpty) ∧
        ∃ recovered ∈ report.exports[(3 : ExportId)]?, 3 ∈ recovered.inference.waitingFor :=
    exists_eq_ok (by decide +kernel)
  have hearly : report.rounds < 3 := by omega
  exact ⟨report, hreport, hrounds, hone, recovered, hrecovered, hwaiting,
    run_awake hreport hearly hrecovered 3 hwaiting⟩

/-! ## Exit keys that change -/

/-- In a round, a function was found to return with another key than the table had for it. -/
def Round.Revises (settings : Settings) (round : Round) (id : ExportId) : Prop :=
  id ∈ round.pending ∧ ∃ inference key, round.image.outcome settings id = .ok inference ∧
    inference.exitKey? = some key ∧ round.image.exports.exitKey? id ≠ some key

namespace Stage

variable {start : Survey} {stage stage' : Stage}

/-- The exit keys of all results are in the table. -/
def Holds (stage : Stage) : Prop :=
  ∀ (id : ExportId) (inference : Inference) (key : Key),
    stage.progress.results[id]? = some inference → inference.exitKey? = some key →
      stage.survey.image.exports.exitKey? id = some key

/-- Behind every round, the exit keys of all results are in the table. -/
lemma Turn.holds (h : stage.Turn stage') : stage'.Holds := by
  intro id inference key hresult hkey
  rw [h.keys, hresult, Option.bind_some, hkey, Option.some_or]

/-- At every stage, the exit keys of all results are in the table. -/
lemma Reached.holds (h : Reached start stage) : stage.Holds := by
  refine (h.induct (fun log id inference key hresult => ?_) fun _ _ _ _ _ _ hturn =>
    hturn.holds).2
  simp at hresult

/-- **An exit key changes only if the function returns otherwise.** -/
theorem Turn.revises (h : stage.Turn stage') (hholds : stage.Holds) {id : ExportId}
    (hchanged : stage'.survey.image.exports.exitKey? id ≠ stage.survey.image.exports.exitKey? id) :
    Round.Revises stage.survey.settings ⟨stage.survey.image, stage.pending⟩ id := by
  rw [h.keys] at hchanged
  cases hresult : stage'.progress.results[id]? with
  | none => simp [hresult] at hchanged
  | some inference =>
    cases hkey : inference.exitKey? with
    | none => simp [hresult, hkey] at hchanged
    | some key =>
      have hother : stage.survey.image.exports.exitKey? id ≠ some key := by
        simpa [hresult, hkey, eq_comm] using hchanged
      rcases h.recorded.result_cases hresult with ⟨hpending, houtcome⟩ | ⟨-, hold⟩
      · exact ⟨hpending, inference, key, houtcome, hkey, hother⟩
      · exact absurd (hholds id inference key hold hkey) hother

/-- A function was analysed last in `round`, which was followed by the rounds `newer`; the analysis
had the result `inference`. -/
structure LastAnalysed (stage : Stage) (id : ExportId) (inference : Inference) (round : Round)
    (newer : List Round) : Prop where
  past : ∃ older, stage.past = older ++ round :: newer
  pending : id ∈ round.pending
  newer : ∀ later ∈ newer, id ∉ later.pending
  outcome : round.image.outcome stage.survey.settings id = .ok inference

/-- The result of a function comes from the round in which it was analysed last; an exit key is
still the one of that round, unless it has been revised since. -/
def Dates (stage : Stage) (id : ExportId) (inference : Inference) : Prop :=
  ∃ round newer, stage.LastAnalysed id inference round newer ∧
    ∀ callee, stage.survey.image.exports.exitKey? callee = round.image.exports.exitKey? callee ∨
      ∃ later ∈ round :: newer, later.Revises stage.survey.settings callee

/-- A round dates the results that it finds by itself, and the others by earlier rounds. -/
lemma Turn.dates (h : stage.Turn stage') (hholds : stage.Holds)
    (hdates : ∀ (id : ExportId) (inference : Inference),
      stage.progress.results[id]? = some inference → stage.Dates id inference)
    {id : ExportId} {inference : Inference}
    (hresult : stage'.progress.results[id]? = some inference) : stage'.Dates id inference := by
  have hcases : ∀ callee, stage'.survey.image.exports.exitKey? callee =
      stage.survey.image.exports.exitKey? callee ∨
      Round.Revises stage.survey.settings ⟨stage.survey.image, stage.pending⟩ callee :=
    fun callee => or_iff_not_imp_left.2 fun hchanged => h.revises hholds hchanged
  rcases h.recorded.result_cases hresult with ⟨hpending, houtcome⟩ | ⟨hnot, hold⟩
  · refine ⟨⟨stage.survey.image, stage.pending⟩, [],
      ⟨⟨stage.past, h.past⟩, hpending, by simp, by rwa [h.settings]⟩, fun callee => ?_⟩
    rw [h.settings]
    exact (hcases callee).imp_right fun hrevises => ⟨_, List.mem_singleton_self _, hrevises⟩
  · -- the result is an older one, and this round is one more that has followed its own
    obtain ⟨round, newer, ⟨⟨older, hpast⟩, hpending, hnewer, houtcome⟩, hkeys⟩ :=
      hdates id inference hold
    refine ⟨round, newer ++ [⟨stage.survey.image, stage.pending⟩],
      ⟨⟨older, by rw [h.past, hpast, List.append_assoc, List.cons_append]⟩, hpending, ?_,
        by rwa [h.settings]⟩, fun callee => ?_⟩
    · intro later hlater
      rcases List.mem_append.1 hlater with hlater | hlater
      · exact hnewer later hlater
      · rwa [List.mem_singleton.1 hlater]
    · rw [h.settings, ← List.cons_append]
      rcases hcases callee with hsame | hrevises
      · rw [hsame]
        refine (hkeys callee).imp_right fun ⟨later, hlater, hrevises⟩ => ?_
        exact ⟨later, List.mem_append_left _ hlater, hrevises⟩
      · exact Or.inr ⟨_, List.mem_append_right _ (List.mem_singleton_self _), hrevises⟩

/-- The results of every stage are dated. -/
lemma Reached.dates (h : Reached start stage) {id : ExportId} {inference : Inference}
    (hresult : stage.progress.results[id]? = some inference) : stage.Dates id inference := by
  refine (h.induct (motive := fun stage => ∀ (id : ExportId) (inference : Inference),
    stage.progress.results[id]? = some inference → stage.Dates id inference) ?_ ?_).2
    id inference hresult
  · intro log id inference hresult
    simp at hresult
  · exact fun _ _ hreached _ hdates _ hturn _ _ => hturn.dates hreached.holds hdates

end Stage

/-- In a round, the call of a function that a finding records went on with a key: the exit key that
the table then had for the called function. -/
structure Round.GoesOn (settings : Settings) (round : Round) (id : ExportId) (inference : Inference)
    (finding : Finding) (callee : ExportId) (key : Key) : Prop where
  known : round.image.exports.exitKey? callee = some key
  execution : ∃ subject effects successor, round.image.exports.find id = .ok subject ∧
    Context.execute { image := round.image, settings, subject } inference.findings finding.state =
      .ok (finding, effects) ∧
    effects.successors = [successor] ∧ successor.key = key

/-- A stage explains the keys with which a function was analysed: every call of a function for which
it does not wait went on, in the round of its last analysis, with the exit key that the called
function then had; and it still has that key, unless this round or a later one has revised it. -/
def Stage.Explains (stage : Stage) (id : ExportId) (inference : Inference) : Prop :=
  ∃ round newer, stage.LastAnalysed id inference round newer ∧
    ∀ (offset : Offset) (finding : Finding) (site : CallSite) (callee : ExportId),
      inference.findings[offset]? = some finding → finding.meaning? = some (.call site) →
      site.exportId? = some callee → callee ∉ inference.waitingFor →
      ∃ key, round.GoesOn stage.survey.settings id inference finding callee key ∧
        (stage.survey.image.exports.exitKey? callee = some key ∨
          ∃ later ∈ round :: newer, later.Revises stage.survey.settings callee)

/-- A result that is dated is explained: its keys are those of the round, which have been revised
since or not. -/
lemma Stage.Dates.explains {stage : Stage} {id : ExportId} {inference : Inference}
    (h : stage.Dates id inference) : stage.Explains id inference := by
  obtain ⟨round, newer, hlast, hkeys⟩ := h
  refine ⟨round, newer, hlast, fun offset finding site callee hfinding hsite hcallee hnot => ?_⟩
  obtain ⟨subject, hsubject, hinfer⟩ := Image.exists_infer hlast.outcome
  obtain ⟨key, effects, successor, hkey, hexecute, hsuccessors, hgoes⟩ :=
    (Context.infer_waits hinfer).2 offset finding hfinding site callee hsite hcallee hnot
  refine ⟨key, ⟨hkey, subject, effects, successor, hsubject, hexecute, hsuccessors, hgoes⟩, ?_⟩
  exact (hkeys callee).imp_left fun hsame => hsame.trans hkey

/-- **A call went on with the final exit key unless that was revised.**  Whenever a survey makes its
report, the stage at which it ends explains the keys with which the functions in the report were
analysed.

**Proof sketch.** A result stays until its function is analysed again, so it comes from the round of
its last analysis.  The calls in it went on with the exit keys of that round.  An exit key changes
only at the end of a round in which the function has returned with another one. -/
theorem Survey.run_explains {survey : Survey} {elapsed : String} {report : Report}
    (hreport : (survey.run elapsed).2 = .ok report) :
    ∃ stage, Stage.Reached survey stage ∧ stage.past.length = report.rounds ∧
      stage.survey.settings = survey.settings ∧
      stage.survey.image = (survey.run elapsed).1.image ∧
      ∀ (id : ExportId) (recovered : Recovered), report.exports[id]? = some recovered →
        stage.Explains id recovered.inference := by
  obtain ⟨stage, hreached, himage, hreflects, hrounds, -⟩ := exists_stage hreport
  refine ⟨stage, hreached, hrounds, hreached.framed.settings, himage.symm,
    fun id recovered hid => ?_⟩
  obtain ⟨hresult, -⟩ := hreflects.exports id recovered hid
  exact (hreached.dates hresult).explains

/-- The function 1 calls 2, for which it does not wait in the end. -/
theorem Survey.run_explains_calling :
    ∃ report, ((start .calling {}).run "").2 = .ok report ∧
      ∃ recovered ∈ report.exports[(1 : ExportId)]?, 2 ∉ recovered.inference.waitingFor ∧
        ∃ finding ∈ recovered.inference.findings[(6 : Offset)]?,
          finding.meaning? =
            some (.call { address := 16, signature? := some {}, exportId? := some 2 }) ∧
          ∃ stage round newer key,
            Stage.Reached (start .calling {}) stage ∧
            stage.LastAnalysed 1 recovered.inference round newer ∧
            round.GoesOn stage.survey.settings 1 recovered.inference finding 2 key ∧
            (stage.survey.image.exports.exitKey? 2 = some key ∨
              ∃ later ∈ round :: newer, later.Revises stage.survey.settings 2) := by
  obtain ⟨report, hreport, recovered, hrecovered, hnot, finding, hfinding, hmeaning⟩ :
      ∃ report, ((start .calling {}).run "").2 = .ok report ∧
        ∃ recovered ∈ report.exports[(1 : ExportId)]?, 2 ∉ recovered.inference.waitingFor ∧
          ∃ finding ∈ recovered.inference.findings[(6 : Offset)]?, finding.meaning? =
            some (.call { address := 16, signature? := some {}, exportId? := some 2 }) :=
    exists_eq_ok (by decide +kernel)
  obtain ⟨stage, hreached, -, -, -, hexplains⟩ := run_explains hreport
  obtain ⟨round, newer, hlast, hcalls⟩ := hexplains 1 recovered hrecovered
  obtain ⟨key, hgoes, hkey⟩ := hcalls 6 finding _ 2 hfinding hmeaning rfl hnot
  exact ⟨report, hreport, recovered, hrecovered, hnot, finding, hfinding, hmeaning, stage, round,
    newer, key, hreached, hlast, hgoes, hkey⟩

/-- A survey ends before its rounds are used up.  In its report the function 1 waits for none, its
call at 6 is one of the function 2, and the code behind the call was decoded with the key `used`;
but the exit key of 2 is now `final`. -/
def Survey.Outdates (survey : Survey) (used final : Key) : Prop :=
  (survey.run "").1.image.exports.exitKey? 2 = some final ∧
  ∃ report, (survey.run "").2 = .ok report ∧ report.rounds < survey.settings.exitKeyRounds ∧
    ∃ recovered ∈ report.exports[(1 : ExportId)]?, recovered.inference.waitingFor.isEmpty ∧
      (∃ finding ∈ recovered.inference.findings[(6 : Offset)]?, finding.meaning? =
        some (.call { address := 16, signature? := some {}, exportId? := some 2 })) ∧
      ∃ finding ∈ recovered.inference.findings[(8 : Offset)]?, finding.state.key = used

/-- The function 1 calls 2 and then returns, under the key that the table has for 2; but 2 does not
return with that key. -/
def Image.misinformed : Image where
  blob := .ofBlocks .sequential
    [(0, [(.pushi .dword, .dword 16), (.call, .none)]),
      (46942648, [(.pushi .dword, .dword 0), (.ret, .none)]),
      (0, [(.pushi .dword, .dword 0), (.ret, .none)])]
  table := .sequential
  exports := .ofList [
    { id := 1, offset := 0, entryKey? := some 0 },
    { id := 2, offset := 16, entryKey? := some 0, exitKey? := some 46942648 }]
  references := ∅

/-- The function 1 calls 2 and then returns.  The function 2 returns behind a call of 3 or behind a
jump, with different keys; as long as the exit key of 3 is missing, it returns only behind the
jump. -/
def Image.rerouted : Image where
  blob := .ofBlocks .sequential
    [(0, [(.pushi .dword, .dword 16), (.call, .none)]),
      (16551792, [(.pushi .dword, .dword 0), (.ret, .none)]),
      (0, [(.pushi .dword, .dword 0), (.pushi .dword, .dword 46), (.jz, .none),
        (.pushi .dword, .dword 60), (.call, .none)]),
      (46942392, [(.pushi .dword, .dword 0), (.ret, .none)]),
      (3688332961, [(.nop, .none), (.nop, .none), (.nop, .none), (.pushi .dword, .dword 33),
        (.ret, .none)]),
      (0, [(.pushi .dword, .dword 0), (.ret, .none)])]
  table := .sequential
  exports := .ofList [
    { id := 1, offset := 0, entryKey? := some 0 },
    { id := 2, offset := 16, entryKey? := some 0 },
    { id := 3, offset := 60, entryKey? := some 0 }]
  references := ∅

/-- **A report may be built on outdated exit keys**: on a key that was in the table from the start,
and on one that was learned and then revised. -/
theorem Survey.run_outdates :
    (start .misinformed { exitKeyRounds := 3 }).Outdates 46942648 46942392 ∧
    (start .rerouted { exitKeyRounds := 4 }).Outdates 16551792 590867312 := by
  refine ⟨⟨by decide +kernel, ?_⟩, by decide +kernel, ?_⟩
  · exact exists_eq_ok (by decide +kernel)
  · exact exists_eq_ok (by decide +kernel)

end KeyedVM
