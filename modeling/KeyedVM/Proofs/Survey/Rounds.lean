import KeyedVM.Proofs.Inference.Callees
import KeyedVM.Proofs.Inference.Logging
import KeyedVM.Survey

set_option relaxedAutoImplicit false
set_option autoImplicit false

/-!
# The rounds of a survey

A survey analyses functions round by round.  This module says once what a round does to the
functions, to the exit keys and to what has been found.  Whatever holds before the first round and
is kept by every round therefore holds when the survey ends.

## Main definitions

* `KeyedVM.ExportTable.Resembles`, `KeyedVM.Image.Resembles` — two tables or programs differ at most
  in exit keys;
* `KeyedVM.Image.outcome` — what the analysis of a function comes to;
* `KeyedVM.Progress.Recorded` — outcomes have been taken over;
* `KeyedVM.Survey.Learned` — exit keys have been recorded;
* `KeyedVM.Survey.subjects`, `leftOut` — the functions that a survey is about, and the others;
* `KeyedVM.Stage` — where a survey stands between two rounds;
* `KeyedVM.Stage.Turn` — what a round does;
* `KeyedVM.Stage.Reached` — the stages that a survey goes through.

## Main results

* `KeyedVM.Survey.learn_spec` — if all functions are in the table, their exit keys are recorded;
* `KeyedVM.Stage.Framed.round_cases` — a round fails with a fatal error or does a turn;
* `KeyedVM.Stage.Reached.induct` — what every turn keeps holds at every stage;
* `KeyedVM.Survey.run_cases` — how a survey ends.
-/

namespace KeyedVM

/-! ## Tables that differ in exit keys -/

/-- A function without its exit key. -/
def Export.withoutExitKey (item : Export) : Export := { item with exitKey? := none }

namespace ExportTable

variable {table table' table'' : ExportTable} {id : ExportId}

/-- Two tables list the same functions, and these differ at most in their exit keys. -/
def Resembles (table table' : ExportTable) : Prop :=
  ∀ id : ExportId, table'.entries[id]?.map Export.withoutExitKey =
    table.entries[id]?.map Export.withoutExitKey

/-- A table resembles itself. -/
lemma Resembles.refl (table : ExportTable) : table.Resembles table := fun _ => rfl

/-- Resemblance carries over along a row of tables. -/
lemma Resembles.trans (h : table.Resembles table') (h' : table'.Resembles table'') :
    table.Resembles table'' := fun id => (h' id).trans (h id)

/-- Tables that resemble each other list the same ids. -/
lemma Resembles.mem_iff (h : table.Resembles table') :
    id ∈ table'.entries ↔ id ∈ table.entries := by
  have hsome := congrArg Option.isSome (h id)
  rw [Option.isSome_map, Option.isSome_map] at hsome
  rw [Std.ExtTreeMap.mem_iff_isSome_getElem?, Std.ExtTreeMap.mem_iff_isSome_getElem?, hsome]

/-- The numbers of the functions in a table. -/
lemma map_id_toList (table : ExportTable) : table.toList.map (·.id) = table.entries.keys := by
  rw [toList, List.map_map, ← Std.ExtTreeMap.map_fst_toList_eq_keys]
  refine List.map_congr_left fun pair hpair => ?_
  exact table.id_eq (Std.ExtTreeMap.mem_toList_iff_getElem?_eq_some.1 hpair)

/-- A function that is listed is found. -/
lemma exists_find (h : id ∈ table.entries) :
    ∃ item, table.entries[id]? = some item ∧ table.find id = .ok item := by
  obtain ⟨item, hitem⟩ := Option.isSome_iff_exists.1 (Std.ExtTreeMap.mem_iff_isSome_getElem?.1 h)
  exact ⟨item, hitem, by rw [find, hitem]⟩

/-- Recording an exit key changes that key and nothing else. -/
lemma exists_setExitKey (h : id ∈ table.entries) (key : Key) :
    ∃ table', table.setExitKey id key = .ok table' ∧ table.Resembles table' ∧
      ∀ other, table'.exitKey? other = if other = id then some key else table.exitKey? other := by
  obtain ⟨item, hitem, hfind⟩ := exists_find h
  obtain rfl : item.id = id := table.id_eq hitem
  refine ⟨table.insert { item with exitKey? := some key }, by rw [setExitKey, hfind]; rfl, ?_, ?_⟩
  · intro other
    simp only [insert, Std.ExtTreeMap.getElem?_insert, Std.compare_eq_iff_eq]
    split
    · next heq =>
      rw [← heq, hitem]
      rfl
    · rfl
  · intro other
    simp only [exitKey?, insert, Std.ExtTreeMap.getElem?_insert, Std.compare_eq_iff_eq,
      eq_comm (a := item.id)]
    split
    · rfl
    · rfl

end ExportTable

/-- Two programs differ at most in exit keys. -/
structure Image.Resembles (image image' : Image) : Prop where
  eq_with : image' = { image with exports := image'.exports }
  exports : image.exports.Resembles image'.exports

/-- A program resembles itself. -/
lemma Image.Resembles.refl (image : Image) : image.Resembles image := ⟨rfl, .refl _⟩

/-- Resemblance carries over along a row of programs. -/
lemma Image.Resembles.trans {image image' image'' : Image} (h : image.Resembles image')
    (h' : image'.Resembles image'') : image.Resembles image'' where
  eq_with := by
    rw [h'.eq_with, h.eq_with]
  exports := h.exports.trans h'.exports

/-! ## Learning exit keys -/

namespace Survey

/-- The key of a function that is listed can be learned, which changes no other key. -/
lemma exists_learnKey {exports : ExportTable} {id : ExportId} (h : id ∈ exports.entries)
    (key : Key) :
    ∃ exports', learnKey exports id key = .ok (exports', decide (exports.exitKey? id ≠ some key)) ∧
      exports.Resembles exports' ∧ ∀ other, exports'.exitKey? other =
        if other = id then some key else exports.exitKey? other := by
  obtain ⟨item, hitem, hfind⟩ := ExportTable.exists_find h
  have hkey : exports.exitKey? id = item.exitKey? := by
    rw [ExportTable.exitKey?, hitem]
    rfl
  by_cases hsame : item.exitKey? = some key
  · refine ⟨exports, ?_, .refl _, fun other => ?_⟩
    · rw [learnKey, hfind, hkey, decide_eq_false (not_not.2 hsame)]
      exact if_pos hsame
    · split
      · next heq => rw [heq, hkey, hsame]
      · rfl
  · obtain ⟨exports', hset, hframe⟩ := ExportTable.exists_setExitKey h key
    refine ⟨exports', ?_, hframe⟩
    rw [learnKey, hfind, hkey, hset, decide_eq_true hsame]
    exact if_neg hsame

/-- **If all functions are in the table, their exit keys are recorded.**  A function that was found
to return has the key with which it does; the keys of the others stay.  Learned are the keys that
have changed. -/
theorem learn_spec {exports : ExportTable} {results : List (ExportId × Inference)}
    (hnodup : (results.map (·.1)).Nodup) (hmem : ∀ pair ∈ results, pair.1 ∈ exports.entries) :
    ∃ exports' learned, learn exports results = (exports', .ok learned) ∧
      exports.Resembles exports' ∧
      (∀ id inference, (id, inference) ∈ results →
        exports'.exitKey? id = inference.exitKey?.or (exports.exitKey? id)) ∧
      (∀ id, id ∉ results.map (·.1) → exports'.exitKey? id = exports.exitKey? id) ∧
      ∀ id, id ∈ learned ↔ exports'.exitKey? id ≠ exports.exitKey? id := by
  induction results generalizing exports with
  | nil => exact ⟨exports, ∅, rfl, .refl _, by simp, fun _ _ => rfl, by simp⟩
  | cons pair rest ih =>
    obtain ⟨id, inference⟩ := pair
    obtain ⟨hnot, hnodup⟩ := List.nodup_cons.1 hnodup
    have hhead := hmem _ List.mem_cons_self
    have hrest : ∀ pair ∈ rest, pair.1 ∈ exports.entries := fun pair h =>
      hmem pair (List.mem_cons_of_mem _ h)
    have hne : ∀ other inference', (other, inference') ∈ rest → other ≠ id := by
      rintro other inference' hother rfl
      exact hnot (List.mem_map.2 ⟨_, hother, rfl⟩)
    cases hkey : inference.exitKey? with
    | none =>
      obtain ⟨exports', learned, hlearn, hframe, hfound, hothers, hchanged⟩ := ih hnodup hrest
      refine ⟨exports', learned, ?_, hframe, fun other inference' hother => ?_,
        fun other hother => ?_, hchanged⟩
      · simp only [learn, hkey]
        exact hlearn
      · rcases List.mem_cons.1 hother with heq | hother
        · obtain ⟨rfl, rfl⟩ := Prod.mk.inj heq
          rw [hkey, hothers other hnot, Option.none_or]
        · exact hfound other inference' hother
      · exact hothers other fun h => hother (List.mem_cons_of_mem _ h)
    | some key =>
      obtain ⟨middle, hset, hframe, hkeys⟩ := exists_learnKey hhead key
      have hmiddle : ∀ pair ∈ rest, pair.1 ∈ middle.entries := fun pair h =>
        hframe.mem_iff.2 (hrest pair h)
      obtain ⟨exports', learned, hlearn, hframe', hfound, hothers, hchanged⟩ := ih hnodup hmiddle
      have hid : exports'.exitKey? id = some key := by
        rw [hothers id hnot, hkeys, if_pos rfl]
      refine ⟨exports', if exports.exitKey? id ≠ some key then learned.insert id else learned, ?_,
        hframe.trans hframe', fun other inference' hother => ?_, fun other hother => ?_,
        fun other => ?_⟩
      · simp only [learn, hkey, hset, hlearn, Except.map, decide_eq_true_eq]
      · rcases List.mem_cons.1 hother with heq | hother
        · obtain ⟨rfl, rfl⟩ := Prod.mk.inj heq
          rw [hkey, hid, Option.some_or]
        · rw [hfound other inference' hother, hkeys, if_neg (hne other inference' hother)]
      · obtain ⟨hother, hrest⟩ := not_or.1 fun h => hother (List.mem_cons.2 h)
        rw [hothers other hrest, hkeys, if_neg hother]
      · -- the rest of the list leaves the key of `id` alone, so only this step can change it
        by_cases heq : other = id
        · subst heq
          have hold : other ∉ learned := by
            rw [hchanged, hid, hkeys, if_pos rfl]
            exact fun h => h rfl
          rw [hid]
          split
          · next hdiff => simpa using Ne.symm hdiff
          · next hsame => simpa [hold] using (not_not.1 hsame).symm
        · have hinsert : other ∈ (if exports.exitKey? id ≠ some key then learned.insert id
              else learned) ↔ other ∈ learned := by
            split
            · simp [Std.ExtTreeSet.mem_insert, Ne.symm heq]
            · rfl
          rw [hinsert, hchanged, hkeys, if_neg heq]

/-- The exit keys that were found have been recorded: a function has the key with which its result
returns, or else the one that it had; learned are the keys that have changed. -/
structure Learned (results : Std.ExtTreeMap ExportId Inference) (image image' : Image)
    (learned : Std.ExtTreeSet ExportId) : Prop where
  resembles : image.Resembles image'
  keys : ∀ id : ExportId, image'.exports.exitKey? id =
    (results[id]?.bind (·.exitKey?)).or (image.exports.exitKey? id)
  changed : ∀ id, id ∈ learned ↔ image'.exports.exitKey? id ≠ image.exports.exitKey? id

/-- The exit keys of results whose functions are listed can all be learned. -/
lemma exists_learnExitKeys {survey : Survey} {progress : Progress}
    (hmem : ∀ id ∈ progress.results, id ∈ survey.image.exports.entries) :
    ∃ image learned, survey.learnExitKeys progress = ({ survey with image }, .ok learned) ∧
      Learned progress.results survey.image image learned := by
  have hids : progress.results.toList.map (·.1) = progress.results.keys :=
    Std.ExtTreeMap.map_fst_toList_eq_keys
  have hnodup : (progress.results.toList.map (·.1)).Nodup := by
    rw [hids]
    exact Std.ExtTreeMap.nodup_keys
  have hpairs : ∀ pair ∈ progress.results.toList, pair.1 ∈ survey.image.exports.entries :=
    fun pair hpair => hmem pair.1 (Std.ExtTreeMap.mem_keys.1 (hids ▸ List.mem_map_of_mem hpair))
  obtain ⟨exports, learned, hlearn, hframe, hfound, hothers, hchanged⟩ := learn_spec hnodup hpairs
  refine ⟨{ survey.image with exports }, learned, by rw [learnExitKeys, hlearn], ⟨rfl, hframe⟩,
    fun id => ?_, hchanged⟩
  cases hresult : progress.results[id]? with
  | none =>
    refine hothers id ?_
    rw [hids, Std.ExtTreeMap.mem_keys, Std.ExtTreeMap.mem_iff_isSome_getElem?, hresult]
    exact Bool.false_ne_true
  | some inference =>
    exact hfound id inference (Std.ExtTreeMap.mem_toList_iff_getElem?_eq_some.2 hresult)

end Survey

/-! ## Taking over outcomes -/

/-- What the analysis of a function comes to, whatever is reported on the way. -/
def Image.outcome (image : Image) (settings : Settings) (id : ExportId) : Except Error Inference :=
  (image.infer settings {} id).2

/-- The outcome of an analysis does not depend on the log. -/
lemma Image.infer_outcome (image : Image) (settings : Settings) (log : Log) (id : ExportId) :
    (image.infer settings log id).2 = image.outcome settings id := by
  unfold outcome infer
  split
  · rfl
  · exact Context.infer_log _ log {}

/-- A survey analyses functions one after the other, each as if it were alone; only the log
changes. -/
lemma Survey.exists_inferAll (survey : Survey) (ids : List ExportId) :
    ∃ log, survey.inferAll ids =
      ({ survey with log }, ids.map fun id => (id, survey.image.outcome survey.settings id)) := by
  induction ids generalizing survey with
  | nil => exact ⟨survey.log, rfl⟩
  | cons id rest ih =>
    obtain ⟨log, hrest⟩ := ih (survey.infer id).1
    refine ⟨log, ?_⟩
    simp only [inferAll, hrest]
    rw [List.map_cons, ← Image.infer_outcome _ _ survey.log id]
    rfl

namespace Progress

variable {progress progress' : Progress} {analyse : ExportId → Except Error Inference}
  {ids : List ExportId}

/-- The outcomes of the analyses of functions have been taken over: a success is a result and no
failure, an error is a failure and no result, and it is not fatal.  All else stays. -/
structure Recorded (analyse : ExportId → Except Error Inference) (ids : List ExportId)
    (progress progress' : Progress) : Prop where
  ok : ∀ id ∈ ids, ∀ inference, analyse id = .ok inference →
    progress'.results[id]? = some inference ∧ progress'.failures[id]? = none
  error : ∀ id ∈ ids, ∀ error, analyse id = .error error → error.isFatal = false ∧
    progress'.results[id]? = none ∧ progress'.failures[id]? = some ⟨id, error⟩
  others : ∀ id, id ∉ ids → progress'.results[id]? = progress.results[id]? ∧
    progress'.failures[id]? = progress.failures[id]?

/-- Recording one outcome takes it over. -/
lemma recorded_of_record {id : ExportId} (h : progress.record id (analyse id) = .ok progress') :
    Recorded analyse [id] progress progress' := by
  have hself : ∀ {p : ExportId → Prop}, p id → ∀ other ∈ [id], p other := by
    intro p hp other hother
    rwa [List.mem_singleton.1 hother]
  cases hanalyse : analyse id with
  | ok inference =>
    rw [hanalyse] at h
    obtain rfl := Except.ok.inj h
    refine ⟨hself ?_, hself ?_, fun other hother => ?_⟩
    · intro inference' h
      simp [Except.ok.inj (hanalyse.symm.trans h)]
    · intro error h
      exact absurd (hanalyse.symm.trans h) (by simp)
    · simp [Std.ExtTreeMap.getElem?_insert, Std.ExtTreeMap.getElem?_erase,
        Ne.symm (List.mem_singleton.not.1 hother)]
  | error error =>
    rw [hanalyse, record] at h
    split at h
    · cases h
    · next hfatal =>
      obtain rfl := Except.ok.inj h
      refine ⟨hself ?_, hself ?_, fun other hother => ?_⟩
      · intro inference h
        exact absurd (hanalyse.symm.trans h) (by simp)
      · intro error' h
        obtain rfl := Except.error.inj (hanalyse.symm.trans h)
        simp [hfatal]
      · simp [Std.ExtTreeMap.getElem?_insert, Std.ExtTreeMap.getElem?_erase,
          Ne.symm (List.mem_singleton.not.1 hother)]

/-- Outcomes that are taken over one after the other are taken over together. -/
lemma Recorded.append {middle : Progress} {first second : List ExportId}
    (h : Recorded analyse first progress middle) (h' : Recorded analyse second middle progress') :
    Recorded analyse (first ++ second) progress progress' := by
  refine ⟨fun id hid inference hok => ?_, fun id hid error herror => ?_, fun id hid => ?_⟩
  · by_cases hsecond : id ∈ second
    · exact h'.ok id hsecond inference hok
    · obtain ⟨hresults, hfailures⟩ := h'.others id hsecond
      rw [hresults, hfailures]
      exact h.ok id ((List.mem_append.1 hid).resolve_right hsecond) inference hok
  · by_cases hsecond : id ∈ second
    · exact h'.error id hsecond error herror
    · obtain ⟨hresults, hfailures⟩ := h'.others id hsecond
      rw [hresults, hfailures]
      exact h.error id ((List.mem_append.1 hid).resolve_right hsecond) error herror
  · obtain ⟨hfirst, hsecond⟩ := not_or.1 fun h => hid (List.mem_append.2 h)
    obtain ⟨hresults, hfailures⟩ := h'.others id hsecond
    rw [hresults, hfailures]
    exact h.others id hfirst

/-- Outcomes that are taken over are recorded. -/
lemma recorded_of_recordAll
    (h : progress.recordAll (ids.map fun id => (id, analyse id)) = .ok progress') :
    Recorded analyse ids progress progress' := by
  induction ids generalizing progress with
  | nil =>
    obtain rfl := Except.ok.inj h
    exact ⟨by simp, by simp, fun _ _ => ⟨rfl, rfl⟩⟩
  | cons id rest ih =>
    obtain ⟨middle, hmiddle, hrest⟩ := bind_eq_ok_iff.1 h
    exact (recorded_of_record hmiddle).append (ih hrest)

/-- Only a fatal error keeps outcomes from being taken over. -/
lemma recordAll_fatal (progress : Progress) (outcomes : List (ExportId × Except Error Inference)) :
    FailsOnly (·.isFatal) (progress.recordAll outcomes) := by
  induction outcomes generalizing progress with
  | nil => exact .ok _
  | cons pair rest ih =>
    obtain ⟨id, outcome⟩ := pair
    refine FailsOnly.bind ?_ fun middle _ => ih middle
    cases outcome with
    | ok inference => exact .ok _
    | error error =>
      rw [record]
      split
      · next hfatal => exact .error hfatal
      · exact .ok _

/-- The functions to be analysed again. -/
lemma mem_again {learned : Std.ExtTreeSet ExportId} {id : ExportId} :
    id ∈ progress.again learned ↔ (∃ inference, progress.results[id]? = some inference ∧
      ∃ callee ∈ inference.waitingFor, callee ∈ learned) ∨ id ∈ progress.failures := by
  simp only [again, Std.ExtTreeSet.mem_toList, Std.ExtTreeSet.mem_ofList, List.contains_iff_mem,
    List.mem_append, List.mem_map, List.mem_filter, Prod.exists, exists_and_right, exists_eq_right,
    Std.ExtTreeMap.mem_toList_iff_getElem?_eq_some, List.any_eq_true, Std.ExtTreeMap.mem_keys,
    Std.ExtTreeSet.contains_iff_mem]

/-- A result comes from an analysis just made, or it was there before. -/
lemma Recorded.result_cases {id : ExportId} {inference : Inference}
    (h : Recorded analyse ids progress progress')
    (hresult : progress'.results[id]? = some inference) :
    (id ∈ ids ∧ analyse id = .ok inference) ∨
      (id ∉ ids ∧ progress.results[id]? = some inference) := by
  by_cases hid : id ∈ ids
  · left
    cases hanalyse : analyse id with
    | ok inference' =>
      rw [(h.ok id hid inference' hanalyse).1] at hresult
      exact ⟨hid, congrArg _ (Option.some.inj hresult)⟩
    | error error =>
      rw [(h.error id hid error hanalyse).2.1] at hresult
      cases hresult
  · exact Or.inr ⟨hid, (h.others id hid).1 ▸ hresult⟩

/-- A failure comes from an analysis just made, or it was there before. -/
lemma Recorded.failure_cases {id : ExportId} {failure : Failure}
    (h : Recorded analyse ids progress progress')
    (hfailure : progress'.failures[id]? = some failure) :
    (id ∈ ids ∧ analyse id = .error failure.error ∧ failure.error.isFatal = false) ∨
      (id ∉ ids ∧ progress.failures[id]? = some failure) := by
  by_cases hid : id ∈ ids
  · left
    cases hanalyse : analyse id with
    | ok inference =>
      rw [(h.ok id hid inference hanalyse).2] at hfailure
      cases hfailure
    | error error =>
      obtain ⟨hfatal, -, hrecorded⟩ := h.error id hid error hanalyse
      rw [hrecorded] at hfailure
      obtain rfl := Option.some.inj hfailure
      exact ⟨hid, rfl, hfatal⟩
  · exact Or.inr ⟨hid, (h.others id hid).2 ▸ hfailure⟩

/-- Whether a function has a result or a failure changes only by its analysis. -/
lemma Recorded.mem_iff {id : ExportId} (h : Recorded analyse ids progress progress')
    (hid : id ∉ ids) : (id ∈ progress'.results ↔ id ∈ progress.results) ∧
      (id ∈ progress'.failures ↔ id ∈ progress.failures) := by
  obtain ⟨hresults, hfailures⟩ := h.others id hid
  simp only [Std.ExtTreeMap.mem_iff_isSome_getElem?, hresults, hfailures, and_self]

end Progress

/-! ## The functions of a survey -/

namespace Survey

/-- The functions that a survey is about. -/
def subjects (survey : Survey) : List ExportId :=
  (survey.image.exports.toList.filter (!survey.skips ·)).map (·.id)

/-- The functions that a survey leaves out. -/
def leftOut (survey : Survey) : List ExportId :=
  (survey.image.exports.toList.filter survey.skips).map (·.id)

variable {survey : Survey} {id : ExportId}

/-- A survey leaves out the function that initialises the runtime, if it is told to. -/
lemma leftOut_eq_filter : survey.leftOut = survey.image.exports.entries.keys.filter
    fun id => survey.settings.skipInitHelper && id = survey.image.table.initHelper := by
  rw [← ExportTable.map_id_toList, List.filter_map]
  rfl

/-- The subjects of a survey are all ids but that of the function that initialises the runtime, if
this one is skipped. -/
lemma subjects_eq_filter : survey.subjects = survey.image.exports.entries.keys.filter
    fun id => !(survey.settings.skipInitHelper && id = survey.image.table.initHelper) := by
  rw [← ExportTable.map_id_toList, List.filter_map]
  rfl

/-- What is left out is the function that initialises the runtime, if it is skipped. -/
lemma mem_leftOut : id ∈ survey.leftOut ↔ id ∈ survey.image.exports.entries ∧
    survey.settings.skipInitHelper = true ∧ id = survey.image.table.initHelper := by
  rw [leftOut_eq_filter, List.mem_filter, Std.ExtTreeMap.mem_keys, Bool.and_eq_true,
    decide_eq_true_eq]

/-- A survey is about all functions that it does not leave out. -/
lemma mem_subjects :
    id ∈ survey.subjects ↔ id ∈ survey.image.exports.entries ∧ id ∉ survey.leftOut := by
  rw [subjects_eq_filter, leftOut_eq_filter, List.mem_filter, List.mem_filter,
    Std.ExtTreeMap.mem_keys, Bool.not_eq_true', Bool.eq_false_iff]
  simp only [not_and, and_congr_right_iff]
  exact fun h => ⟨fun hnot _ => hnot, fun hnot => hnot h⟩

end Survey

/-! ## The stages of a survey -/

/-- A round that has been made. -/
structure Round where
  /-- The program with the exit keys that were known then. -/
  image : Image
  /-- The functions that were analysed. -/
  pending : List ExportId

/-- Where a survey stands between two rounds. -/
structure Stage where
  survey : Survey
  progress : Progress := {}
  /-- The functions to be analysed next. -/
  pending : List ExportId
  /-- The rounds that have been made, the latest one last. -/
  past : List Round := []

namespace Stage

variable {start : Survey} {stage stage' : Stage}

/-- The stage behind a round. -/
def next (stage : Stage) (survey : Survey) (progress : Progress)
    (learned : Std.ExtTreeSet ExportId) : Stage where
  survey := survey
  progress := progress
  pending := progress.again learned
  past := stage.past ++ [⟨stage.survey.image, stage.pending⟩]

/-- The next stage has one more round behind it. -/
@[simp] lemma length_past_next (stage : Stage) (survey : Survey) (progress : Progress)
    (learned : Std.ExtTreeSet ExportId) :
    (stage.next survey progress learned).past.length = stage.past.length + 1 :=
  List.length_append

/-- What a round does.  The functions that are pending are analysed and their outcomes are taken
over, then the exit keys of all results are recorded.  Pending from then on are the functions that
wait for a key that has changed, and the failures. -/
structure Turn (stage stage' : Stage) : Prop where
  settings : stage'.survey.settings = stage.survey.settings
  resembles : stage.survey.image.Resembles stage'.survey.image
  recorded : Progress.Recorded (stage.survey.image.outcome stage.survey.settings) stage.pending
    stage.progress stage'.progress
  keys : ∀ id : ExportId, stage'.survey.image.exports.exitKey? id =
    (stage'.progress.results[id]?.bind (·.exitKey?)).or (stage.survey.image.exports.exitKey? id)
  pending : ∀ id, id ∈ stage'.pending ↔
    (∃ inference, stage'.progress.results[id]? = some inference ∧
      ∃ callee ∈ inference.waitingFor, stage'.survey.image.exports.exitKey? callee ≠
        stage.survey.image.exports.exitKey? callee) ∨
    id ∈ stage'.progress.failures
  past : stage'.past = stage.past ++ [⟨stage.survey.image, stage.pending⟩]

/-- The stages of a survey, from its start on. -/
inductive Reached (start : Survey) : Stage → Prop
  | start (log : Log) :
      Reached start { survey := { start with log }, pending := start.subjects }
  | turn {stage : Stage} {survey : Survey} {progress : Progress}
      {learned : Std.ExtTreeSet ExportId} (log : Log) :
      Reached start stage → stage.pending ≠ [] →
      stage.survey.round stage.progress stage.pending = (survey, .ok (progress, learned)) →
      Reached start (stage.next { survey with log } progress learned)

/-- The frame of a survey: of the program it changes only exit keys, it keeps its settings, and it
deals with no functions but its own. -/
structure Framed (start : Survey) (stage : Stage) : Prop where
  resembles : start.image.Resembles stage.survey.image
  settings : stage.survey.settings = start.settings
  pending : ∀ id ∈ stage.pending, id ∈ start.subjects
  results : ∀ id ∈ stage.progress.results, id ∈ start.subjects
  failures : ∀ id ∈ stage.progress.failures, id ∈ start.subjects

/-- A subject of the survey is listed at every stage. -/
lemma Framed.mem_entries (h : stage.Framed start) {id : ExportId} (hid : id ∈ start.subjects) :
    id ∈ stage.survey.image.exports.entries :=
  h.resembles.exports.mem_iff.2 (Survey.mem_subjects.1 hid).1

/-- **A round fails with a fatal error or does a turn.** -/
theorem Framed.round_cases (h : stage.Framed start) :
    (∃ log error, stage.survey.round stage.progress stage.pending =
      ({ stage.survey with log }, .error error) ∧ error.isFatal) ∨
    ∃ survey progress learned,
      stage.survey.round stage.progress stage.pending = (survey, .ok (progress, learned)) ∧
      ∀ log, stage.Turn (stage.next { survey with log } progress learned) := by
  obtain ⟨log, hinfer⟩ := stage.survey.exists_inferAll stage.pending
  cases hrecord : stage.progress.recordAll (stage.pending.map fun id =>
      (id, stage.survey.image.outcome stage.survey.settings id)) with
  | error error =>
    refine Or.inl ⟨log, error, ?_, Progress.recordAll_fatal _ _ error hrecord⟩
    simp only [Survey.round, hinfer, hrecord]
  | ok progress =>
    have hrecorded := Progress.recorded_of_recordAll hrecord
    have hmem : ∀ id ∈ progress.results, id ∈ stage.survey.image.exports.entries := by
      intro id hid
      refine h.mem_entries ?_
      by_cases hpending : id ∈ stage.pending
      · exact h.pending id hpending
      · exact h.results id ((hrecorded.mem_iff hpending).1.1 hid)
    obtain ⟨image, learned, hlearn, hlearned⟩ :=
      @Survey.exists_learnExitKeys { stage.survey with log } progress hmem
    refine Or.inr ⟨{ stage.survey with image, log }, progress, learned, ?_, fun log' => ?_⟩
    · simp only [Survey.round, hinfer, hrecord, hlearn, Except.map]
    · refine ⟨rfl, hlearned.resembles, hrecorded, hlearned.keys, fun id => ?_, rfl⟩
      rw [next, Progress.mem_again]
      simp only [hlearned.changed]

/-- A turn keeps the frame. -/
lemma Framed.turn (h : stage.Framed start) (hturn : stage.Turn stage') :
    stage'.Framed start := by
  have hresults : ∀ id ∈ stage'.progress.results, id ∈ start.subjects := by
    intro id hid
    by_cases hpending : id ∈ stage.pending
    · exact h.pending id hpending
    · exact h.results id ((hturn.recorded.mem_iff hpending).1.1 hid)
  have hfailures : ∀ id ∈ stage'.progress.failures, id ∈ start.subjects := by
    intro id hid
    by_cases hpending : id ∈ stage.pending
    · exact h.pending id hpending
    · exact h.failures id ((hturn.recorded.mem_iff hpending).2.1 hid)
  refine ⟨h.resembles.trans hturn.resembles, hturn.settings.trans h.settings, fun id hid => ?_,
    hresults, hfailures⟩
  rcases (hturn.pending id).1 hid with ⟨inference, hresult, -⟩ | hfailure
  · obtain ⟨hmem, -⟩ := Std.ExtTreeMap.getElem?_eq_some_iff.1 hresult
    exact hresults id hmem
  · exact hfailures id hfailure

/-- **What every turn keeps holds at every stage**, and so does the frame. -/
theorem Reached.induct {motive : Stage → Prop}
    (hstart : ∀ log, motive { survey := { start with log }, pending := start.subjects })
    (hturn : ∀ stage stage', Reached start stage → stage.Framed start → motive stage →
      stage.pending ≠ [] → stage.Turn stage' → motive stage')
    (h : Reached start stage) : stage.Framed start ∧ motive stage := by
  induction h with
  | start log =>
    refine ⟨⟨.refl _, rfl, fun _ h => h, ?_, ?_⟩, hstart log⟩
    · simp
    · simp
  | turn log hreached hpending hround ih =>
    obtain ⟨hframed, hmotive⟩ := ih
    rcases hframed.round_cases with ⟨_, _, herror, -⟩ | ⟨_, _, _, hok, hturns⟩
    · rw [hround] at herror
      cases herror
    · rw [hround] at hok
      obtain ⟨rfl, hpair⟩ := Prod.mk.inj hok
      obtain ⟨rfl, rfl⟩ := Prod.mk.inj (Except.ok.inj hpair)
      exact ⟨hframed.turn (hturns log), hturn _ _ hreached hframed hmotive hpending (hturns log)⟩

/-- Every stage keeps to the frame. -/
lemma Reached.framed (h : Reached start stage) : stage.Framed start :=
  (h.induct (motive := fun _ => True) (fun _ => trivial) fun _ _ _ _ _ _ _ => trivial).1

end Stage

/-! ## The end of a survey -/

namespace Survey

open Stage (Reached)

variable {start : Survey}

/-- The rounds from a stage on end at a later stage, or with an error of a round.  If fewer rounds
have been made than may be, then the functions that are still pending have failed. -/
theorem rounds_cases {stage : Stage} (h : Reached start stage) (left : Nat) :
    (∃ stage' survey error, Reached start stage' ∧
      stage'.survey.round stage'.progress stage'.pending = (survey, .error error) ∧
      stage.survey.rounds stage.progress left stage.past.length stage.pending =
        (survey, .error error)) ∨
    ∃ stage', Reached start stage' ∧
      stage.survey.rounds stage.progress left stage.past.length stage.pending =
        (stage'.survey, .ok (stage'.progress, stage'.past.length)) ∧
      stage'.past.length ≤ stage.past.length + left + 1 ∧
      (stage'.past.length < stage.past.length + left + 1 →
        ∀ id ∈ stage'.pending, id ∈ stage'.progress.failures) := by
  induction left using Nat.strongRecOn generalizing stage with
  | ind left ih =>
  unfold rounds
  split
  · next hempty =>
    refine Or.inr ⟨stage, h, rfl, by omega, fun _ id hid => ?_⟩
    rw [List.isEmpty_iff.1 hempty] at hid
    cases hid
  · next hpending =>
    split
    · next survey error hround => exact Or.inl ⟨stage, survey, error, h, hround, rfl⟩
    · next survey progress learned hround =>
      have hturn := fun log => h.turn log (fun h => hpending (List.isEmpty_iff.2 h)) hround
      split
      · next hnone =>
        refine Or.inr ⟨_, hturn survey.log, by simp [Stage.next], by simp, fun _ id hid => ?_⟩
        refine (Progress.mem_again.1 hid).resolve_left ?_
        rintro ⟨-, -, callee, -, hcallee⟩
        rw [Std.ExtTreeSet.isEmpty_iff.1 hnone] at hcallee
        exact Std.ExtTreeSet.not_mem_empty hcallee
      · cases left with
        | zero => exact Or.inr ⟨_, hturn survey.log, by simp [Stage.next], by simp, by simp⟩
        | succ left =>
          have hsum : stage.past.length + (left + 1) + 1 = stage.past.length + 1 + left + 1 := by
            omega
          have hlater := fun log => ih left (Nat.lt_succ_self left) (hturn log)
          simp only [Stage.length_past_next] at hlater
          rw [hsum]
          exact hlater _

/-- Reporting who waits changes only the log. -/
lemma reportWaiting_image (survey : Survey) (progress : Progress) :
    (survey.reportWaiting progress).image = survey.image := by
  unfold reportWaiting
  refine List.foldlRecOn (motive := (Survey.image · = survey.image)) _ _ rfl ?_
  intro other hother pair _
  dsimp only
  split
  · exact hother
  · exact hother

/-- Reporting the failures changes only the log. -/
lemma reportFailures_image (survey : Survey) (report : Report) :
    (survey.reportFailures report).image = survey.image := by
  unfold reportFailures
  refine List.foldlRecOn (motive := (Survey.image · = survey.image)) _ _ rfl ?_
  exact fun other hother _ _ => hother

/-- A survey is its rounds, after which the report is made. -/
lemma exists_run (survey : Survey) (elapsed : String) :
    ∃ log survey' outcome,
      rounds { survey with log } {} (survey.settings.exitKeyRounds - 1) 0 survey.subjects =
        (survey', outcome) ∧
      (survey.run elapsed).1.image = survey'.image ∧
      (survey.run elapsed).2 =
        outcome.map fun (progress, rounds) => buildGraphs progress survey.leftOut rounds := by
  unfold run
  simp only [List.partition_eq_filter_filter]
  split
  · next survey' error hrounds => exact ⟨_, survey', .error error, hrounds, rfl, rfl⟩
  · next survey' progress total hrounds =>
    refine ⟨_, survey', .ok (progress, total), hrounds, ?_, rfl⟩
    exact (reportFailures_image _ _).trans (reportWaiting_image _ _)

/-- **How a survey ends.**  At some stage a round fails with a fatal error; or the survey ends at a
stage and reports what has been found there.  If fewer rounds have been made than may be, then the
functions that are still pending have failed. -/
theorem run_cases (survey : Survey) (elapsed : String) :
    (∃ stage error, Reached survey stage ∧ error.isFatal ∧
      (survey.run elapsed).1.image = stage.survey.image ∧
      (survey.run elapsed).2 = .error error) ∨
    ∃ stage, Reached survey stage ∧
      (survey.run elapsed).1.image = stage.survey.image ∧
      (survey.run elapsed).2 =
        .ok (buildGraphs stage.progress survey.leftOut stage.past.length) ∧
      stage.past.length ≤ max 1 survey.settings.exitKeyRounds ∧
      (stage.past.length < max 1 survey.settings.exitKeyRounds →
        ∀ id ∈ stage.pending, id ∈ stage.progress.failures) := by
  obtain ⟨log, survey', outcome, hrounds, himage, houtcome⟩ := survey.exists_run elapsed
  have hlimit : 0 + (survey.settings.exitKeyRounds - 1) + 1 =
      max 1 survey.settings.exitKeyRounds := by omega
  have hstart : Reached survey _ := .start log
  have hcases := rounds_cases hstart (survey.settings.exitKeyRounds - 1)
  simp only [List.length_nil, hlimit, hrounds] at hcases
  rcases hcases with ⟨stage, _, error, hreached, hround, heq⟩ |
      ⟨stage, hreached, heq, hbound, hended⟩
  · obtain ⟨rfl, rfl⟩ := Prod.mk.inj heq
    rcases hreached.framed.round_cases with ⟨log', error', herror, hfatal⟩ |
        ⟨_, _, _, hok, -⟩
    · rw [hround] at herror
      obtain ⟨rfl, hsame⟩ := Prod.mk.inj herror
      obtain rfl := Except.error.inj hsame
      exact Or.inl ⟨stage, error, hreached, hfatal, himage, houtcome⟩
    · rw [hround] at hok
      cases hok
  · obtain ⟨rfl, rfl⟩ := Prod.mk.inj heq
    exact Or.inr ⟨stage, hreached, himage, houtcome, hbound, hended⟩

end Survey

end KeyedVM
