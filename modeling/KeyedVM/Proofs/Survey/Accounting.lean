import KeyedVM.Proofs.ControlFlow.Graphable
import KeyedVM.Proofs.Survey.Rounds

set_option relaxedAutoImplicit false
set_option autoImplicit false

/-!
# Every function is accounted for

A function may be analysed in several rounds, and it may fail in one and succeed in another.  In the
end it is reported exactly once: with its graph, as a failure, or as left out.  Errors that are
fatal end the survey and are in no report.

## Main definitions

* `KeyedVM.Report.Reflects` — a report says what the rounds have found;
* `KeyedVM.Stage.Accounts` — the invariant of the stages of a survey;
* `KeyedVM.Report.Accounts` — a report accounts for every function.

## Main results

* `KeyedVM.ControlFlowGraph.build_fails` — the building of a graph fails only with errors about it;
* `KeyedVM.Survey.reflects_buildGraphs` — the report of a survey says what the rounds have found;
* `KeyedVM.Stage.Reached.accounts` — the invariant holds at every stage;
* `KeyedVM.Survey.run_accounts` — every report accounts for every function.
-/

namespace KeyedVM

/-! ## Errors of graphs -/

/-- Errors of the graph are not fatal. -/
lemma Error.IsGraph.isFatal_eq_false {error : Error} (h : error.IsGraph) :
    error.isFatal = false := by
  obtain ⟨fault, rfl⟩ := h
  rfl

namespace ControlFlowGraph

variable (exportId : ExportId) (graph : Digraph Block FlowEdge)

/-- A target that is not found is an error of the graph. -/
lemma target_fails (role : TargetRole) (offset : Offset) :
    FailsOnly Error.IsGraph (target exportId graph role offset) := by
  unfold target
  split
  · exact .ok _
  · exact .error ⟨_, rfl⟩

/-- An arm without a target is an error of the graph. -/
lemma arms_fails (source : NodeId) (index : Nat) (offsets : List Offset) :
    FailsOnly Error.IsGraph (arms exportId graph source index offsets) := by
  induction offsets generalizing index with
  | nil => exact .ok _
  | cons offset rest ih =>
    refine (target_fails exportId graph .jumpTarget offset).bind fun _ _ => ?_
    exact (ih (index + 1)).bind fun _ _ => .pure _

/-- A block whose links are not found is an error of the graph. -/
lemma links_fails (source : NodeId) (block : Block) :
    FailsOnly Error.IsGraph (links exportId graph source block) := by
  unfold links
  split
  · exact arms_fails exportId graph source 0 _
  · exact arms_fails exportId graph source 0 _
  · exact arms_fails exportId graph source 0 _
  · split
    · exact .ok _
    · split
      · exact .ok _
      · exact .ok _

/-- A link that cannot be entered is an error of the graph. -/
lemma connect_fails (links : List Link) : FailsOnly Error.IsGraph (connect graph links) := by
  induction links generalizing graph with
  | nil => exact .ok _
  | cons link rest ih =>
    refine FailsOnly.bind ?_ fun added _ => ih added.2
    unfold Digraph.addEdge
    split
    · exact .ok _
    · exact .error ⟨_, rfl⟩

/-- A region that is not found in the blocks is an error of the graph. -/
lemma connectRegion_fails (region : Region) :
    FailsOnly Error.IsGraph (connectRegion exportId graph region) := by
  unfold connectRegion
  split
  · exact .error ⟨_, rfl⟩
  · refine FailsOnly.bind (.mapM fun offset _ => ?_) fun found _ => connect_fails graph found
    exact (target_fails exportId graph .handler offset).bind fun _ _ => .pure _

/-- Regions that are not found in the blocks are an error of the graph. -/
lemma connectRegions_fails (regions : List Region) :
    FailsOnly Error.IsGraph (connectRegions exportId graph regions) := by
  induction regions generalizing graph with
  | nil => exact .ok _
  | cons region rest ih =>
    exact (connectRegion_fails exportId graph region).bind fun graph _ => ih graph

/-- **The building of a graph fails only with errors about it.** -/
theorem build_fails (entry : Offset) (findings : List Finding) (headers : Std.ExtTreeSet Offset)
    (regions : List Region) :
    FailsOnly Error.IsGraph (build exportId entry findings headers regions) := by
  unfold build
  split
  · exact .error ⟨_, rfl⟩
  · dsimp only
    split
    · exact .error ⟨_, rfl⟩
    · refine FailsOnly.bind ?_ fun graph _ => ?_
      · refine FailsOnly.bind (.mapM fun pair _ => ?_) fun found _ => connect_fails _ _
        exact links_fails exportId _ pair.1 pair.2
      · exact (connectRegions_fails exportId graph regions).bind fun _ _ => .pure _

end ControlFlowGraph

/-- The graph of a result fails with errors of the graph only. -/
lemma Inference.graph_fails (inference : Inference) : FailsOnly Error.IsGraph inference.graph :=
  ControlFlowGraph.build_fails _ _ _ _ _

/-! ## The report of what has been found -/

namespace Report

variable {report report' report'' : Report}

/-- Analysed functions have been added to a report.  Whatever is in it was there before or is one of
these functions, either with its graph or as a failure. -/
structure Adds (pairs : List (ExportId × Inference)) (report report' : Report) : Prop where
  exports : ∀ (id : ExportId) (recovered : Recovered), report'.exports[id]? = some recovered →
    report.exports[id]? = some recovered ∨
      (id, recovered.inference) ∈ pairs ∧ recovered.inference.graph = .ok recovered.graph
  failures : ∀ (id : ExportId) (failure : Failure), report'.failures[id]? = some failure →
    report.failures[id]? = some failure ∨
      ∃ inference, (id, inference) ∈ pairs ∧ inference.graph = .error failure.error
  mem_iff : ∀ id, id ∈ report'.exports ∨ id ∈ report'.failures ↔
    (id ∈ report.exports ∨ id ∈ report.failures) ∨ ∃ inference, (id, inference) ∈ pairs
  skipped : report'.skipped = report.skipped
  rounds : report'.rounds = report.rounds

/-- A result that is added gets a graph, or counts as a failure of the graph. -/
lemma adds_add (report : Report) (id : ExportId) (inference : Inference) :
    Adds [(id, inference)] report (report.add id inference) := by
  unfold add
  split
  · next graph hgraph =>
    refine ⟨fun other recovered h => ?_, fun _ _ h => Or.inl h, fun other => ?_, rfl, rfl⟩
    · rw [Std.ExtTreeMap.getElem?_insert] at h
      split at h
      · next heq =>
        obtain rfl := Std.LawfulEqOrd.eq_of_compare heq
        obtain rfl := Option.some.inj h
        exact Or.inr ⟨List.mem_singleton_self _, hgraph⟩
      · exact Or.inl h
    · simp only [Std.ExtTreeMap.mem_insert, Std.compare_eq_iff_eq, List.mem_singleton,
        Prod.mk.injEq, exists_and_left, exists_eq, and_true, eq_comm (a := id)]
      tauto
  · next error herror =>
    refine ⟨fun _ _ h => Or.inl h, fun other failure h => ?_, fun other => ?_, rfl, rfl⟩
    · rw [Std.ExtTreeMap.getElem?_insert] at h
      split at h
      · next heq =>
        obtain rfl := Std.LawfulEqOrd.eq_of_compare heq
        obtain rfl := Option.some.inj h
        exact Or.inr ⟨inference, List.mem_singleton_self _, herror⟩
      · exact Or.inl h
    · simp only [Std.ExtTreeMap.mem_insert, Std.compare_eq_iff_eq, List.mem_singleton,
        Prod.mk.injEq, exists_and_left, exists_eq, and_true, eq_comm (a := id)]
      tauto

/-- Results that are added one after the other are added together. -/
lemma Adds.append {first second : List (ExportId × Inference)} (h : Adds first report report')
    (h' : Adds second report' report'') : Adds (first ++ second) report report'' := by
  refine ⟨fun id recovered hexport => ?_, fun id failure hfailure => ?_, fun id => ?_,
    h'.skipped.trans h.skipped, h'.rounds.trans h.rounds⟩
  · rcases h'.exports id recovered hexport with hexport | ⟨hmem, hgraph⟩
    · refine (h.exports id recovered hexport).imp_right fun ⟨hmem, hgraph⟩ => ⟨?_, hgraph⟩
      exact List.mem_append_left _ hmem
    · exact Or.inr ⟨List.mem_append_right _ hmem, hgraph⟩
  · rcases h'.failures id failure hfailure with hfailure | ⟨inference, hmem, hgraph⟩
    · refine (h.failures id failure hfailure).imp_right fun ⟨inference, hmem, hgraph⟩ => ?_
      exact ⟨inference, List.mem_append_left _ hmem, hgraph⟩
    · exact Or.inr ⟨inference, List.mem_append_right _ hmem, hgraph⟩
  · rw [h'.mem_iff, h.mem_iff, or_assoc, ← exists_or]
    simp only [List.mem_append]

/-- Results that are added in a row are added together. -/
lemma adds_foldl (pairs : List (ExportId × Inference)) (report : Report) :
    Adds pairs report
      (pairs.foldl (fun report (id, inference) => report.add id inference) report) := by
  induction pairs generalizing report with
  | nil => exact ⟨fun _ _ h => Or.inl h, fun _ _ h => Or.inl h, by simp, rfl, rfl⟩
  | cons pair rest ih => exact (adds_add report pair.1 pair.2).append (ih _)

/-- A report says what the rounds have found.  Every function in it has a result and the graph of
that result; a failure is one of the rounds, or the graph of a result cannot be built; and the
report is about the same functions as the rounds. -/
structure Reflects (progress : Progress) (report : Report) : Prop where
  exports : ∀ (id : ExportId) (recovered : Recovered), report.exports[id]? = some recovered →
    progress.results[id]? = some recovered.inference ∧
      recovered.inference.graph = .ok recovered.graph
  failures : ∀ (id : ExportId) (failure : Failure), report.failures[id]? = some failure →
    progress.failures[id]? = some failure ∨
      ∃ inference, progress.results[id]? = some inference ∧ inference.graph = .error failure.error
  mem_iff : ∀ id, id ∈ report.exports ∨ id ∈ report.failures ↔
    id ∈ progress.results ∨ id ∈ progress.failures

variable {progress : Progress} {id : ExportId}

/-- What is exported in a report is no failure there. -/
lemma Reflects.not_mem_failures (h : report.Reflects progress)
    (hdisjoint : ∀ id ∈ progress.results, id ∉ progress.failures) (hid : id ∈ report.exports) :
    id ∉ report.failures := by
  intro hfailed
  obtain ⟨hresult, hgraph⟩ := h.exports id _ (Std.ExtTreeMap.getElem?_eq_some_getElem hid)
  rcases h.failures id _ (Std.ExtTreeMap.getElem?_eq_some_getElem hfailed) with
      hold | ⟨inference, hsame, hnone⟩
  · obtain ⟨hmem, -⟩ := Std.ExtTreeMap.getElem?_eq_some_iff.1 hresult
    obtain ⟨hmem', -⟩ := Std.ExtTreeMap.getElem?_eq_some_iff.1 hold
    exact hdisjoint id hmem hmem'
  · obtain rfl := Option.some.inj (hresult.symm.trans hsame)
    rw [hgraph] at hnone
    cases hnone

/-- The failures of a report are not fatal if those of the progress are not. -/
lemma Reflects.isFatal_eq_false (h : report.Reflects progress)
    (hbearable : ∀ (id : ExportId) (failure : Failure), progress.failures[id]? = some failure →
      failure.error.isFatal = false)
    {failure : Failure} (hfailure : report.failures[id]? = some failure) :
    failure.error.isFatal = false := by
  rcases h.failures id failure hfailure with hold | ⟨inference, -, hnone⟩
  · exact hbearable id failure hold
  · exact (inference.graph_fails failure.error hnone).isFatal_eq_false

end Report

/-- **The report of a survey says what the rounds have found.** -/
theorem Survey.reflects_buildGraphs (progress : Progress) (skipped : List ExportId) (rounds : Nat) :
    (buildGraphs progress skipped rounds).Reflects progress ∧
      (buildGraphs progress skipped rounds).skipped = skipped ∧
      (buildGraphs progress skipped rounds).rounds = rounds := by
  have hadds := Report.adds_foldl progress.results.toList
    { failures := progress.failures, skipped, rounds }
  have hmem : ∀ (id : ExportId) (inference : Inference),
      (id, inference) ∈ progress.results.toList ↔ progress.results[id]? = some inference :=
    fun _ _ => Std.ExtTreeMap.mem_toList_iff_getElem?_eq_some
  refine ⟨⟨fun id recovered h => ?_, fun id failure h => ?_, fun id => ?_⟩, hadds.skipped,
    hadds.rounds⟩
  · rcases hadds.exports id recovered h with hnone | ⟨hpair, hgraph⟩
    · simp at hnone
    · exact ⟨(hmem _ _).1 hpair, hgraph⟩
  · refine (hadds.failures id failure h).imp_right fun ⟨inference, hpair, hgraph⟩ => ?_
    exact ⟨inference, (hmem _ _).1 hpair, hgraph⟩
  · rw [buildGraphs, hadds.mem_iff]
    simp only [hmem, ← Option.isSome_iff_exists, ← Std.ExtTreeMap.mem_iff_isSome_getElem?,
      Std.ExtTreeMap.not_mem_empty, false_or, or_comm]

/-! ## The stages of a survey -/

namespace Stage

variable {start : Survey} {stage stage' : Stage}

/-- The invariant of the stages of a survey: no function has both a result and a failure, and after
the first round every function has one of them; no failure is fatal; and there are no rounds unless
there are functions. -/
structure Accounts (start : Survey) (stage : Stage) : Prop where
  disjoint : ∀ id ∈ stage.progress.results, id ∉ stage.progress.failures
  bearable : ∀ (id : ExportId) (failure : Failure),
    stage.progress.failures[id]? = some failure → failure.error.isFatal = false
  complete : stage.past ≠ [] → ∀ id ∈ start.subjects,
    id ∈ stage.progress.results ∨ id ∈ stage.progress.failures
  fresh : stage.past = [] → stage.pending = start.subjects ∧ stage.progress = {}
  busy : stage.past ≠ [] → start.subjects ≠ []

/-- A function that was analysed has a result or a failure, not both. -/
lemma Turn.mem_iff (h : stage.Turn stage') {id : ExportId} (hid : id ∈ stage.pending) :
    id ∈ stage'.progress.results ↔ id ∉ stage'.progress.failures := by
  simp only [Std.ExtTreeMap.mem_iff_isSome_getElem?]
  cases houtcome : stage.survey.image.outcome stage.survey.settings id with
  | ok inference =>
    obtain ⟨hresult, hfailure⟩ := h.recorded.ok id hid inference houtcome
    simp [hresult, hfailure]
  | error error =>
    obtain ⟨-, hresult, hfailure⟩ := h.recorded.error id hid error houtcome
    simp [hresult, hfailure]

/-- A turn keeps the invariant. -/
lemma Accounts.turn (h : stage.Accounts start) (hframed : stage.Framed start)
    (hpending : stage.pending ≠ []) (hturn : stage.Turn stage') : stage'.Accounts start := by
  have hpast : stage'.past ≠ [] := by simp [hturn.past]
  refine ⟨fun id hid => ?_, fun id failure hfailure => ?_, fun _ id hid => ?_,
    fun h => absurd h hpast, fun _ => ?_⟩
  · by_cases hmem : id ∈ stage.pending
    · exact (hturn.mem_iff hmem).1 hid
    · obtain ⟨hresults, hfailures⟩ := hturn.recorded.mem_iff hmem
      rw [hfailures]
      exact h.disjoint id (hresults.1 hid)
  · rcases hturn.recorded.failure_cases hfailure with ⟨-, -, hfatal⟩ | ⟨-, hold⟩
    · exact hfatal
    · exact h.bearable id failure hold
  · by_cases hmem : id ∈ stage.pending
    · rw [hturn.mem_iff hmem]
      exact (em _).symm
    · obtain ⟨hresults, hfailures⟩ := hturn.recorded.mem_iff hmem
      rw [hresults, hfailures]
      refine h.complete (fun hnone => hmem ?_) id hid
      rwa [(h.fresh hnone).1]
  · obtain ⟨id, hid⟩ := List.exists_mem_of_ne_nil _ hpending
    exact List.ne_nil_of_mem (hframed.pending id hid)

/-- **The invariant holds at every stage.** -/
theorem Reached.accounts (h : Reached start stage) : stage.Accounts start := by
  refine (h.induct (fun log => ?_) fun _ _ _ hframed hold hpending hturn =>
    hold.turn hframed hpending hturn).2
  refine ⟨?_, ?_, fun h => absurd rfl h, fun _ => ⟨rfl, rfl⟩, fun h => absurd rfl h⟩
  · simp
  · simp

/-- A survey that has ended has made no round exactly if it has no functions. -/
lemma Accounts.past_eq_nil_iff (h : stage.Accounts start)
    (hended : stage.past = [] → ∀ id ∈ stage.pending, id ∈ stage.progress.failures) :
    stage.past = [] ↔ start.subjects = [] := by
  refine ⟨fun hpast => ?_, fun hnone => not_not.1 fun hpast => h.busy hpast hnone⟩
  obtain ⟨hpending, hprogress⟩ := h.fresh hpast
  rw [hpending, hprogress] at hended
  exact List.eq_nil_iff_forall_not_mem.2 fun id hid =>
    Std.ExtTreeMap.not_mem_empty (hended hpast id hid)

/-- When a survey has ended, all its functions have results or failures, and no others have. -/
lemma Accounts.mem_iff (h : stage.Accounts start) (hframed : stage.Framed start)
    (hpast : stage.past = [] ↔ start.subjects = []) (id : ExportId) :
    id ∈ stage.progress.results ∨ id ∈ stage.progress.failures ↔ id ∈ start.subjects := by
  refine ⟨fun hid => hid.elim (hframed.results id) (hframed.failures id), fun hid => ?_⟩
  exact h.complete (fun hnone => List.ne_nil_of_mem hid (hpast.1 hnone)) id hid

end Stage

/-! ## The report of a survey -/

/-- A report accounts for every function of the program: with a graph, as a failure or as left out,
and only in one of these ways.  Left out is at most the function that initialises the runtime; no
failure is fatal; and there are rounds unless all functions are left out, but not more than may
be. -/
structure Report.Accounts (survey : Survey) (report : Report) : Prop where
  mem_iff : ∀ id, id ∈ survey.image.exports.entries ↔
    id ∈ report.exports ∨ id ∈ report.failures ∨ id ∈ report.skipped
  exports : ∀ id ∈ report.exports, id ∉ report.failures ∧ id ∉ report.skipped
  failures : ∀ id ∈ report.failures, id ∉ report.skipped
  skipped : report.skipped =
    if survey.settings.skipInitHelper ∧ survey.image.table.initHelper ∈ survey.image.exports.entries
    then [survey.image.table.initHelper] else []
  bearable : ∀ (id : ExportId) (failure : Failure),
    report.failures[id]? = some failure → failure.error.isFatal = false
  rounds_eq_zero : report.rounds = 0 ↔ ∀ id ∈ survey.image.exports.entries, id ∈ report.skipped
  rounds_le : report.rounds ≤ max 1 survey.settings.exitKeyRounds

namespace Survey

/-- A survey leaves out at most the function that initialises the runtime. -/
lemma leftOut_eq (survey : Survey) : survey.leftOut =
    if survey.settings.skipInitHelper ∧ survey.image.table.initHelper ∈ survey.image.exports.entries
    then [survey.image.table.initHelper] else [] := by
  rw [leftOut_eq_filter]
  cases survey.settings.skipInitHelper with
  | false => simp
  | true =>
    simp only [Bool.true_and, List.filter_eq, true_and]
    split
    · next hmem =>
      rw [List.count_eq_one_of_mem Std.ExtTreeMap.nodup_keys (Std.ExtTreeMap.mem_keys.2 hmem),
        List.replicate_one]
    · next hmem =>
      rw [List.count_eq_zero.2 fun h => hmem (Std.ExtTreeMap.mem_keys.1 h), List.replicate_zero]

/-- **Every report accounts for every function**, and only a fatal error keeps a survey from making
one.

**Proof sketch.** A round takes every function that it analyses out of the failures and puts it
among the results, or the other way round; the first round analyses all of them.  So at every later
stage each function is in exactly one of the two.  The report sorts the results into functions with
a graph and further failures, which are not fatal since they are about graphs. -/
theorem run_accounts (survey : Survey) (elapsed : String) :
    FailsOnly (·.isFatal) (survey.run elapsed).2 ∧
      ∀ report, (survey.run elapsed).2 = .ok report → report.Accounts survey := by
  rcases survey.run_cases elapsed with ⟨stage, error, -, hfatal, -, herror⟩ |
      ⟨stage, hreached, -, hok, hbound, hended⟩
  · rw [herror]
    exact ⟨.error hfatal, fun _ h => nomatch h⟩
  rw [hok]
  refine ⟨.ok _, fun report hreport => ?_⟩
  obtain rfl := Except.ok.inj hreport
  have haccounts := hreached.accounts
  obtain ⟨hreflects, hskipped, hrounds⟩ :=
    reflects_buildGraphs stage.progress survey.leftOut stage.past.length
  generalize buildGraphs stage.progress survey.leftOut stage.past.length = report at *
  have hpast : stage.past = [] ↔ survey.subjects = [] := haccounts.past_eq_nil_iff fun hnone =>
    hended (by rw [hnone]; exact Nat.lt_of_lt_of_le Nat.one_pos (Nat.le_max_left _ _))
  have hsubjects : ∀ id, id ∈ report.exports ∨ id ∈ report.failures ↔ id ∈ survey.subjects :=
    fun id => (hreflects.mem_iff id).trans (haccounts.mem_iff hreached.framed hpast id)
  refine ⟨fun id => ?_, fun id hid => ⟨hreflects.not_mem_failures haccounts.disjoint hid, ?_⟩,
    fun id hid => ?_, hskipped.trans survey.leftOut_eq,
    fun _ _ => hreflects.isFatal_eq_false haccounts.bearable, ?_, hrounds ▸ hbound⟩
  · rw [← or_assoc, hsubjects, mem_subjects, hskipped]
    refine ⟨fun hid => ?_, fun hid => hid.elim And.left fun hid => (mem_leftOut.1 hid).1⟩
    by_cases hleft : id ∈ survey.leftOut
    · exact Or.inr hleft
    · exact Or.inl ⟨hid, hleft⟩
  · rw [hskipped]
    exact (mem_subjects.1 ((hsubjects id).1 (Or.inl hid))).2
  · rw [hskipped]
    exact (mem_subjects.1 ((hsubjects id).1 (Or.inr hid))).2
  · rw [hrounds, List.length_eq_zero_iff, hpast, List.eq_nil_iff_forall_not_mem, hskipped]
    simp only [mem_subjects, not_and, not_not]

end Survey

/-- Four functions.  The function 0 initialises the runtime; 1 calls 2 and then returns; 2 returns
at once, but its exit key in the table is not the one with which it does; 3 is where no code is. -/
def Image.mixed : Image where
  blob := .ofBlocks .sequential
    [(0, [(.pushi .dword, .dword 16), (.call, .none)]),
      (46942392, [(.pushi .dword, .dword 0), (.ret, .none)]),
      (0, [(.pushi .dword, .dword 0), (.ret, .none)])]
  table := .sequential
  exports := .ofList [
    { id := 0, offset := 0, entryKey? := some 0 },
    { id := 1, offset := 0, entryKey? := some 0 },
    { id := 2, offset := 16, entryKey? := some 0, exitKey? := some 1 },
    { id := 3, offset := 24, entryKey? := some 0 }]
  references := ∅

/-- The function 1 fails in the first round, since 2 does not return with the key in the table, and
succeeds in the second one; 3 fails in both. -/
theorem Survey.run_accounts_mixed : (Image.mixed.outcome {} 1).isOk = false ∧
    ∃ report, ((start .mixed {}).run "").2 = .ok report ∧
      report.exports.keys = [1, 2] ∧ report.failures.keys = [3] ∧ report.skipped = [0] ∧
      report.rounds = 2 ∧ report.Accounts (start .mixed {}) := by
  obtain ⟨report, hreport, hexports, hfailures, hskipped, hrounds⟩ :
      ∃ report, ((start .mixed {}).run "").2 = .ok report ∧ report.exports.keys = [1, 2] ∧
        report.failures.keys = [3] ∧ report.skipped = [0] ∧ report.rounds = 2 :=
    exists_eq_ok (by decide +kernel)
  exact ⟨by decide +kernel, report, hreport, hexports, hfailures, hskipped, hrounds,
    ((start .mixed {}).run_accounts "").2 report hreport⟩

end KeyedVM
