import KeyedVM.Proofs.ControlFlow.Building
import KeyedVM.Proofs.Decoding
import KeyedVM.Proofs.Inference.Charting
import KeyedVM.Proofs.Inference.Faults
import KeyedVM.Proofs.Inference.Soundness
import KeyedVM.Survey

set_option relaxedAutoImplicit false
set_option autoImplicit false

/-!
# Every analysed function has a graph

Whatever an analysis has found, the control flow graph of it can be built: the analysis has followed
every target, so that an instruction is recorded there, and noted it as the start of a block.  The
errors of an analysis are never about graphs.  So no survey ever blames a graph.

## Main definitions

* `KeyedVM.Inference.MappedBy` — a graph has a block wherever an analysis needs one;
* `KeyedVM.Error.IsGraph` — an error says that no graph can be built;
* `KeyedVM.Progress.Graphable` — the invariant of the rounds of a survey.

## Main results

* `KeyedVM.Context.infer_buildable` — what an analysis has found is buildable;
* `KeyedVM.Survey.round_graphable`, `rounds_graphable` — the rounds of a survey keep the invariant;
* `KeyedVM.Image.infer_mapped` — every analysed function has a graph, and no survey blames one.
-/

namespace KeyedVM

open ControlFlowGraph (Starts Buildable)

/-! ## One function -/

/-- The instructions of a result are its findings. -/
lemma Inference.mem_toList {inference : Inference} {finding : Finding} :
    finding ∈ inference.toList ↔
      ∃ offset : Offset, inference.findings[offset]? = some finding := by
  simp only [Inference.toList, List.mem_map, Prod.exists, exists_eq_right,
    Std.ExtTreeMap.mem_toList_iff_getElem?_eq_some]

namespace Context

variable {context : Context} {log : Log} {inference : Inference}

/-- Where an analysis has a finding, an instruction is listed. -/
lemma exists_mem_toList (h : (context.infer log).2 = .ok inference) {offset : Offset}
    (hmem : offset ∈ inference.findings) :
    ∃ finding ∈ inference.toList, finding.offset = offset := by
  obtain ⟨finding, hfinding⟩ := Option.isSome_iff_exists.1
    (Std.ExtTreeMap.mem_iff_isSome_getElem?.1 hmem)
  exact ⟨finding, Inference.mem_toList.2 ⟨offset, hfinding⟩, (decodeAt_of_infer h hfinding).2.1⟩

/-- **What an analysis has found is buildable.** -/
theorem infer_buildable (hblob : context.image.blob.Addressable)
    (h : (context.infer log).2 = .ok inference) :
    Buildable inference.entry inference.toList inference.headers inference.regions.toList := by
  obtain ⟨⟨-, hentry⟩, htargets, hregions⟩ := charted_of_infer h
  have hlisted : ∀ offset, offset ∈ inference.headers ∧ offset ∈ inference.findings →
      offset ∈ inference.headers ∧ ∃ finding ∈ inference.toList, finding.offset = offset :=
    fun offset hoffset => ⟨hoffset.1, exists_mem_toList h hoffset.2⟩
  refine ⟨exists_mem_toList h hentry, ?_, ?_, ?_, ?_⟩
  · intro finding hmem target htarget
    obtain ⟨offset, hfinding⟩ := Inference.mem_toList.1 hmem
    exact hlisted target (htargets offset finding hfinding target htarget)
  · intro region hmem
    exact exists_mem_toList h (hregions region (Std.ExtTreeSet.mem_toList.1 hmem)).1
  · intro region hmem entry hentry
    exact hlisted entry ((hregions region (Std.ExtTreeSet.mem_toList.1 hmem)).2 entry hentry)
  · intro finding hmem
    obtain ⟨offset, hfinding⟩ := Inference.mem_toList.1 hmem
    obtain ⟨-, -, key, hdecode⟩ := decodeAt_of_infer h hfinding
    exact lt_next_of_decodeAt hblob hdecode

end Context

/-- A graph has a block wherever an analysis needs one: there are instructions, the entry of the
graph starts at the entry of the function, every target of a jump and every filter and handler
starts a block, and the opener of every protected region lies in a block. -/
structure Inference.MappedBy (inference : Inference) (cfg : ControlFlowGraph) : Prop where
  nonempty : inference.toList ≠ []
  entry : ∃ block, cfg.graph.node? cfg.entry = some block ∧ block.offset = inference.entry
  targets : ∀ finding ∈ inference.toList, ∀ target ∈ finding.targets, Starts cfg.graph target
  handlers : ∀ region ∈ inference.regions, ∀ entry ∈ region.entries, Starts cfg.graph entry
  openers : ∀ region ∈ inference.regions, ∃ node block, cfg.blockAt? region.opener = some node ∧
    cfg.graph.node? node = some block ∧ block.contains region.opener = true

/-- What is buildable is mapped by its graph. -/
lemma Inference.exists_mappedBy {inference : Inference} (h : Buildable inference.entry
      inference.toList inference.headers inference.regions.toList) :
    ∃ cfg, inference.graph = .ok cfg ∧ inference.MappedBy cfg := by
  obtain ⟨cfg, hcfg, hnodes, hentry⟩ := ControlFlowGraph.exists_build inference.exportId h
  have hstarts : ∀ offset, (offset ∈ inference.headers ∧
      ∃ finding ∈ inference.toList, finding.offset = offset) → Starts cfg.graph offset :=
    fun offset hoffset => ControlFlowGraph.starts_of_mem hnodes hoffset.2 (Or.inr hoffset.1)
  refine ⟨cfg, hcfg, ?_, hentry, ?_, ?_, ?_⟩
  · obtain ⟨finding, hmem, -⟩ := h.entry
    exact List.ne_nil_of_mem hmem
  · intro finding hmem target htarget
    exact hstarts target (h.targets finding hmem target htarget)
  · intro region hmem entry hentry
    exact hstarts entry (h.handlers region (Std.ExtTreeSet.mem_toList.2 hmem) entry hentry)
  · intro region hmem
    obtain ⟨node, hnode, -⟩ := ControlFlowGraph.exists_holding? hnodes h.ascends
      (h.openers region (Std.ExtTreeSet.mem_toList.2 hmem))
    obtain ⟨block, hblock, hcontains⟩ := ControlFlowGraph.contains_of_holding? hnode
    exact ⟨node, block, hnode, hblock, hcontains⟩

/-! ## All functions -/

/-- An error says that no graph can be built. -/
def Error.IsGraph (error : Error) : Prop := ∃ fault, error = .graph fault

/-- Neither an error that names an offset nor one about a limit is an error of the graph. -/
lemma Error.not_isGraph {error : Error} (h : error.IsLocated ∨ error.IsLimit) :
    ¬ error.IsGraph := by
  rintro ⟨fault, rfl⟩
  rcases h with h | ⟨limit, h⟩
  · exact Bool.false_ne_true h
  · cases h

/-- The outcome of an analysis has a graph if it is a success, and blames none if it is not. -/
structure Graphable (outcome : Except Error Inference) : Prop where
  ok : ∀ inference, outcome = .ok inference → ∃ cfg, inference.graph = .ok cfg ∧
    inference.MappedBy cfg
  error : FailsOnly (¬ ·.IsGraph) outcome

/-- **Every outcome of an analysis is graphable.** -/
theorem Image.infer_graphable {image : Image} (hblob : image.blob.Addressable)
    (settings : Settings) (log : Log) (id : ExportId) :
    Graphable (image.infer settings log id).2 := by
  unfold Image.infer
  split
  · next error herror =>
    refine ⟨fun inference h => (nomatch h), FailsOnly.error ?_⟩
    rintro ⟨fault, rfl⟩
    unfold ExportTable.find at herror
    split at herror <;> cases herror
  · refine ⟨fun inference h => Inference.exists_mappedBy (Context.infer_buildable hblob h), ?_⟩
    exact (Context.infer_fails _ log).mono fun _ => Error.not_isGraph

namespace Progress

/-- The invariant of the rounds of a survey: every result has a graph, and no failure blames one. -/
structure Graphable (progress : Progress) : Prop where
  results : ∀ (id : ExportId) (inference : Inference), progress.results[id]? = some inference →
    ∃ cfg, inference.graph = .ok cfg
  failures : ∀ (id : ExportId) (failure : Failure), progress.failures[id]? = some failure →
    ¬ failure.error.IsGraph

variable {progress progress' : Progress}

/-- Taking over the outcome of an analysis keeps the invariant. -/
lemma Graphable.record (h : progress.Graphable) {id : ExportId}
    {outcome : Except Error Inference} (houtcome : KeyedVM.Graphable outcome)
    (hrecord : progress.record id outcome = .ok progress') : progress'.Graphable := by
  cases outcome with
  | ok inference =>
    obtain rfl := Except.ok.inj hrecord
    refine ⟨fun other known hknown => ?_, fun other failure hfailure => ?_⟩
    · rw [Std.ExtTreeMap.getElem?_insert] at hknown
      split at hknown
      · obtain rfl := Option.some.inj hknown
        obtain ⟨cfg, hcfg, -⟩ := houtcome.ok inference rfl
        exact ⟨cfg, hcfg⟩
      · exact h.results other known hknown
    · rw [Std.ExtTreeMap.getElem?_erase] at hfailure
      split at hfailure
      · cases hfailure
      · exact h.failures other failure hfailure
  | error error =>
    rw [Progress.record] at hrecord
    split at hrecord
    · cases hrecord
    · obtain rfl := Except.ok.inj hrecord
      refine ⟨fun other known hknown => ?_, fun other failure hfailure => ?_⟩
      · rw [Std.ExtTreeMap.getElem?_erase] at hknown
        split at hknown
        · cases hknown
        · exact h.results other known hknown
      · rw [Std.ExtTreeMap.getElem?_insert] at hfailure
        split at hfailure
        · obtain rfl := Option.some.inj hfailure
          exact houtcome.error error rfl
        · exact h.failures other failure hfailure

/-- Recording outcomes that are graphable, one after the other, keeps the invariant. -/
lemma Graphable.recordAll (h : progress.Graphable)
    {outcomes : List (ExportId × Except Error Inference)}
    (houtcomes : ∀ pair ∈ outcomes, KeyedVM.Graphable pair.2)
    (hrecord : progress.recordAll outcomes = .ok progress') : progress'.Graphable := by
  induction outcomes generalizing progress with
  | nil =>
    obtain rfl := Except.ok.inj hrecord
    exact h
  | cons pair rest ih =>
    obtain ⟨middle, hmiddle, hrest⟩ := bind_eq_ok_iff.1 hrecord
    exact ih (h.record (houtcomes pair List.mem_cons_self) hmiddle)
      (fun other hother => houtcomes other (List.mem_cons_of_mem _ hother)) hrest

/-- An error that ends a survey is one of an analysis. -/
lemma recordAll_fails {outcomes : List (ExportId × Except Error Inference)}
    (houtcomes : ∀ pair ∈ outcomes, KeyedVM.Graphable pair.2) :
    FailsOnly (¬ ·.IsGraph) (progress.recordAll outcomes) := by
  induction outcomes generalizing progress with
  | nil => exact .ok _
  | cons pair rest ih =>
    obtain ⟨id, outcome⟩ := pair
    refine FailsOnly.bind ?_ fun middle _ =>
      ih fun other hother => houtcomes other (List.mem_cons_of_mem _ hother)
    cases outcome with
    | ok inference => exact .ok _
    | error error =>
      rw [record]
      split
      · exact .error ((houtcomes _ List.mem_cons_self).error error rfl)
      · exact .ok _

end Progress

namespace Survey

/-- Analysing functions one after the other leaves the program alone, and every outcome is
graphable. -/
lemma inferAll_graphable {survey : Survey} (hblob : survey.image.blob.Addressable)
    (ids : List ExportId) : (survey.inferAll ids).1.image = survey.image ∧
      ∀ pair ∈ (survey.inferAll ids).2, Graphable pair.2 := by
  induction ids generalizing survey with
  | nil => exact ⟨rfl, fun pair hmem => absurd hmem List.not_mem_nil⟩
  | cons id rest ih =>
    have hsame : (survey.infer id).1.image = survey.image := rfl
    obtain ⟨himage, houtcomes⟩ := @ih (survey.infer id).1 (hsame ▸ hblob)
    refine ⟨himage, fun pair hmem => ?_⟩
    rcases List.mem_cons.1 hmem with rfl | hmem
    · exact Image.infer_graphable hblob survey.settings survey.log id
    · exact houtcomes pair hmem

/-- If exit keys cannot be learned, that is not because of a graph. -/
lemma learn_fails (exports : ExportTable) (results : List (ExportId × Inference)) :
    FailsOnly (¬ ·.IsGraph) (learn exports results).2 := by
  induction results generalizing exports with
  | nil => exact .ok _
  | cons pair rest ih =>
    have hfind : ∀ (exports : ExportTable) id, FailsOnly (¬ ·.IsGraph) (exports.find id) := by
      intro exports id error herror
      unfold ExportTable.find at herror
      split at herror
      · cases herror
      · obtain rfl := Except.error.inj herror
        rintro ⟨fault, h⟩
        cases h
    have hlearnKey : ∀ exports id key, FailsOnly (¬ ·.IsGraph) (learnKey exports id key) := by
      intro exports id key
      refine (hfind exports id).bind fun item _ => ?_
      split
      · exact .pure _
      · exact ((hfind exports id).bind fun _ _ => .pure _).bind fun _ _ => .pure _
    unfold learn
    split
    · exact ih exports
    · split
      · next error herror => exact .error (hlearnKey _ _ _ error herror)
      · exact (ih _).map

/-- **A round keeps the invariant** and the code, and it never ends with an error about a graph. -/
theorem round_graphable {survey survey' : Survey} {progress : Progress} {pending : List ExportId}
    {outcome : Except Error (Progress × Std.ExtTreeSet ExportId)}
    (hround : survey.round progress pending = (survey', outcome))
    (hblob : survey.image.blob.Addressable) (h : progress.Graphable) :
    survey'.image.blob = survey.image.blob ∧ FailsOnly (¬ ·.IsGraph) outcome ∧
      ∀ progress' learned, outcome = .ok (progress', learned) → progress'.Graphable := by
  obtain ⟨himage, houtcomes⟩ := inferAll_graphable hblob pending
  unfold round at hround
  dsimp only at hround
  split at hround
  · next error herror =>
    obtain ⟨rfl, rfl⟩ := Prod.mk.inj hround
    refine ⟨by rw [himage], .error (Progress.recordAll_fails houtcomes error herror), ?_⟩
    exact fun _ _ h => nomatch h
  · next middle hmiddle =>
    obtain ⟨rfl, rfl⟩ := Prod.mk.inj hround
    refine ⟨?_, (learn_fails _ _).map, fun progress' learned heq => ?_⟩
    · change (survey.inferAll pending).1.image.blob = _
      rw [himage]
    · obtain ⟨_, -, hpair⟩ := map_eq_ok_iff.1 heq
      obtain ⟨rfl, -⟩ := Prod.mk.inj hpair
      exact h.recordAll houtcomes hmiddle

/-- **The rounds of a survey keep the invariant**, and they never end with an error about a
graph. -/
theorem rounds_graphable {survey survey' : Survey} {progress : Progress} {left done : Nat}
    {pending : List ExportId} {outcome : Except Error (Progress × Nat)}
    (hrounds : survey.rounds progress left done pending = (survey', outcome))
    (hblob : survey.image.blob.Addressable) (h : progress.Graphable) :
    FailsOnly (¬ ·.IsGraph) outcome ∧
      ∀ progress' total, outcome = .ok (progress', total) → progress'.Graphable := by
  have hdone : ∀ {survey progress : _} {total : Nat}, progress.Graphable →
      (survey, .ok (progress, total)) = (survey', outcome) → FailsOnly (¬ ·.IsGraph) outcome ∧
        ∀ progress' total, outcome = .ok (progress', total) → progress'.Graphable := by
    intro survey progress total hprogress heq
    obtain ⟨-, rfl⟩ := Prod.mk.inj heq
    refine ⟨.ok _, fun progress' total' heq => ?_⟩
    obtain ⟨rfl, -⟩ := Prod.mk.inj (Except.ok.inj heq)
    exact hprogress
  induction left using Nat.strong_induction_on generalizing survey progress done pending with
  | _ left ih =>
  unfold rounds at hrounds
  split at hrounds
  · exact hdone h hrounds
  · split at hrounds
    · next middle error hround =>
      obtain ⟨-, hfails, -⟩ := round_graphable hround hblob h
      obtain ⟨-, rfl⟩ := Prod.mk.inj hrounds
      exact ⟨.error (hfails error rfl), fun _ _ h => nomatch h⟩
    · next middle progress' learned hround =>
      obtain ⟨hsame, -, hkept⟩ := round_graphable hround hblob h
      have hprogress := hkept progress' learned rfl
      split at hrounds
      · exact hdone hprogress hrounds
      · cases left with
        | zero => exact hdone hprogress hrounds
        | succ left =>
          refine ih left (Nat.lt_succ_self left) hrounds ?_ hprogress
          rw [report, hsame]
          exact hblob

/-- Building the graphs of results that have one adds no failures. -/
lemma buildGraphs_failures {progress : Progress} (h : progress.Graphable)
    (skipped : List ExportId) (rounds : Nat) :
    (buildGraphs progress skipped rounds).failures = progress.failures := by
  unfold buildGraphs
  refine List.foldlRecOn (motive := (Report.failures · = progress.failures))
    progress.results.toList _ rfl ?_
  intro report hreport pair hmem
  have hfound := Std.ExtTreeMap.mem_toList_iff_getElem?_eq_some.1 hmem
  obtain ⟨cfg, hcfg⟩ := h.results pair.1 pair.2 hfound
  simp only [Report.add, hcfg, hreport]

/-- **No survey blames a graph**: neither the error that ends it does nor a failure in its
report. -/
theorem run_graphable {survey : Survey} (hblob : survey.image.blob.Addressable)
    (elapsed : String) :
    FailsOnly (¬ ·.IsGraph) (survey.run elapsed).2 ∧
      ∀ report, (survey.run elapsed).2 = .ok report →
        ∀ (id : ExportId) (failure : Failure), report.failures[id]? = some failure →
          ¬ failure.error.IsGraph := by
  have hempty : Progress.Graphable {} := by
    constructor
    · intro id inference h
      simp at h
    · intro id failure h
      simp at h
  unfold run
  dsimp only
  split
  · next survey' error hrounds =>
    obtain ⟨hfails, -⟩ := rounds_graphable hrounds hblob hempty
    exact ⟨.error (hfails error rfl), fun _ h => nomatch h⟩
  · next survey' progress total hrounds =>
    obtain ⟨-, hgraphable⟩ := rounds_graphable hrounds hblob hempty
    have hprogress := hgraphable progress total rfl
    refine ⟨.ok _, fun report hreport id failure hfailure => ?_⟩
    obtain rfl := Except.ok.inj hreport
    rw [buildGraphs_failures hprogress] at hfailure
    exact hprogress.failures id failure hfailure

end Survey

/-- **Every analysed function has a graph, and no survey blames one.**  If the analysis of a
function succeeds, then its graph is built, and it has a block wherever one is needed; and neither
the error that ends a survey nor a failure in its report is about a graph.

**Proof sketch.** Along an analysis every target is noted as the start of a block and followed, so
that in the end an instruction is recorded there.  The blocks are cut before these instructions and
hold all others, so every look-up of the building succeeds.  The other errors of a survey are those
of analyses, which are located or say that the iterations are used up. -/
theorem Image.infer_mapped (image : Image) (settings : Settings) (hblob : image.blob.Addressable) :
    (∀ log id inference, (image.infer settings log id).2 = .ok inference →
      ∃ cfg, inference.graph = .ok cfg ∧ inference.MappedBy cfg) ∧
    ∀ log elapsed, FailsOnly (¬ ·.IsGraph) (Survey.run ⟨image, settings, log⟩ elapsed).2 ∧
      ∀ report, (Survey.run ⟨image, settings, log⟩ elapsed).2 = .ok report →
        ∀ (id : ExportId) (failure : Failure), report.failures[id]? = some failure →
          ¬ failure.error.IsGraph := by
  refine ⟨fun log id inference h => (infer_graphable hblob settings log id).ok inference h, ?_⟩
  exact fun log elapsed => Survey.run_graphable hblob elapsed

/-- A protected region with a filter: `PUSHI 44`, `PUSHI 36`, `PUSHI 1`, `TRY`, `PUSHI 44`, `LEAVE`,
`PUSHI 44`, `JMP`; and both at 36, the filter, and at 44, the handler, `PUSHI 0`, `RET`. -/
def Image.guarded : Image where
  blob := .ofBlocks .sequential
    [(0, [(.pushi .dword, .dword 44), (.pushi .dword, .dword 36), (.pushi .dword, .dword 1),
        (.enter, .none), (.pushi .dword, .dword 44), (.leave, .none), (.pushi .dword, .dword 44),
        (.jmp, .none)]),
      (3616856363, [(.pushi .dword, .dword 0), (.ret, .none)]),
      (3616856363, [(.pushi .dword, .dword 0), (.ret, .none)])]
  table := .sequential
  exports := .ofList [{ id := 1, offset := 0, entryKey? := some 0 }]
  references := ∅

/-- The function with the protected region is analysed, and its graph has a block for its jump, its
filter and its handler. -/
theorem Image.infer_mapped_guarded : Image.guarded.blob.Addressable ∧
    ∃ inference, (Image.guarded.infer {} {} 1).2 = .ok inference ∧
      (∃ finding ∈ inference.toList, 44 ∈ finding.targets) ∧
      (∃ region ∈ inference.regions.toList, region.entries = [36, 44]) ∧
      ∃ cfg, inference.graph = .ok cfg ∧ inference.MappedBy cfg := by
  have hblob : Image.guarded.blob.size < UInt64.size := by decide +kernel
  obtain ⟨inference, hinfer, hjump, hregion⟩ :
      ∃ inference, (Image.guarded.infer {} {} 1).2 = .ok inference ∧
        (∃ finding ∈ inference.toList, 44 ∈ finding.targets) ∧
        (∃ region ∈ inference.regions.toList, region.entries = [36, 44]) :=
    exists_eq_ok (by decide +kernel)
  exact ⟨hblob, inference, hinfer, hjump, hregion,
    (Image.infer_mapped Image.guarded {} hblob).1 {} 1 inference hinfer⟩

end KeyedVM
