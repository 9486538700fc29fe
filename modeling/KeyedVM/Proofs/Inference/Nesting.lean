import KeyedVM.Proofs.Inference.Growth
import KeyedVM.Proofs.Inference.Succession

set_option relaxedAutoImplicit false
set_option autoImplicit false

/-!
# Protected regions are nested

The open regions of a state are a list that is copied along every path.  A `TRY` adds a region at
its front, a `LEAVE` takes the front away, filters and handlers start with the list that the `TRY`
had, and lists are only compared where paths meet.  That they are nested all the same is an
invariant of the whole run: whatever follows a region in such a list is what was open at the
`TRY` of the region.

Since the list is fixed at every offset, the list behind a `TRY` determines the region that the
`TRY` opened.  So a `TRY` opens one region only, although it may be executed many times, and no
region is open twice.

## Main definitions

* `KeyedVM.Findings.Covers` — the instruction at the place of a state has a state that covers it;
* `KeyedVM.Run.Met` — a state is on the worklist, or the state stored at its offset covers it;
* `KeyedVM.Run.Guards` — a region was opened by a recorded `TRY` while others were open;
* `KeyedVM.Run.Nests` — each of the open regions was opened while those behind it were open;
* `KeyedVM.Run.Fenced` — the invariant of a run.

## Main results

* `KeyedVM.Run.Reachable.fenced` — the invariant holds along every analysis;
* `KeyedVM.Run.Nests.nodup` — at the end, open regions have different openers;
* `KeyedVM.Context.regions_nested` — in the result of an analysis, protected regions are nested.
-/

namespace KeyedVM

/-- There is an instruction at the place of a state, and its state covers the state. -/
def Findings.Covers (findings : Findings) (state : State) : Prop :=
  ∃ target, findings[state.ip]? = some target ∧ target.state.Covers state

namespace Run

variable {context : Context} {log : Log} {run base next earlier later : Run} {region : Region}
  {regions outer : List Region}

/-! ## States that have been met -/

/-- A state is on the worklist, or the state stored at its offset covers it. -/
def Met (run : Run) (state : State) : Prop :=
  state ∈ run.queue ∨ ∃ stored, run.states[state.ip]? = some stored ∧ stored.Covers state

/-- A state that is awaited has been met. -/
lemma Awaited.met {state : State} (h : run.Awaited context state) : run.Met state :=
  h.imp_right fun ⟨stored, hstored, hcovers, _⟩ => ⟨stored, hstored, hcovers⟩

/-- The state that leaves the worklist is covered by what is stored. -/
lemma Met.intake {state : State} (h : run.Met state) (hintake : run.Intake base) :
    base.Met state := by
  rcases h with hmem | ⟨stored, hstored, hcovers⟩
  · cases hintake with
    | tick => exact Or.inl hmem
    | @store incoming rest hqueue _ =>
      rw [hqueue] at hmem
      rcases List.mem_cons.1 hmem with rfl | hmem
      · exact Or.inr ⟨state, Std.ExtTreeMap.getElem?_insert_self, .refl state⟩
      · exact Or.inl hmem
    | @merge incoming stored rest merged log hqueue _ hmerge _ =>
      rw [hqueue] at hmem
      rcases List.mem_cons.1 hmem with rfl | hmem
      · exact Or.inr ⟨merged.state, Std.ExtTreeMap.getElem?_insert_self,
          State.merge_covers_incoming hmerge⟩
      · exact Or.inl hmem
  · obtain ⟨grown, hgrown, -, hcovers'⟩ := hintake.exists_grown hstored
    exact Or.inr ⟨grown, hgrown, hcovers'.trans hcovers⟩

/-- Taking over effects keeps the states that have been met. -/
lemma Met.absorb {state : State} (h : run.Met state) (finding : Finding) (effects : Effects) :
    (run.absorb context finding effects).Met state := by
  rw [Met, absorb_states, absorb_queue]
  exact h.imp_left fun hmem => List.mem_append_left _ hmem

/-- At the end of an analysis, a state that was met is covered. -/
lemma Met.covered {state : State} (h : run.Met state) (htraced : run.Traced context)
    (hqueue : run.queue = []) : run.findings.Covers state := by
  rw [Met, hqueue] at h
  obtain ⟨stored, hstored, hcovers⟩ := h.resolve_left List.not_mem_nil
  rw [← htraced.state_eq] at hstored
  obtain ⟨target, htarget, rfl⟩ := Option.map_eq_some_iff.1 hstored
  exact ⟨target, htarget, hcovers⟩

/-! ## The invariant -/

/-- A region was opened by a recorded `TRY` while the regions in `outer` were open.  Execution goes
on inside it, and its filter and its handler start with an empty stack and the regions in
`outer`. -/
structure Guards (run : Run) (region : Region) (outer : List Region) : Prop where
  listed : region ∈ run.regions
  around : ∃ state, run.Met state ∧ state.ip = region.opener ∧ state.regions = outer
  inside : ∃ finding, run.findings[region.opener]? = some finding ∧ finding.opcode = .enter ∧
    ∃ state, run.Met state ∧ state.ip = finding.next ∧ state.regions = region :: outer
  entries : ∀ entry ∈ region.entries, ∃ state, run.Met state ∧ state.ip = entry ∧
    state.stack = [] ∧ state.regions = outer

/-- Each of the regions, innermost first, was opened while those behind it were open. -/
inductive Nests (run : Run) : List Region → Prop
  | nil : Nests run []
  | cons {region : Region} {outer : List Region} : run.Guards region outer → Nests run outer →
      Nests run (region :: outer)

/-- The invariant of a run: every region is guarded, every recorded `TRY` has opened a region, and
the open regions of every known state are nested. -/
structure Fenced (run : Run) : Prop where
  opened : ∀ region ∈ run.regions, ∃ outer, run.Guards region outer
  entered : ∀ (offset : Offset) (finding : Finding), run.findings[offset]? = some finding →
    finding.opcode = .enter → ∃ region ∈ run.regions, region.opener = offset
  nested : ∀ state, run.Knows state → run.Nests state.regions

/-- A region that is guarded stays guarded while the run grows. -/
lemma Guards.mono (h : earlier.Guards region outer) (hgrows : earlier.Grows later)
    (hmet : ∀ state, earlier.Met state → later.Met state) : later.Guards region outer := by
  obtain ⟨finding, hfinding, hopcode, state, hstate, hnext, hregions⟩ := h.inside
  obtain ⟨known, hknown, hsame⟩ := hgrows.findings _ _ hfinding
  refine ⟨hgrows.regions region h.listed, ?_, ⟨known, hknown, ?_, state, hmet state hstate, ?_,
    hregions⟩, fun entry hentry => ?_⟩
  · obtain ⟨state, hstate, hrest⟩ := h.around
    exact ⟨state, hmet state hstate, hrest⟩
  · rw [hsame, hopcode]
  · rw [hsame, hnext]
  · obtain ⟨state, hstate, hrest⟩ := h.entries entry hentry
    exact ⟨state, hmet state hstate, hrest⟩

/-- Regions that are nested stay nested while the run grows. -/
lemma Nests.mono (h : earlier.Nests regions) (hgrows : earlier.Grows later)
    (hmet : ∀ state, earlier.Met state → later.Met state) : later.Nests regions := by
  induction h with
  | nil => exact .nil
  | cons hguards _ ih => exact .cons (hguards.mono hgrows hmet) ih

/-- The regions behind a region were open when it was opened. -/
lemma Nests.guards {inner : List Region} (h : run.Nests (inner ++ region :: outer)) :
    run.Guards region outer := by
  induction inner with
  | nil =>
    cases h with
    | cons hguards _ => exact hguards
  | cons _ inner ih =>
    cases h with
    | cons _ hnests => exact ih hnests

/-! ## The invariant is kept -/

/-- Taking a state from the worklist keeps the invariant. -/
lemma Fenced.intake (h : run.Fenced) (hintake : run.Intake base) : base.Fenced := by
  have hmet : ∀ state, run.Met state → base.Met state := fun _ hstate => hstate.intake hintake
  refine ⟨fun region hregion => ?_, fun offset finding hfinding => ?_, fun state hstate => ?_⟩
  · rw [hintake.eq] at hregion
    obtain ⟨outer, hguards⟩ := h.opened region hregion
    exact ⟨outer, hguards.mono hintake.grows hmet⟩
  · rw [hintake.eq] at hfinding ⊢
    exact h.entered offset finding hfinding
  · rcases hintake.knows_cases hstate with hold | ⟨stored, _, merged, hstored, -, hmerge, rfl⟩
    · exact (h.nested state hold).mono hintake.grows hmet
    · rw [(State.merge_covers_stored hmerge).regions]
      exact (h.nested stored hstored).mono hintake.grows hmet

/-- The region that an execution opens is guarded once the execution is taken over. -/
lemma guards_absorb {state : State} {finding : Finding} {effects : Effects}
    (hstate : base.states[state.ip]? = some state)
    (hexecute : context.execute base.findings state = .ok (finding, effects))
    (hregion : effects.region? = some region) :
    (base.absorb context finding effects).Guards region state.regions := by
  obtain ⟨hopcode, hopener, hentries, inside, hinside, hnext, hregions⟩ :=
    (Context.execute_opens hexecute).2 region hregion
  have hsuccessor : ∀ successor ∈ effects.successors,
      (base.absorb context finding effects).Met successor := by
    intro successor hmem
    refine Or.inl ?_
    rw [absorb_queue]
    exact List.mem_append_right _ hmem
  refine ⟨?_, ⟨state, ?_, ?_, rfl⟩, ⟨finding, ?_, hopcode, inside, hsuccessor inside hinside, hnext,
    hregions⟩, fun entry hentry => ?_⟩
  · rw [absorb_regions, Std.ExtTreeSet.mem_insertMany_list, hregion]
    exact Or.inr (by simp)
  · exact Or.inr ⟨state, by rw [absorb_states]; exact hstate, .refl state⟩
  · rw [hopener, offset_of_execute hexecute]
  · rw [absorb_findings, hopener, Std.ExtTreeMap.getElem?_insert_self]
  · obtain ⟨start, hstart, hrest⟩ := hentries entry hentry
    exact ⟨start, hsuccessor start hstart, hrest⟩

/-- Taking over an execution keeps the invariant.

**Proof sketch.** A state behind the instruction has the open regions of the executed state, or one
more that was just opened, or all but the innermost one. -/
lemma Fenced.absorb {state : State} {finding : Finding} {effects : Effects} (h : base.Fenced)
    (hstate : base.states[state.ip]? = some state)
    (hexecute : context.execute base.findings state = .ok (finding, effects))
    (hgrows : base.Grows (base.absorb context finding effects)) :
    (base.absorb context finding effects).Fenced := by
  have hmet : ∀ state, base.Met state → (base.absorb context finding effects).Met state :=
    fun _ hstate => hstate.absorb finding effects
  refine ⟨fun region hregion => ?_, fun offset known hknown hopcode => ?_,
    fun successor hsuccessor => ?_⟩
  · rw [absorb_regions, Std.ExtTreeSet.mem_insertMany_list] at hregion
    rcases hregion with hold | hnew
    · obtain ⟨outer, hguards⟩ := h.opened region hold
      exact ⟨outer, hguards.mono hgrows hmet⟩
    · exact ⟨state.regions, guards_absorb hstate hexecute
        (Option.mem_toList.1 (List.contains_iff_mem.1 hnew))⟩
  · rw [absorb_findings, Std.ExtTreeMap.getElem?_insert] at hknown
    split at hknown
    · next heq =>
      obtain rfl := Option.some.inj hknown
      obtain ⟨hopens, hregion⟩ := Context.execute_opens hexecute
      obtain ⟨region, hopened⟩ := hopens hopcode
      refine ⟨region, (guards_absorb hstate hexecute hopened).listed, ?_⟩
      rw [(hregion region hopened).2.1, Std.LawfulEqOrd.eq_of_compare heq]
    · obtain ⟨region, hregion, hopener⟩ := h.entered offset known hknown hopcode
      exact ⟨region, hgrows.regions region hregion, hopener⟩
  · rw [Knows, absorb_queue, absorb_states, List.mem_append, or_right_comm] at hsuccessor
    rcases hsuccessor with hold | hnew
    · exact (h.nested successor hold).mono hgrows hmet
    · have hnests := (h.nested state (Or.inr ⟨_, hstate⟩)).mono hgrows hmet
      obtain hsame | ⟨region, hopened, hregions⟩ | ⟨region, hregions⟩ :=
        (Context.execute_derived hexecute).regions successor hnew
      · rw [hsame, state_of_execute hexecute]
        exact hnests
      · rw [hregions, state_of_execute hexecute]
        exact .cons (guards_absorb hstate hexecute hopened) hnests
      · rw [state_of_execute hexecute] at hregions
        rw [hregions] at hnests
        cases hnests with
        | cons _ houter => exact houter

/-- **The invariant holds along every analysis.** -/
theorem Reachable.fenced (h : Reachable context log run) : run.Fenced := by
  refine h.induct_proceeds ?_ fun run next hrun hproceeds ih => ?_
  · refine ⟨fun region hregion => ?_, fun offset finding hfinding => ?_, fun state hstate => ?_⟩
    · simp [Run.seed] at hregion
    · simp [Run.seed] at hfinding
    · obtain rfl : state = .initial context.subject.offset context.entryKey := by
        simpa [Knows, Run.seed] using hstate
      exact .nil
  · obtain ⟨base, hintake, rfl | ⟨state, finding, effects, hstate, hexecute, -, rfl⟩⟩ :=
      hrun.proceeds_cases hproceeds
    · exact ih.intake hintake
    · exact (ih.intake hintake).absorb hstate hexecute (grows_absorb fun known hknown =>
        hrun.traced.toInstruction_eq hintake hstate hexecute hknown)

/-! ## The end of an analysis -/

/-- At the end of an analysis the `TRY` of a guarded region has the regions around it, the
instruction behind the `TRY` is inside the region, and the region's filter and handler are around
it and have an empty stack. -/
lemma Guards.exists_opener (h : run.Guards region outer) (htraced : run.Traced context)
    (hqueue : run.queue = []) :
    ∃ opener, run.findings[region.opener]? = some opener ∧ opener.opcode = .enter ∧
      opener.state.regions = outer ∧
      (∃ inside, run.findings[opener.next]? = some inside ∧
        inside.state.regions = region :: outer) ∧
      ∀ entry ∈ region.entries, ∃ target, run.findings[entry]? = some target ∧
        target.state.depth = 0 ∧ target.state.regions = outer := by
  obtain ⟨opener, hopener, hopcode, state, hinside, hnext, hregions⟩ := h.inside
  refine ⟨opener, hopener, hopcode, ?_, ?_, fun entry hentry => ?_⟩
  · obtain ⟨around, haround, hip, houter⟩ := h.around
    obtain ⟨target, htarget, hcovers⟩ := haround.covered htraced hqueue
    rw [hip, hopener] at htarget
    obtain rfl := Option.some.inj htarget
    rw [hcovers.regions, houter]
  · obtain ⟨inside, hfinding, hcovers⟩ := hinside.covered htraced hqueue
    exact ⟨inside, hnext ▸ hfinding, hcovers.regions.trans hregions⟩
  · obtain ⟨start, hstart, rfl, hstack, houter⟩ := h.entries entry hentry
    obtain ⟨target, htarget, hcovers⟩ := hstart.covered htraced hqueue
    refine ⟨target, htarget, ?_, hcovers.regions.trans houter⟩
    rw [hcovers.depth_eq, State.depth, hstack, List.length_nil]

/-- At the end of an analysis, regions with the same opener are the same region with the same
regions around it: both are the open regions behind the `TRY`. -/
lemma Guards.eq_of_opener_eq {region' : Region} {outer' : List Region}
    (h : run.Guards region outer) (h' : run.Guards region' outer') (htraced : run.Traced context)
    (hqueue : run.queue = []) (hsame : region.opener = region'.opener) :
    region = region' ∧ outer = outer' := by
  obtain ⟨opener, hopener, -, -, ⟨inside, hinside, hregions⟩, -⟩ :=
    h.exists_opener htraced hqueue
  obtain ⟨opener', hopener', -, -, ⟨inside', hinside', hregions'⟩, -⟩ :=
    h'.exists_opener htraced hqueue
  rw [hsame, hopener'] at hopener
  obtain rfl := Option.some.inj hopener
  obtain rfl := Option.some.inj (hinside.symm.trans hinside')
  exact List.cons.inj (hregions.symm.trans hregions')

/-- At the end of an analysis, a place opens one region only. -/
lemma Fenced.eq_of_opener_eq (h : run.Fenced) (htraced : run.Traced context)
    (hqueue : run.queue = []) {region' : Region} (hregion : region ∈ run.regions)
    (hregion' : region' ∈ run.regions) (hsame : region.opener = region'.opener) :
    region = region' := by
  obtain ⟨outer, hguards⟩ := h.opened region hregion
  obtain ⟨outer', hguards'⟩ := h.opened region' hregion'
  exact (hguards.eq_of_opener_eq hguards' htraced hqueue hsame).1

/-- **At the end of an analysis, regions that are open at the same time have different openers.**  A
region that is open twice would be open around itself, with a list of regions that is shorter than
itself. -/
theorem Nests.nodup (h : run.Nests regions) (htraced : run.Traced context)
    (hqueue : run.queue = []) : (regions.map Region.opener).Nodup := by
  induction h with
  | nil => exact List.nodup_nil
  | @cons region outer hguards hnests ih =>
    rw [List.map_cons, List.nodup_cons]
    refine ⟨fun hmem => ?_, ih⟩
    obtain ⟨other, hother, hsame⟩ := List.mem_map.1 hmem
    obtain ⟨inner, rest, rfl⟩ := List.append_of_mem hother
    obtain ⟨-, hrest⟩ := hguards.eq_of_opener_eq hnests.guards htraced hqueue hsame.symm
    have hlength := congrArg List.length hrest
    simp only [List.length_append, List.length_cons] at hlength
    omega

end Run

namespace Context

variable {context : Context} {log : Log} {inference : Inference}

/-- **In the result of an analysis, protected regions are nested.**

* Every region is opened by a `TRY` of the result, and every `TRY` opens exactly one region.
* Take the open regions of any instruction, innermost first.  Each of them is a region of the
  result, and those behind it are the ones that are open at its `TRY`.  No two of them have the same
  `TRY`.
* The filter and the handler of a region start with an empty stack and the regions that are open at
  its `TRY`. -/
theorem regions_nested (h : (context.infer log).2 = .ok inference) :
    (∀ region ∈ inference.regions, ∃ opener,
      inference.findings[region.opener]? = some opener ∧ opener.opcode = .enter ∧
      ∀ entry ∈ region.entries, ∃ target, inference.findings[entry]? = some target ∧
        target.state.depth = 0 ∧ target.state.regions = opener.state.regions) ∧
    (∀ (offset : Offset) finding, inference.findings[offset]? = some finding →
      finding.opcode = .enter → ∃! region, region ∈ inference.regions ∧ region.opener = offset) ∧
    ∀ (offset : Offset) finding, inference.findings[offset]? = some finding →
      (finding.state.regions.map Region.opener).Nodup ∧
      ∀ inner region outer, finding.state.regions = inner ++ region :: outer →
        region ∈ inference.regions ∧ ∃ opener,
          inference.findings[region.opener]? = some opener ∧ opener.state.regions = outer := by
  obtain ⟨run, rfl, hreachable, hqueue, -, -⟩ := infer_eq_ok h
  have hfenced := hreachable.fenced
  have htraced := hreachable.traced
  refine ⟨fun region hregion => ?_, fun offset finding hfinding hopcode => ?_,
    fun offset finding hfinding => ?_⟩
  · obtain ⟨outer, hguards⟩ := hfenced.opened region hregion
    obtain ⟨opener, hopener, hopcode, rfl, -, hentries⟩ := hguards.exists_opener htraced hqueue
    exact ⟨opener, hopener, hopcode, hentries⟩
  · obtain ⟨region, hregion, rfl⟩ := hfenced.entered offset finding hfinding hopcode
    refine ⟨region, ⟨hregion, rfl⟩, fun other ⟨hother, hsame⟩ => ?_⟩
    exact hfenced.eq_of_opener_eq htraced hqueue hother hregion hsame
  · obtain ⟨-, hstate, -⟩ := htraced.exists_execution hfinding
    have hnests := hfenced.nested finding.state (Or.inr ⟨offset, hstate⟩)
    refine ⟨hnests.nodup htraced hqueue, fun inner region outer hregions => ?_⟩
    rw [hregions] at hnests
    have hguards := hnests.guards
    obtain ⟨opener, hopener, -, houter, -⟩ := hguards.exists_opener htraced hqueue
    exact ⟨hguards.listed, opener, hopener, houter⟩

/-- Where a region lies inside another one, both are open at 28.  The inner one was opened at 26,
where the outer one is open, and its handler is inside the outer one. -/
theorem regions_nested_guardedTwice : ∃ inference finding inner outer opener target,
    (guardedTwice.infer {}).2 = .ok inference ∧ inference.findings[(28 : Offset)]? = some finding ∧
    finding.state.regions = [inner, outer] ∧ inner ∈ inference.regions ∧ inner.opener = 26 ∧
    inference.findings[(26 : Offset)]? = some opener ∧ opener.state.regions = [outer] ∧
    inner.entries = [52] ∧ inference.findings[(52 : Offset)]? = some target ∧
    target.state.depth = 0 ∧ target.state.regions = [outer] := by
  obtain ⟨inference, hinfer, hregions⟩ : ∃ inference, (guardedTwice.infer {}).2 = .ok inference ∧
      (inference.findings[(28 : Offset)]?.map fun finding =>
        finding.state.regions.map fun region => (region.opener, region.entries))
        = some [(26, [52]), (12, [60])] :=
    exists_eq_ok (by decide +kernel)
  obtain ⟨finding, hfinding, hregions⟩ := Option.map_eq_some_iff.1 hregions
  obtain ⟨inner, _, hsplit, hinner, hrest⟩ := List.map_eq_cons_iff.1 hregions
  obtain ⟨outer, _, rfl, -, hnone⟩ := List.map_eq_cons_iff.1 hrest
  obtain rfl := List.map_eq_nil_iff.1 hnone
  obtain ⟨hopener, hentries⟩ := Prod.mk.inj hinner
  obtain ⟨hopened, -, hnested⟩ := regions_nested hinfer
  obtain ⟨hmem, opener, hfound, houter⟩ := (hnested 28 finding hfinding).2 [] inner [outer] hsplit
  obtain ⟨opener', hfound', -, hstarts⟩ := hopened inner hmem
  obtain rfl : opener = opener' := Option.some.inj (hfound.symm.trans hfound')
  obtain ⟨target, htarget, hdepth, haround⟩ := hstarts 52 (by simp [hentries])
  exact ⟨inference, finding, inner, outer, opener, target, hinfer, hfinding, hsplit, hmem, hopener,
    hopener ▸ hfound, houter, hentries, htarget, hdepth, haround.trans houter⟩

end Context

end KeyedVM
