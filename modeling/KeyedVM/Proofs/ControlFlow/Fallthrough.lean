import KeyedVM.Proofs.ByteTable.Sequential
import KeyedVM.Proofs.ControlFlow.Edges

set_option relaxedAutoImplicit false
set_option autoImplicit false

/-!
# Where control runs on behind a block

Blocks are cut by looking at neighbours in the order of offsets, and the edge to what comes behind a
block leads to the block that starts there.  If instructions overlap, two of them can lead to the
same place.  Only one of the two stands directly before that place in the order of offsets; if there
is no other reason for a cut, the place becomes part of its block, and the other block has no edge.

## Main definitions

* `KeyedVM.Joined` — the instruction at an offset belongs to the block of the one before it;
* `KeyedVM.ControlFlowGraph.fallthroughs` — the edges to what comes behind a block;
* `KeyedVM.Context.overlapping` — instructions that overlap.

## Main results

* `KeyedVM.joined_iff` — the instruction at an offset is joined exactly if no block starts there;
* `KeyedVM.ControlFlowGraph.build_fallthroughs` — a block from which control runs on has exactly one
  edge to what comes behind it, unless that is joined to another block;
* `KeyedVM.ControlFlowGraph.graph_loses_flow` — a function whose graph lacks such an edge.
-/

namespace KeyedVM

variable {entry : Offset} {headers : Std.ExtTreeSet Offset} {findings : List Finding}

/-! ## Starts of blocks -/

/-- The instruction at an offset belongs to the block of the instruction directly before it in the
order of offsets: that one leads to it, its path goes on, and the offset is neither the entry nor a
header. -/
def Joined (entry : Offset) (headers : Std.ExtTreeSet Offset) (findings : List Finding)
    (offset : Offset) : Prop :=
  offset ≠ entry ∧ offset ∉ headers ∧
    ∃ previous finding, [previous, finding] <:+: ordered findings ∧ finding.offset = offset ∧
      previous.next = offset ∧ previous.endsPath = false

/-- An offset is joined to its predecessor exactly if no cut is made between two findings that are
neighbours in the order of offsets, of which it is the second. -/
lemma joined_iff_exists_not_cut {offset : Offset} : Joined entry headers findings offset ↔
    ∃ previous finding, [previous, finding] <:+: ordered findings ∧ finding.offset = offset ∧
      cutsBefore entry headers previous finding = false := by
  have hcut : ∀ previous finding : Finding, finding.offset = offset →
      (cutsBefore entry headers previous finding = false ↔ offset ≠ entry ∧ offset ∉ headers ∧
        previous.next = offset ∧ previous.endsPath = false) := by
    rintro previous finding rfl
    simp [cutsBefore, and_assoc, ← Std.ExtTreeSet.contains_iff_mem]
  constructor
  · rintro ⟨hentry, hheader, previous, finding, hpair, hoffset, hnext, hpath⟩
    exact ⟨previous, finding, hpair, hoffset,
      (hcut previous finding hoffset).2 ⟨hentry, hheader, hnext, hpath⟩⟩
  · rintro ⟨previous, finding, hpair, hoffset, hnone⟩
    obtain ⟨hentry, hheader, hnext, hpath⟩ := (hcut previous finding hoffset).1 hnone
    exact ⟨hentry, hheader, previous, finding, hpair, hoffset, hnext, hpath⟩

/-- Two blocks that follow each other are cut. -/
lemma isChain_blocks (entry : Offset) (headers : Std.ExtTreeSet Offset) (findings : List Finding) :
    (blocks entry headers findings).IsChain
      fun first second => cutsBefore entry headers first.last second.first = true := by
  have hpieces := List.isChain_getLast_head_splitBy
    (fun previous finding => !cutsBefore entry headers previous finding) findings
  rw [← map_body_blocks, List.isChain_map] at hpieces
  refine hpieces.imp fun first second hcut => ?_
  obtain ⟨_, _, hcut⟩ := hcut
  simpa [Block.last, Block.first] using hcut

/-- Neighbours in a row of blocks are neighbours in one of them, or one block ends with the first of
them and the next block starts with the second. -/
lemma infix_flatMap_cases {row : List Block} {previous finding : Finding}
    (h : [previous, finding] <:+: row.flatMap Block.body) :
    (∃ block ∈ row, [previous, finding] <:+: block.body) ∨
      ∃ first second, [first, second] <:+: row ∧ first.last = previous ∧
        second.first = finding := by
  induction row with
  | nil => simp at h
  | cons block rest ih =>
    have hrest : [previous, finding] <:+: rest.flatMap Block.body →
        (∃ other ∈ block :: rest, [previous, finding] <:+: other.body) ∨
        ∃ first second, [first, second] <:+: block :: rest ∧ first.last = previous ∧
          second.first = finding := by
      intro h
      rcases ih h with ⟨other, hother, hpair⟩ | ⟨first, second, hpair, hends⟩
      · exact Or.inl ⟨other, List.mem_cons_of_mem _ hother, hpair⟩
      · exact Or.inr ⟨first, second, hpair.trans (List.suffix_cons block rest).isInfix, hends⟩
    rw [List.flatMap_cons, List.infix_append_iff] at h
    rcases h with h | h | ⟨front, back, hsplit, hfront, hback⟩
    · exact Or.inl ⟨block, List.mem_cons_self, h⟩
    · exact hrest h
    · match front, hsplit, hfront with
      | [], hsplit, _ =>
        rw [List.nil_append] at hsplit
        exact hrest (hsplit ▸ hback.isInfix)
      | [last], hsplit, hfront =>
        obtain ⟨rfl, rfl⟩ : previous = last ∧ back = [finding] := by simpa [eq_comm] using hsplit
        match rest, hback with
        | [], hback => simp at hback
        | next :: rest, hback =>
          refine Or.inr ⟨block, next, ⟨[], rest, rfl⟩, ?_, ?_⟩
          · obtain ⟨init, hinit⟩ := hfront
            simp [Block.last, ← hinit]
          · obtain ⟨tail, htail⟩ := hback
            rw [List.flatMap_cons, ← List.cons_head_tail next.nonempty] at htail
            exact (List.cons.inj htail).1.symm
      | _ :: _ :: more, hsplit, hfront =>
        obtain ⟨rfl, rfl, rfl, rfl⟩ : _ ∧ _ ∧ more = [] ∧ back = [] := by simpa using hsplit
        exact Or.inl ⟨block, List.mem_cons_self, hfront.isInfix⟩

/-- An instruction stands in one block only. -/
lemma block_eq_of_mem {block other : Block} {finding : Finding}
    (hsorted : findings.Pairwise fun a b => a.offset < b.offset)
    (hblock : block ∈ blocks entry headers findings)
    (hother : other ∈ blocks entry headers findings)
    (hmem : finding ∈ block.body) (hmem' : finding ∈ other.body) : block = other := by
  have hpairs := List.pairwise_iff_getElem.1 (pairwise_blocks entry headers hsorted)
  obtain ⟨i, hi, rfl⟩ := List.getElem_of_mem hblock
  obtain ⟨j, hj, rfl⟩ := List.getElem_of_mem hother
  rcases Nat.lt_trichotomy i j with hlt | rfl | hlt
  · exact absurd (hpairs i j hi hj hlt finding hmem finding hmem') (UInt64.lt_irrefl _)
  · rfl
  · exact absurd (hpairs j i hj hi hlt finding hmem' finding hmem) (UInt64.lt_irrefl _)

/-- Neighbours that do not stand in one block are cut. -/
lemma cutsBefore_of_infix {previous finding : Finding} (hpair : [previous, finding] <:+: findings)
    (hapart : ∀ block ∈ blocks entry headers findings, ¬ [previous, finding] <:+: block.body) :
    cutsBefore entry headers previous finding = true := by
  rw [← flatMap_blocks entry headers findings] at hpair
  rcases infix_flatMap_cases hpair with ⟨block, hblock, hinside⟩ | ⟨_, _, hrow, rfl, rfl⟩
  · exact absurd hinside (hapart block hblock)
  · obtain ⟨front, back, hrow⟩ := hrow
    have hchain := isChain_blocks entry headers findings
    rw [← hrow, List.append_assoc] at hchain
    exact (List.isChain_append_cons_cons.1 hchain).2.1

/-- Ordered findings are told apart by their offsets. -/
lemma eq_of_offset_eq {a b : Finding} (ha : a ∈ ordered findings) (hb : b ∈ ordered findings)
    (h : a.offset = b.offset) : a = b := by
  have hnodup : ((ordered findings).map (·.offset)).Nodup :=
    List.pairwise_map.2 ((pairwise_ordered findings).imp UInt64.ne_of_lt)
  exact List.inj_on_of_nodup_map hnodup ha hb h

/-- Neighbours in the order of offsets have increasing offsets. -/
lemma offset_lt_of_adjacent {previous finding : Finding}
    (h : [previous, finding] <:+: ordered findings) : previous.offset < finding.offset := by
  have hpair := (pairwise_ordered findings).sublist h.sublist
  exact (List.pairwise_cons.1 hpair).1 finding List.mem_cons_self

/-- A member of a list that is not the first has one directly before it. -/
lemma exists_infix_of_ne_head {body : List Finding} (hne : body ≠ []) {finding : Finding}
    (hmem : finding ∈ body) (hhead : body.head hne ≠ finding) :
    ∃ previous, [previous, finding] <:+: body := by
  obtain ⟨front, back, rfl⟩ := List.append_of_mem hmem
  rcases List.eq_nil_or_concat front with rfl | ⟨front, previous, rfl⟩
  · exact absurd rfl hhead
  · exact ⟨previous, front, back, by simp⟩

/-- **The instruction at an offset is joined exactly if no block starts there.** -/
theorem joined_iff {offset : Offset} (hmem : ∃ finding ∈ findings, finding.offset = offset) :
    Joined entry headers findings offset ↔
      ¬ ∃ block ∈ blocks entry headers (ordered findings), block.offset = offset := by
  have hsorted := pairwise_ordered findings
  rw [joined_iff_exists_not_cut]
  constructor
  · rintro ⟨previous, finding, hpair, hoffset, hnone⟩ ⟨block, hblock, hstart⟩
    obtain rfl : block.first = finding := eq_of_offset_eq
      (mem_of_mem_block hblock block.first_mem) (hpair.subset (by simp))
      (hstart.trans hoffset.symm)
    -- the instruction before the first one of a block stands in another block
    have hcut : cutsBefore entry headers previous block.first = true :=
      cutsBefore_of_infix hpair fun other hother hinside => by
        obtain rfl :=
          block_eq_of_mem hsorted hother hblock (hinside.subset (by simp)) block.first_mem
        exact UInt64.not_le.2 (offset_lt_of_adjacent hpair)
          (Block.offset_le (pairwise_body hsorted hother) (hinside.subset (by simp)))
    rw [hcut] at hnone
    cases hnone
  · intro hnone
    obtain ⟨finding, hfinding, rfl⟩ := exists_mem_ordered_iff.2 hmem
    obtain ⟨block, hblock, hbody⟩ := exists_block_of_mem entry headers hfinding
    obtain ⟨previous, hpair⟩ := exists_infix_of_ne_head block.nonempty hbody fun hhead =>
      hnone ⟨block, hblock, congrArg (·.offset) hhead⟩
    refine ⟨previous, finding, hpair.trans ?_, rfl, ?_⟩
    · rw [← flatMap_blocks entry headers (ordered findings), List.flatMap_def]
      exact List.infix_of_mem_flatten (List.mem_map_of_mem hblock)
    · obtain ⟨front, back, hsplit⟩ := hpair
      have hchain := isChain_body hblock
      rw [← hsplit, List.append_assoc] at hchain
      exact (List.isChain_append_cons_cons.1 hchain).2.1

/-- The instruction that follows the last one of a block is not joined to it. -/
lemma Joined.exists_ne_last {block : Block} (h : Joined entry headers findings block.stop)
    (hblock : block ∈ blocks entry headers (ordered findings)) :
    ∃ other ∈ findings, other ≠ block.last ∧ other.next = block.stop ∧ other.endsPath = false := by
  have hsorted := pairwise_ordered findings
  obtain ⟨hentry, hheader, previous, finding, hpair, hoffset, hnext, hpath⟩ := h
  refine ⟨previous, mem_of_mem_ordered (hpair.subset (by simp)), ?_, hnext, hpath⟩
  rintro rfl
  have hcut : cutsBefore entry headers block.last finding = true :=
    cutsBefore_of_infix hpair fun other hother hinside => by
      obtain rfl := block_eq_of_mem hsorted hother hblock (hinside.subset (by simp)) block.last_mem
      exact UInt64.not_le.2 (offset_lt_of_adjacent hpair)
        (Block.le_last (pairwise_body hsorted hother) (hinside.subset (by simp)))
  simp [cutsBefore, hoffset, hentry, hheader, hnext, hpath] at hcut

/-! ## Edges to what comes behind -/

namespace ControlFlowGraph

variable {graph : Digraph Block FlowEdge} {exportId : ExportId} {regions : List Region}
  {cfg : ControlFlowGraph} {node : NodeId} {block : Block}

/-- The edges from a block to what comes behind it. -/
def fallthroughs (cfg : ControlFlowGraph) (node : NodeId) : List (Arc FlowEdge) :=
  (cfg.graph.arcsFrom node).filter (·.data.kind = .fallthrough)

/-- A block is found only where it starts. -/
lemma exists_of_startingAt? {offset : Offset} (h : startingAt? graph offset = some node) :
    ∃ block, graph.node? node = some block ∧ block.offset = offset := by
  obtain ⟨index, hindex, rfl⟩ := Option.map_eq_some_iff.1 h
  obtain ⟨hlt, hstart, -⟩ := Array.findIdx?_eq_some_iff_getElem.1 hindex
  exact ⟨graph.nodes[index], Array.getElem?_eq_getElem hlt, by simpa using hstart⟩

/-- The one link of a block from which control runs on leads to the block that starts behind it, if
there is one. -/
lemma links_of_endsPath_eq_false (h : block.last.endsPath = false) :
    links exportId graph node block = .ok ((startingAt? graph block.stop).toList.map fun next =>
      (node, next, ⟨block.stop, .fallthrough⟩)) := by
  have hopcode : block.last.opcode.endsPath = false := by
    rw [Finding.endsPath, Bool.or_eq_false_iff] at h
    exact h.1
  rw [Opcode.endsPath] at hopcode
  unfold links
  split
  · next hflow => simp [show block.last.opcode.flow = .jump from hflow] at hopcode
  · next hflow => simp [show block.last.opcode.flow = .conditionalJump from hflow] at hopcode
  · next hflow => simp [show block.last.opcode.flow = .switch from hflow] at hopcode
  · rw [if_neg (by simp [h])]
    cases startingAt? graph block.stop <;> rfl

/-- **Where control runs on behind a block.**  If the path goes on at the end of a block, and an
instruction is recorded behind it, then the block has exactly one edge to what comes behind it, and
that edge leads to a block which starts there, unless the instruction behind it is joined to the one
before it in the order of offsets.  In that case there is no such edge, and another instruction
leads to the same place.

**Proof sketch.** The only link of the block leads to the block that starts behind it, if there is
one, and no other edge is of this kind.  No block starts behind it exactly if the instruction there
is joined, and it is not joined to the last instruction of the block, because a cut was made there.
-/
theorem build_fallthroughs (h : build exportId entry findings headers regions = .ok cfg)
    (hblock : cfg.graph.node? node = some block) (hpath : block.last.endsPath = false)
    (hnext : ∃ finding ∈ findings, finding.offset = block.stop) :
    ((∃ target next, cfg.fallthroughs node = [⟨node, target, ⟨block.stop, .fallthrough⟩⟩] ∧
        cfg.graph.node? target = some next ∧ next.offset = block.stop) ↔
      ¬ Joined entry headers findings block.stop) ∧
    (Joined entry headers findings block.stop → cfg.fallthroughs node = [] ∧
      ∃ other ∈ findings, other ≠ block.last ∧ other.next = block.stop ∧
        other.endsPath = false) := by
  obtain ⟨hnodes, harcs⟩ := arcsFrom_of_build h
  obtain ⟨found, exceptional, hlinks, harcs, hexceptional⟩ := harcs node block hblock
  rw [links_of_endsPath_eq_false hpath, Except.ok.injEq] at hlinks
  have hmem : ∀ {node block}, cfg.graph.node? node = some block →
      block ∈ KeyedVM.blocks entry headers (ordered findings) := fun hblock =>
    List.mem_of_getElem? ((node?_eq_some_iff hnodes).1 hblock)
  have hnone : exceptional.filter (·.data.kind = .fallthrough) = [] := by
    rw [List.filter_eq_nil_iff]
    intro arc harc hkind
    have hkind := hexceptional arc harc ▸ congrArg EdgeKind.isExceptional (of_decide_eq_true hkind)
    cases hkind
  have hedges : cfg.fallthroughs node = (startingAt? cfg.graph block.stop).toList.map fun next =>
      ⟨node, next, ⟨block.stop, .fallthrough⟩⟩ := by
    have hsame : startingAt? cfg.graph block.stop = startingAt?
        (.ofNodes (KeyedVM.blocks entry headers (ordered findings))) block.stop := by
      rw [startingAt?, startingAt?, hnodes, Digraph.nodes_ofNodes]
    rw [fallthroughs, harcs, List.filter_append, hnone, List.append_nil, ← hlinks, hsame,
      List.map_map, List.filter_eq_self.2]
    · rfl
    · intro arc harc
      obtain ⟨next, -, rfl⟩ := List.mem_map.1 harc
      rfl
  refine ⟨⟨?_, fun hjoined => ?_⟩, fun hjoined => ⟨?_, hjoined.exists_ne_last (hmem hblock)⟩⟩
  · rintro ⟨target, next, -, htarget, hoffset⟩ hjoined
    exact (joined_iff hnext).1 hjoined ⟨next, hmem htarget, hoffset⟩
  · rw [joined_iff hnext, not_not] at hjoined
    obtain ⟨next, hstart, hoffset⟩ := hjoined
    obtain ⟨index, hindex⟩ := List.mem_iff_getElem?.1 hstart
    obtain ⟨target, next, htarget, -, hnode, hoffset⟩ := exists_startingAt?
      ⟨⟨index⟩, next, (node?_eq_some_iff hnodes).2 hindex, hoffset⟩
    exact ⟨target, next, by rw [hedges, htarget]; rfl, hnode, hoffset⟩
  · cases hfound : startingAt? cfg.graph block.stop with
    | none => rw [hedges, hfound]; rfl
    | some target =>
      obtain ⟨next, hnode, hoffset⟩ := exists_of_startingAt? hfound
      exact absurd ⟨next, hmem hnode, hoffset⟩ ((joined_iff hnext).1 hjoined)

/-- Where two paths meet at 31, control runs on behind the block at 22, and there is one edge. -/
theorem build_fallthroughs_meeting : ∃ inference cfg node block target next,
    (Context.meeting.infer {}).2 = .ok inference ∧ inference.graph = .ok cfg ∧
    cfg.graph.node? node = some block ∧ block.offset = 22 ∧ block.stop = 31 ∧
    cfg.fallthroughs node = [⟨node, target, ⟨31, .fallthrough⟩⟩] ∧
    cfg.graph.node? target = some next ∧ next.offset = 31 := by
  obtain ⟨inference, hinfer, hgraph⟩ : ∃ inference, (Context.meeting.infer {}).2 = .ok inference ∧
      (inference.graph.toOption.any fun cfg => 31 ∈ inference.headers ∧
        (cfg.graph.node? ⟨2⟩).any fun block => block.offset = 22 ∧ block.stop = 31 ∧
          block.last.endsPath = false ∧ inference.toList.any (·.offset = block.stop)) :=
    exists_eq_ok (by decide +kernel)
  obtain ⟨cfg, hgraph, hheader, hnode⟩ := exists_eq_ok hgraph
  obtain ⟨block, hblock, hfacts⟩ := (Option.any_eq_true _ _).1 hnode
  obtain ⟨hoffset, hstop, hpath, hbehind⟩ := of_decide_eq_true hfacts
  obtain ⟨finding, hfinding, hsame⟩ := List.any_eq_true.1 hbehind
  obtain ⟨hone, -⟩ :=
    build_fallthroughs hgraph hblock hpath ⟨finding, hfinding, of_decide_eq_true hsame⟩
  obtain ⟨target, next, hedges, htarget, hstart⟩ := hone.2 fun hjoined =>
    hjoined.2.1 (hstop ▸ hheader)
  exact ⟨inference, cfg, ⟨2⟩, block, target, next, hinfer, hgraph, hblock, hoffset, hstop,
    hstop ▸ hedges, htarget, hstart.trans hstop⟩

end ControlFlowGraph

/-- Instructions that overlap: `PUSHI 10`, `PUSHI 18`, `JZ`; if the jump is not taken a `PUSHI` of a
quadword at 14, in whose operand at 18 a `PUSHI` of a doubleword is found if the jump is taken; and
behind both, at 24, `RET`.  The quadword is chosen so that both arrive there with the same key. -/
def Context.overlapping : Context := .ofBlocks
  [(0, [(.pushi .dword, .dword 10), (.pushi .dword, .dword 18), (.jz, .none),
    (.pushi .qword, .qword 13558720464199779124), (.ret, .none)])]

/-- **A graph can lose flow.**  Where instructions overlap, control runs on from the block at 14 to
the instruction at 24.  That instruction was joined to the block at 18, so no edge leads there. -/
theorem ControlFlowGraph.graph_loses_flow : ∃ inference cfg node block,
    (Context.overlapping.infer {}).2 = .ok inference ∧ inference.graph = .ok cfg ∧
    cfg.graph.node? node = some block ∧ block.offset = 14 ∧ block.last.endsPath = false ∧
    block.stop = 24 ∧ (∃ finding ∈ inference.toList, finding.offset = 24) ∧
    cfg.fallthroughs node = [] := by
  obtain ⟨inference, hinfer, hgraph⟩ :
      ∃ inference, (Context.overlapping.infer {}).2 = .ok inference ∧
        (inference.graph.toOption.any fun cfg => (cfg.fallthroughs ⟨1⟩).isEmpty ∧
          (cfg.graph.node? ⟨1⟩).any fun block => block.offset = 14 ∧
            block.last.endsPath = false ∧ block.stop = 24 ∧
            inference.toList.any (·.offset = 24)) :=
    exists_eq_ok (by decide +kernel)
  obtain ⟨cfg, hgraph, hempty, hnode⟩ := exists_eq_ok hgraph
  obtain ⟨block, hblock, hfacts⟩ := (Option.any_eq_true _ _).1 hnode
  obtain ⟨hoffset, hpath, hstop, hbehind⟩ := of_decide_eq_true hfacts
  obtain ⟨finding, hfinding, hsame⟩ := List.any_eq_true.1 hbehind
  exact ⟨inference, cfg, ⟨1⟩, block, hinfer, hgraph, hblock, hoffset, hpath, hstop,
    ⟨finding, hfinding, of_decide_eq_true hsame⟩, List.isEmpty_iff.1 hempty⟩

end KeyedVM
