import KeyedVM.Proofs.ControlFlow.Arcs
import KeyedVM.Proofs.ControlFlow.Graphable
import KeyedVM.Proofs.Inference.Nesting
import KeyedVM.Proofs.Inference.Onward

set_option relaxedAutoImplicit false
set_option autoImplicit false

/-!
# The edges of a graph are those of the analysis

A graph is not built from the states that an analysis has followed, but from what it has recorded:
the meanings of instructions, their sizes, the places where blocks start, and the protected regions.
Still no edge is made up.  Every arm is a recorded target, every step to the next block is one that
execution makes, or would make once an exit key is known, and every edge to a filter or a handler
belongs to a region.

## Main definitions

* `KeyedVM.ControlFlowGraph.Faithful` — the edges of a graph are those of an analysis.

## Main results

* `KeyedVM.Context.infer_faithful` — no edge of the graph of an analysed function is made up.
-/

namespace KeyedVM

namespace ControlFlowGraph

/-- **The edges of a graph are those of an analysis.** -/
structure Faithful (context : Context) (inference : Inference) (cfg : ControlFlowGraph) :
    Prop where
  /-- Every edge leaves a block. -/
  sources : ∀ arc ∈ cfg.graph.arcs.toList, ∃ block, cfg.graph.node? arc.source = some block
  /-- The edges that leave a block are those of which it is the source. -/
  leaving : ∀ node, cfg.graph.arcsFrom node = cfg.graph.arcs.toList.filter (·.source = node)
  /-- Every edge leads to the block that starts where it says. -/
  targets : ∀ arc ∈ cfg.graph.arcs.toList, ∃ block,
    cfg.graph.node? arc.target = some block ∧ block.offset = arc.data.target
  /-- The arms of a block are the targets of its last instruction, numbered in order. -/
  arms : ∀ node block, cfg.graph.node? node = some block →
    (cfg.armsFrom node).map (·.data)
      = block.last.targets.zipIdx.map (fun arm => ⟨arm.1, .arm arm.2⟩)
  /-- An edge to what comes behind a block leads behind its last instruction; executing that
  instruction leads there, or it is a call of a function that the analysis waits for. -/
  onward : ∀ node block, cfg.graph.node? node = some block → ∀ arc ∈ cfg.fallthroughs node,
    arc.data.target = block.last.next ∧
    ((∃ last effects successor,
      context.execute inference.findings block.last.state = .ok (last, effects) ∧
      successor ∈ effects.successors ∧ successor.ip = block.last.next) ∨
    block.last.opcode = .call ∧ ∃ site id, block.last.meaning? = some (.call site) ∧
      site.exportId? = some id ∧ id ∈ inference.waitingFor)
  /-- There is no such edge from a jump, a return, or a helper that exits or throws. -/
  stops : ∀ node block, cfg.graph.node? node = some block →
    block.last.flow ∈ [Flow.jump, .conditionalJump, .switch, .ret] ∨
      (∃ call ∈ [HelperCall.exit, .throwing], ∃ reference? raw?,
        block.last.meaning? = some (.helper call reference? raw?)) →
    cfg.fallthroughs node = []
  /-- The edges to filters and handlers are one for each filter and handler of a region, in order,
  from the block that lists the opener of the region. -/
  rescues : List.Forall₂
    (fun rescue arc => arc.data = ⟨rescue.2, .handler rescue.1.kind⟩ ∧
      ∃ block opener, cfg.graph.node? arc.source = some block ∧ opener ∈ block.body ∧
        opener.offset = rescue.1.opener ∧ opener.opcode = .enter)
    (rescues inference.regions.toList)
    (cfg.graph.arcs.toList.filter (·.data.kind.isExceptional))

end ControlFlowGraph

namespace Context

variable {context : Context} {log : Log} {inference : Inference}

/-- The opener of every region of a result is a `TRY`. -/
lemma exists_opener_of_infer (h : (context.infer log).2 = .ok inference) {region : Region}
    (hregion : region ∈ inference.regions) :
    ∃ opener, inference.findings[region.opener]? = some opener ∧ opener.opcode = .enter := by
  obtain ⟨run, rfl, hreachable, -⟩ := infer_eq_ok h
  obtain ⟨outer, hguards⟩ := hreachable.fenced.opened region hregion
  obtain ⟨opener, hopener, hopcode, -⟩ := hguards.inside
  exact ⟨opener, hopener, hopcode⟩

/-- The block that holds the opener of a region of a result lists it. -/
lemma exists_mem_body (hblob : context.image.blob.Addressable)
    (h : (context.infer log).2 = .ok inference) {graph : Digraph Block FlowEdge} {node : NodeId}
    (hnodes : graph.nodes
      = (blocks inference.entry inference.headers (ordered inference.toList)).toArray)
    {region : Region} (hregion : region ∈ inference.regions)
    (hnode : ControlFlowGraph.holding? graph region.opener = some node) :
    ∃ block opener, graph.node? node = some block ∧ opener ∈ block.body ∧
      opener.offset = region.opener ∧ opener.opcode = .enter := by
  have hbuildable := infer_buildable hblob h
  obtain ⟨found, block, hfound, hblock, opener, hbody, hoffset⟩ :=
    ControlFlowGraph.exists_listing hnodes hbuildable.ascends
      (hbuildable.openers region (Std.ExtTreeSet.mem_toList.2 hregion))
  obtain rfl : found = node := Option.some.inj (hfound.symm.trans hnode)
  refine ⟨block, opener, hblock, hbody, hoffset, ?_⟩
  -- the instruction that the block lists is the one that is recorded at the opener
  have hmem : block ∈ blocks inference.entry inference.headers (ordered inference.toList) :=
    List.mem_of_getElem? ((ControlFlowGraph.node?_eq_some_iff hnodes).1 hblock)
  obtain ⟨offset, hopener⟩ :=
    Inference.mem_toList.1 (mem_of_mem_ordered (mem_of_mem_block hmem hbody))
  obtain ⟨recorded, hrecorded, hopcode⟩ := exists_opener_of_infer h hregion
  rw [← hoffset, (decodeAt_of_infer h hopener).2.1, hopener, Option.some.injEq] at hrecorded
  rw [hrecorded]
  exact hopcode

/-- The last instruction of a block of the graph of a result is an instruction of the result. -/
lemma exists_last {graph : Digraph Block FlowEdge} {node : NodeId} {block : Block}
    (hnodes : graph.nodes
      = (blocks inference.entry inference.headers (ordered inference.toList)).toArray)
    (hblock : graph.node? node = some block) :
    ∃ offset : Offset, inference.findings[offset]? = some block.last := by
  have hmem := List.mem_of_getElem? ((ControlFlowGraph.node?_eq_some_iff hnodes).1 hblock)
  exact Inference.mem_toList.1 (mem_of_mem_ordered (mem_of_mem_block hmem block.last_mem))

/-- An instruction of a result that is not a jump has no targets. -/
lemma targets_of_infer (h : (context.infer log).2 = .ok inference) {offset : Offset}
    {finding : Finding} (hfinding : inference.findings[offset]? = some finding)
    (hjump : finding.flow ∉ [Flow.jump, .conditionalJump, .switch]) : finding.targets = [] := by
  obtain ⟨run, rfl, hreachable, -⟩ := infer_eq_ok h
  obtain ⟨-, -, _, _, hexecute, -⟩ := hreachable.traced.exists_execution hfinding
  exact targets_of_execute hexecute hjump

/-- **No edge of the graph of an analysed function is made up.**  The graph can be built.  The arms
of a block are the targets of its last instruction, in order; every edge to what comes behind a
block is a step that executing its last instruction makes, or follows a call of a function that the
analysis waits for; there is no such edge behind jumps, returns, and helpers that exit or throw; and
the edges to filters and handlers are those of the regions of the result, each from the block that
lists the `TRY`.  Every edge leads to the block that starts where it says.

**Proof sketch.** The lists of edges are known from the building of the graph (`leaving_of_build`,
`arcs_of_build`).  Instructions other than jumps have no targets, since none has a meaning with
targets.  Where a path goes on, the execution on the final findings goes on (`exists_onward`). -/
theorem infer_faithful (hblob : context.image.blob.Addressable)
    (h : (context.infer log).2 = .ok inference) :
    ∃ cfg, inference.graph = .ok cfg ∧ cfg.Faithful context inference := by
  obtain ⟨cfg, hbuild, hnodes, -⟩ :=
    ControlFlowGraph.exists_build inference.exportId (infer_buildable hblob h)
  obtain ⟨hleaving, harcs, hrescues⟩ := ControlFlowGraph.arcs_of_build hbuild
  refine ⟨cfg, hbuild, fun arc hmem => (harcs arc hmem).1, hleaving, fun arc hmem =>
    ControlFlowGraph.exists_of_startingAt? (harcs arc hmem).2, ?_, ?_, ?_, ?_⟩
  · intro node block hblock
    obtain ⟨-, harms, -⟩ | ⟨hjump, hnone, -⟩ := ControlFlowGraph.leaving_of_build hbuild hblock
    · exact harms
    · obtain ⟨offset, hfinding⟩ := exists_last hnodes hblock
      rw [hnone, targets_of_infer h hfinding hjump]
      rfl
  · intro node block hblock arc harc
    obtain ⟨-, -, hnone⟩ | ⟨-, -, hnone | ⟨hpath, next, hone⟩⟩ :=
      ControlFlowGraph.leaving_of_build hbuild hblock
    · rw [hnone] at harc
      exact absurd harc List.not_mem_nil
    · rw [hnone] at harc
      exact absurd harc List.not_mem_nil
    · rw [hone, List.mem_singleton] at harc
      obtain ⟨offset, hfinding⟩ := exists_last hnodes hblock
      exact ⟨by rw [harc]; rfl, exists_onward h hfinding hpath⟩
  · intro node block hblock hstops
    obtain ⟨-, -, hnone⟩ | ⟨-, -, hnone | ⟨hpath, -, -⟩⟩ :=
      ControlFlowGraph.leaving_of_build hbuild hblock
    · exact hnone
    · exact hnone
    · rw [Finding.endsPath_iff.2 hstops] at hpath
      cases hpath
  · have hmem : ∀ rescue ∈ ControlFlowGraph.rescues inference.regions.toList,
        rescue.1 ∈ inference.regions := by
      intro rescue hrescue
      obtain ⟨region, hregion, hentry⟩ := List.mem_flatMap.1 hrescue
      obtain ⟨entry, -, rfl⟩ := List.mem_map.1 hentry
      exact Std.ExtTreeSet.mem_toList.1 hregion
    refine ((List.forall₂_and_left _ _).2 ⟨hmem, hrescues⟩).imp fun rescue arc hrescue => ?_
    exact ⟨hrescue.2.data, exists_mem_body hblob h hnodes hrescue.1 hrescue.2.source⟩

/-- A function that calls itself inside a protected region: `PUSHI 44`, `PUSHI 2`, `TRY`, `PUSHI 0`,
`PUSHI 36`, `JZ`; if the jump is not taken `PUSHI 0`, `CALL`; and both at 36 and at 44, the handler,
`PUSHI 0`, `RET`. -/
def recursive : Context where
  image :=
    { blob := .ofBlocks .sequential
        [(0, [(.pushi .dword, .dword 44), (.pushi .dword, .dword 2), (.enter, .none),
            (.pushi .dword, .dword 0), (.pushi .dword, .dword 36), (.jz, .none),
            (.pushi .dword, .dword 0), (.call, .none)]),
          (2476361410, [(.pushi .dword, .dword 0), (.ret, .none)]),
          (495657335, [(.pushi .dword, .dword 0), (.ret, .none)])]
      table := .sequential
      exports := .ofList [{ id := 1, offset := 0, entryKey? := some 0 }]
      references := ∅ }
  settings := {}
  subject := { id := 1, offset := 0, entryKey? := some 0 }

/-- The graph of the function has two arms from the jump, an edge that follows the call, for whose
exit key the function waits itself, and an edge from the block of the `TRY` to the handler. -/
theorem infer_faithful_recursive : recursive.image.blob.Addressable ∧
    ∃ inference cfg, (recursive.infer {}).2 = .ok inference ∧ inference.graph = .ok cfg ∧
      1 ∈ inference.waitingFor ∧
      (cfg.graph.arcs.toList.map fun arc => (arc.source.index, arc.target.index, arc.data))
        = [(0, 2, ⟨36, .arm 0⟩), (0, 1, ⟨28, .arm 1⟩), (1, 2, ⟨36, .fallthrough⟩),
          (0, 3, ⟨44, .handler .fault⟩)] ∧
      cfg.Faithful recursive inference := by
  have hblob : recursive.image.blob.size < UInt64.size := by decide +kernel
  obtain ⟨inference, hinfer, hwaiting, hgraph⟩ :
      ∃ inference, (recursive.infer {}).2 = .ok inference ∧ 1 ∈ inference.waitingFor ∧
        (inference.graph.toOption.any fun cfg =>
          (cfg.graph.arcs.toList.map fun arc => (arc.source.index, arc.target.index, arc.data))
            = [(0, 2, ⟨36, .arm 0⟩), (0, 1, ⟨28, .arm 1⟩), (1, 2, ⟨36, .fallthrough⟩),
              (0, 3, ⟨44, .handler .fault⟩)]) :=
    exists_eq_ok (by decide +kernel)
  obtain ⟨cfg, hcfg, harcs⟩ := exists_eq_ok hgraph
  obtain ⟨built, hbuilt, hfaithful⟩ := infer_faithful hblob hinfer
  obtain rfl : cfg = built := Except.ok.inj (hcfg.symm.trans hbuilt)
  exact ⟨hblob, inference, cfg, hinfer, hcfg, hwaiting, harcs, hfaithful⟩

end Context

end KeyedVM
