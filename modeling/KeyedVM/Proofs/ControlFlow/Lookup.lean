import KeyedVM.Proofs.ControlFlow.Partition
import KeyedVM.Proofs.Digraph.Traversal

set_option relaxedAutoImplicit false
set_option autoImplicit false

/-!
# Looking up the block at an offset

The block at an offset is looked up among the starts of blocks: the last block that starts at or
before the offset is taken if it reaches that far.  This finds every recorded instruction in the
block that lists it.  Where instructions overlap, a short block can start inside a longer one and
end before it; behind the short block nothing is found, although the longer one is still going on.

## Main definitions

* `KeyedVM.ControlFlowGraph.IsLastBefore` — the last block that starts at or before an offset;
* `KeyedVM.Apart` — instructions that do not overlap;
* `KeyedVM.Context.nested` — instructions that overlap.

## Main results

* `KeyedVM.ControlFlowGraph.holding?_eq_some_iff` — which block is found;
* `KeyedVM.ControlFlowGraph.build_blockAt` — the block at an offset of a graph;
* `KeyedVM.ControlFlowGraph.blockAt_misses` — a block that is not found at an offset inside it.
-/

namespace KeyedVM

/-- No instruction reaches beyond the place where a later one starts. -/
def Apart (findings : List Finding) : Prop :=
  (ordered findings).Pairwise fun first second => first.next ≤ second.offset

/-- A block contains the offsets from its start up to its end. -/
lemma Block.contains_eq_true_iff {block : Block} {offset : Offset} :
    block.contains offset = true ↔ block.offset ≤ offset ∧ offset < block.stop := by
  rw [contains, Bool.and_eq_true, decide_eq_true_eq, decide_eq_true_eq]

namespace ControlFlowGraph

variable {graph : Digraph Block FlowEdge} {node : NodeId} {block : Block} {offset : Offset}

/-- A block is the last one that starts at or before an offset. -/
structure IsLastBefore (graph : Digraph Block FlowEdge) (offset : Offset) (node : NodeId)
    (block : Block) : Prop where
  node? : graph.node? node = some block
  starts : block.offset ≤ offset
  later : ∀ (other : NodeId) next, node.index < other.index → graph.node? other = some next →
    offset < next.offset

/-! ## Which block is found -/

/-- Only one block is the last one. -/
lemma IsLastBefore.unique {other : NodeId} {next : Block} (h : IsLastBefore graph offset node block)
    (hother : IsLastBefore graph offset other next) : other = node ∧ next = block := by
  have hindex : other.index = node.index := by
    rcases Nat.lt_trichotomy other.index node.index with hlt | heq | hlt
    · exact absurd h.starts (UInt64.not_le.2 (hother.later node block hlt h.node?))
    · exact heq
    · exact absurd hother.starts (UInt64.not_le.2 (h.later other next hlt hother.node?))
  obtain rfl : other = node := congrArg NodeId.mk hindex
  exact ⟨rfl, Option.some.inj (hother.node?.symm.trans h.node?)⟩

/-- The blocks that start at or before an offset. -/
def startingBefore (graph : Digraph Block FlowEdge) (offset : Offset) : List NodeId :=
  graph.nodeIds.filter fun node => (graph.node? node).any fun block => block.offset ≤ offset

/-- The nodes that start before an offset are those whose block starts there or earlier. -/
lemma mem_startingBefore : node ∈ startingBefore graph offset ↔
    ∃ block, graph.node? node = some block ∧ block.offset ≤ offset := by
  rw [startingBefore, List.mem_filter, Digraph.mem_nodeIds, Option.any_eq_true]
  simp only [decide_eq_true_eq]
  refine ⟨fun h => h.2, fun h => ⟨?_, h⟩⟩
  obtain ⟨block, hblock, -⟩ := h
  exact (Array.getElem?_eq_some_iff.1 hblock).1

/-- The last of the blocks that start at or before an offset. -/
lemma isLastBefore_of_getLast? (h : (startingBefore graph offset).getLast? = some node) :
    ∃ block, IsLastBefore graph offset node block := by
  obtain ⟨front, hfront⟩ := List.getLast?_eq_some_iff.1 h
  have hmem : node ∈ startingBefore graph offset := List.mem_of_getLast? h
  obtain ⟨block, hblock, hstarts⟩ := mem_startingBefore.1 hmem
  refine ⟨block, hblock, hstarts, fun other next hlt hnext => UInt64.not_le.1 fun hle => ?_⟩
  have hother : other ∈ startingBefore graph offset := mem_startingBefore.2 ⟨next, hnext, hle⟩
  have hascending : (startingBefore graph offset).Pairwise fun first second =>
      first.index < second.index := by
    have hids : graph.nodeIds.Pairwise fun first second => first.index < second.index :=
      List.pairwise_map.2 List.pairwise_lt_range
    exact hids.filter _
  rw [hfront] at hother hascending
  rcases List.mem_append.1 hother with hother | hother
  · have hless := (List.pairwise_append.1 hascending).2.2 other hother node List.mem_cons_self
    exact Nat.lt_asymm hlt hless
  · rw [List.mem_singleton.1 hother] at hlt
    exact Nat.lt_irrefl _ hlt

/-- If a block starts at or before an offset, one of these blocks is the last. -/
lemma exists_isLastBefore (hblock : graph.node? node = some block)
    (hstarts : block.offset ≤ offset) : ∃ last next, IsLastBefore graph offset last next := by
  have hmem : node ∈ startingBefore graph offset := mem_startingBefore.2 ⟨block, hblock, hstarts⟩
  exact ⟨_, isLastBefore_of_getLast? (List.getLast?_eq_some_getLast (List.ne_nil_of_mem hmem))⟩

/-- **Which block is found**: the last one that starts at or before the offset, if it contains the
offset. -/
theorem holding?_eq_some_iff : holding? graph offset = some node ↔
    ∃ block, IsLastBefore graph offset node block ∧ block.contains offset = true := by
  constructor
  · intro h
    simp only [holding?, Option.bind_eq_bind, Option.bind_eq_some_iff] at h
    obtain ⟨found, hfound, block, hblock, hcontains⟩ := h
    split at hcontains
    · next hinside =>
      obtain rfl := Option.some.inj hcontains
      obtain ⟨next, hnext⟩ := isLastBefore_of_getLast? hfound
      obtain rfl : next = block := Option.some.inj (hnext.node?.symm.trans hblock)
      exact ⟨next, hnext, hinside⟩
    · cases hcontains
  · rintro ⟨block, hlast, hcontains⟩
    exact holding?_eq_some hlast.node? hcontains hlast.later

/-- Where a block starts at or before an offset, none is found exactly if the last block that does
so ends there or before. -/
lemma holding?_eq_none_iff (hblock : graph.node? node = some block)
    (hstarts : block.offset ≤ offset) : holding? graph offset = none ↔
      ∃ last next, IsLastBefore graph offset last next ∧ next.stop ≤ offset := by
  obtain ⟨last, next, hlast⟩ := exists_isLastBefore hblock hstarts
  have hcontains : next.contains offset = true ↔ ¬ next.stop ≤ offset := by
    rw [Block.contains_eq_true_iff, UInt64.not_le]
    exact and_iff_right hlast.starts
  constructor
  · intro hnone
    refine ⟨last, next, hlast, not_not.1 fun hstop => ?_⟩
    rw [holding?_eq_some_iff.2 ⟨next, hlast, hcontains.2 hstop⟩] at hnone
    cases hnone
  · rintro ⟨last', next', hlast', hstop⟩
    obtain ⟨rfl, rfl⟩ := hlast.unique hlast'
    rw [Option.eq_none_iff_forall_ne_some]
    intro found hfound
    obtain ⟨block', hblock', hinside⟩ := holding?_eq_some_iff.1 hfound
    obtain ⟨rfl, rfl⟩ := hlast.unique hblock'
    exact hcontains.1 hinside hstop

/-! ## The blocks of a graph -/

section Blocks

variable {entry : Offset} {findings : List Finding} {headers : Std.ExtTreeSet Offset}
  (hnodes : graph.nodes = (KeyedVM.blocks entry headers (ordered findings)).toArray)

include hnodes

/-- Instructions of a later block have later offsets. -/
lemma offset_lt_of_index_lt {other : NodeId} {next : Block} {first second : Finding}
    (hblock : graph.node? node = some block) (hnext : graph.node? other = some next)
    (hlt : node.index < other.index) (hfirst : first ∈ block.body) (hsecond : second ∈ next.body) :
    first.offset < second.offset := by
  have hpairs := List.pairwise_iff_getElem.1
    (pairwise_blocks entry headers (pairwise_ordered findings))
  obtain ⟨hi, rfl⟩ := List.getElem?_eq_some_iff.1 ((node?_eq_some_iff hnodes).1 hblock)
  obtain ⟨hj, rfl⟩ := List.getElem?_eq_some_iff.1 ((node?_eq_some_iff hnodes).1 hnext)
  exact hpairs _ _ hi hj hlt first hfirst second hsecond

/-- The block that lists an instruction is the last one that starts at or before it. -/
lemma isLastBefore_of_mem {finding : Finding} (hblock : graph.node? node = some block)
    (hmem : finding ∈ block.body) : IsLastBefore graph finding.offset node block where
  node? := hblock
  starts := Block.offset_le (pairwise_body (pairwise_ordered findings)
    (List.mem_of_getElem? ((node?_eq_some_iff hnodes).1 hblock))) hmem
  later _ next hlt hnext := offset_lt_of_index_lt hnodes hblock hnext hlt hmem next.first_mem

/-- Where no instructions overlap, a block that contains an offset is the last one that starts at or
before it. -/
lemma isLastBefore_of_contains (hapart : Apart findings) (hblock : graph.node? node = some block)
    (hcontains : block.contains offset = true) : IsLastBefore graph offset node block := by
  obtain ⟨hstarts, hstop⟩ := Block.contains_eq_true_iff.1 hcontains
  refine ⟨hblock, hstarts, fun other next hlt hnext => ?_⟩
  rw [Apart, ← flatMap_blocks entry headers (ordered findings)] at hapart
  have hpairs := List.pairwise_iff_getElem.1 (List.pairwise_flatMap.1 hapart).2
  obtain ⟨hi, rfl⟩ := List.getElem?_eq_some_iff.1 ((node?_eq_some_iff hnodes).1 hblock)
  obtain ⟨hj, rfl⟩ := List.getElem?_eq_some_iff.1 ((node?_eq_some_iff hnodes).1 hnext)
  exact UInt64.lt_of_lt_of_le hstop
    (hpairs _ _ hi hj hlt _ (Block.last_mem _) _ (Block.first_mem _))

end Blocks

variable {exportId : ExportId} {entry : Offset} {findings : List Finding}
  {headers : Std.ExtTreeSet Offset} {regions : List Region} {cfg : ControlFlowGraph}

/-- **The block at an offset of a graph.**  It is the last block that starts at or before the
offset, if that block contains the offset; so where a block contains an offset, none is found
exactly if the last block that starts at or before the offset ends there or before.  At the offset
of an instruction, the only block that lists the instruction is found, unless the block reaches
around the end of the machine words.  Where no instructions overlap, every block is found at all
offsets inside it. -/
theorem build_blockAt (h : build exportId entry findings headers regions = .ok cfg)
    (offset : Offset) :
    (∀ node, cfg.blockAt? offset = some node ↔
      ∃ block, IsLastBefore cfg.graph offset node block ∧ block.contains offset = true) ∧
    ((∃ node block, cfg.graph.node? node = some block ∧ block.contains offset = true) →
      (cfg.blockAt? offset = none ↔
        ∃ node block, IsLastBefore cfg.graph offset node block ∧ block.stop ≤ offset)) ∧
    (∀ node block finding, cfg.graph.node? node = some block → finding ∈ block.body →
      finding.offset = offset →
      (∀ other next, cfg.graph.node? other = some next →
        (∃ listed ∈ next.body, listed.offset = offset) → other = node) ∧
      (block.last.offset < block.last.next → cfg.blockAt? offset = some node)) ∧
    (Apart findings → ∀ node, cfg.blockAt? offset = some node ↔
      ∃ block, cfg.graph.node? node = some block ∧ block.contains offset = true) := by
  have hnodes := (arcsFrom_of_build h).1
  refine ⟨fun node => holding?_eq_some_iff, ?_, ?_, fun hapart node => ?_⟩
  · rintro ⟨node, block, hblock, hcontains⟩
    exact holding?_eq_none_iff hblock (Block.contains_eq_true_iff.1 hcontains).1
  · rintro node block finding hblock hmem rfl
    have hlast := isLastBefore_of_mem hnodes hblock hmem
    refine ⟨fun other next hnext ⟨listed, hlisted, heq⟩ => ?_, fun hascends => ?_⟩
    · have hother := isLastBefore_of_mem hnodes hnext hlisted
      rw [heq] at hother
      exact (hlast.unique hother).1
    · have hbody := pairwise_body (pairwise_ordered findings)
        (List.mem_of_getElem? ((node?_eq_some_iff hnodes).1 hblock))
      exact holding?_eq_some_iff.2 ⟨block, hlast, Block.contains_of_mem hbody hmem hascends⟩
  · refine holding?_eq_some_iff.trans (exists_congr fun block => ?_)
    constructor
    · rintro ⟨hlast, hcontains⟩
      exact ⟨hlast.node?, hcontains⟩
    · rintro ⟨hblock, hcontains⟩
      exact ⟨isLastBefore_of_contains hnodes hapart hblock hcontains, hcontains⟩

end ControlFlowGraph

/-- Instructions that overlap: `PUSHI 0`, `PUSHI 10`, `PUSHI 22`, `JZ`; if the jump is not taken a
`PUSHI` of a quadword at 20, in whose operand at 22 a `RET` is found if the jump is taken; and
behind it, at 30, another `RET`. -/
def Context.nested : Context := .ofBlocks
  [(0, [(.pushi .dword, .dword 0), (.pushi .dword, .dword 10), (.pushi .dword, .dword 22),
    (.jz, .none), (.pushi .qword, .qword 117), (.ret, .none)])]

namespace ControlFlowGraph

/-- The `PUSHI` at 20 is found there, and at 26 the last block that starts before ends before.  In
the other graph no instructions overlap, and the `RET` at 6 is found at 7. -/
theorem build_blockAt_nested :
    (∃ inference cfg, (Context.nested.infer {}).2 = .ok inference ∧ inference.graph = .ok cfg ∧
      cfg.blockAt? 20 = some ⟨1⟩ ∧
      ∃ node block, IsLastBefore cfg.graph 26 node block ∧ block.stop ≤ 26) ∧
    ∃ cfg, build 1 0 scattered ∅ [] = .ok cfg ∧ Apart scattered ∧ cfg.blockAt? 7 = some ⟨1⟩ := by
  constructor
  · obtain ⟨inference, hinfer, hgraph⟩ :
        ∃ inference, (Context.nested.infer {}).2 = .ok inference ∧
          (inference.graph.toOption.any fun cfg => cfg.blockAt? 26 = none ∧
            (cfg.graph.node? ⟨1⟩).any fun block => block.contains 26 ∧ block.first.offset = 20 ∧
              block.last.offset < block.last.next) :=
      exists_eq_ok (by decide +kernel)
    obtain ⟨cfg, hgraph, hnone, hnode⟩ := exists_eq_ok hgraph
    obtain ⟨block, hblock, hfacts⟩ := (Option.any_eq_true _ _).1 hnode
    obtain ⟨hcontains, hfirst, hascends⟩ := of_decide_eq_true hfacts
    obtain ⟨-, -, hlisted, -⟩ := build_blockAt hgraph 20
    obtain ⟨-, hmissed, -, -⟩ := build_blockAt hgraph 26
    exact ⟨inference, cfg, hinfer, hgraph,
      (hlisted ⟨1⟩ block block.first hblock block.first_mem hfirst).2 hascends,
      (hmissed ⟨⟨1⟩, block, hblock, hcontains⟩).1 hnone⟩
  · obtain ⟨cfg, hbuild, hnode⟩ : ∃ cfg, build 1 0 scattered ∅ [] = .ok cfg ∧
        ((cfg.graph.node? ⟨1⟩).any fun block => block.contains 7) :=
      exists_eq_ok (by decide +kernel)
    obtain ⟨block, hblock, hcontains⟩ := (Option.any_eq_true _ _).1 hnode
    have hapart : Apart scattered := by
      unfold Apart
      decide
    obtain ⟨-, -, -, hfound⟩ := build_blockAt hbuild 7
    exact ⟨cfg, hbuild, hapart, (hfound hapart ⟨1⟩).2 ⟨block, hblock, hcontains⟩⟩

/-- **A block can be missed at an offset inside it.**  The block at 20 goes on until 30, and the
block at 22 starts inside it and ends at 24: at 26 none is found. -/
theorem blockAt_misses : ∃ inference cfg node block,
    (Context.nested.infer {}).2 = .ok inference ∧ inference.graph = .ok cfg ∧
    cfg.graph.node? node = some block ∧ block.offset = 20 ∧ block.stop = 30 ∧
    block.contains 26 = true ∧ cfg.blockAt? 26 = none := by
  obtain ⟨inference, hinfer, hgraph⟩ :
      ∃ inference, (Context.nested.infer {}).2 = .ok inference ∧
        (inference.graph.toOption.any fun cfg => cfg.blockAt? 26 = none ∧
          (cfg.graph.node? ⟨1⟩).any fun block => block.offset = 20 ∧ block.stop = 30 ∧
            block.contains 26) :=
    exists_eq_ok (by decide +kernel)
  obtain ⟨cfg, hgraph, hnone, hnode⟩ := exists_eq_ok hgraph
  obtain ⟨block, hblock, hfacts⟩ := (Option.any_eq_true _ _).1 hnode
  obtain ⟨hoffset, hstop, hcontains⟩ := of_decide_eq_true hfacts
  exact ⟨inference, cfg, ⟨1⟩, block, hinfer, hgraph, hblock, hoffset, hstop, hcontains, hnone⟩

end ControlFlowGraph

end KeyedVM
