import KeyedVM.ControlFlow.Graph
import KeyedVM.Proofs.ControlFlow.Blocks
import KeyedVM.Proofs.Inference.Outline

set_option relaxedAutoImplicit false
set_option autoImplicit false

/-!
# When a graph can be built

Building a control flow graph looks up the block that starts at the entry, at each target of a jump
and at each filter and handler, and the block that holds the opener of each protected region.  If an
instruction is recorded at all these places, and all but the openers are headers, then every look-up
succeeds, and so does the building.

## Main definitions

* `KeyedVM.ControlFlowGraph.Starts` — a block of a graph starts at an offset;
* `KeyedVM.ControlFlowGraph.Buildable` — what has to be recorded for a graph to be built.

## Main results

* `KeyedVM.Digraph.nodes_ofNodes` — the nodes of a graph without edges;
* `KeyedVM.ControlFlowGraph.exists_connect` — adding edges between nodes succeeds;
* `KeyedVM.ControlFlowGraph.holding?_eq_some` — an instruction is held by the block that lists it;
* `KeyedVM.ControlFlowGraph.exists_build` — what is buildable is built.
-/

namespace KeyedVM

/-! ## Nodes and edges -/

namespace Digraph

variable {N E : Type}

/-- The nodes of a graph without edges, in the order of addition. -/
theorem nodes_ofNodes (data : List N) : (ofNodes data : Digraph N E).nodes = data.toArray := by
  have hfold : ∀ (graph : Digraph N E),
      (data.foldl (fun graph data => (graph.addNode data).2) graph).nodes
        = graph.nodes ++ data.toArray := by
    induction data with
    | nil => intro graph; simp
    | cons first rest ih =>
      intro graph
      rw [List.foldl_cons, ih]
      simp [addNode]
  rw [ofNodes, hfold]
  simp

/-- Adding an edge between two nodes succeeds and leaves the nodes alone. -/
lemma exists_addEdge {graph : Digraph N E} {source target : NodeId}
    (hsource : source.index < graph.nodeCount) (htarget : target.index < graph.nodeCount)
    (data : E) : ∃ id graph', graph.addEdge source target data = .ok (id, graph') ∧
      graph'.nodes = graph.nodes := by
  rw [addEdge, if_pos ⟨hsource, htarget⟩]
  exact ⟨_, _, rfl, rfl⟩

end Digraph

namespace ControlFlowGraph

variable {graph graph' : Digraph Block FlowEdge}

/-- Adding edges between nodes succeeds and leaves the nodes alone. -/
theorem exists_connect {links : List Link}
    (h : ∀ link ∈ links, link.1.index < graph.nodeCount ∧ link.2.1.index < graph.nodeCount) :
    ∃ graph', connect graph links = .ok graph' ∧ graph'.nodes = graph.nodes := by
  induction links generalizing graph with
  | nil => exact ⟨graph, rfl, rfl⟩
  | cons link rest ih =>
    obtain ⟨source, node, edge⟩ := link
    obtain ⟨hsource, hnode⟩ := h _ List.mem_cons_self
    obtain ⟨id, added, hadded, hnodes⟩ := Digraph.exists_addEdge hsource hnode edge
    have hcount : added.nodeCount = graph.nodeCount := by
      rw [Digraph.nodeCount, hnodes, Digraph.nodeCount]
    obtain ⟨last, hlast, hsame⟩ := @ih added fun link hlink => by
      rw [hcount]
      exact h link (List.mem_cons_of_mem _ hlink)
    refine ⟨last, ?_, hsame.trans hnodes⟩
    rw [connect, hadded]
    exact hlast

/-! ## Looking up blocks -/

/-- A block of the graph starts at an offset. -/
def Starts (graph : Digraph Block FlowEdge) (offset : Offset) : Prop :=
  ∃ node block, graph.node? node = some block ∧ block.offset = offset

/-- Where a block starts, one is found. -/
lemma exists_startingAt? {offset : Offset} (h : Starts graph offset) :
    ∃ node block, startingAt? graph offset = some node ∧ node.index < graph.nodeCount ∧
      graph.node? node = some block ∧ block.offset = offset := by
  obtain ⟨node, block, hblock, hoffset⟩ := h
  have hfound : (graph.nodes.findIdx? fun block => block.offset = offset).isSome = true := by
    rw [Array.findIdx?_isSome, Array.any_eq_true']
    exact ⟨block, Array.mem_of_getElem? hblock, by simpa using hoffset⟩
  obtain ⟨index, hindex⟩ := Option.isSome_iff_exists.1 hfound
  obtain ⟨hlt, hstart, -⟩ := Array.findIdx?_eq_some_iff_getElem.1 hindex
  refine ⟨⟨index⟩, graph.nodes[index], by rw [startingAt?, hindex]; rfl, hlt, ?_, ?_⟩
  · exact Array.getElem?_eq_getElem hlt
  · simpa using hstart

/-- The target of an edge is found where a block starts. -/
lemma exists_target (exportId : ExportId) (role : TargetRole) {offset : Offset}
    (h : Starts graph offset) : ∃ node, target exportId graph role offset = .ok node ∧
      node.index < graph.nodeCount := by
  obtain ⟨node, block, hnode, hlt, -, -⟩ := exists_startingAt? h
  exact ⟨node, by rw [target, hnode], hlt⟩

/-- The last member that passes a test is found, if none behind it does. -/
lemma getLast?_filter {α : Type} {p : α → Bool} {l : List α} {i : Nat} {a : α}
    (ha : l[i]? = some a) (hp : p a = true)
    (hlater : ∀ j b, i < j → l[j]? = some b → p b = false) : (l.filter p).getLast? = some a := by
  obtain ⟨hi, hget⟩ := List.getElem?_eq_some_iff.1 ha
  have hsplit : l = l.take i ++ a :: l.drop (i + 1) := by
    rw [← hget, List.getElem_cons_drop hi, List.take_append_drop]
  have hnone : (l.drop (i + 1)).filter p = [] := by
    rw [List.filter_eq_nil_iff]
    intro b hb
    obtain ⟨j, hj⟩ := List.mem_iff_getElem?.1 hb
    rw [List.getElem?_drop] at hj
    rw [hlater (i + 1 + j) b (by omega) hj]
    decide
  rw [hsplit, List.filter_append, List.filter_cons_of_pos hp, hnone, List.getLast?_append]
  rfl

/-- **An instruction is held by the block that lists it**, if later blocks start behind it. -/
theorem holding?_eq_some {offset : Offset} {node : NodeId} {block : Block}
    (hblock : graph.node? node = some block) (hcontains : block.contains offset = true)
    (hlater : ∀ (other : NodeId) later, node.index < other.index →
      graph.node? other = some later → offset < later.offset) :
    holding? graph offset = some node := by
  have hlt : node.index < graph.nodeCount := (Array.getElem?_eq_some_iff.1 hblock).1
  have hids : ∀ i < graph.nodeCount, graph.nodeIds[i]? = some ⟨i⟩ := by
    intro i hi
    rw [Digraph.nodeIds, List.getElem?_map, List.getElem?_range hi]
    rfl
  have hfound : (graph.nodeIds.filter fun node =>
      (graph.node? node).any fun block => block.offset ≤ offset).getLast? = some node := by
    refine getLast?_filter (hids node.index hlt) ?_ ?_
    · rw [Block.contains, Bool.and_eq_true] at hcontains
      rw [hblock, Option.any_some]
      exact hcontains.1
    · intro j other hj hother
      have hjlt : j < graph.nodeCount := by
        have hlength := (List.getElem?_eq_some_iff.1 hother).1
        rwa [Digraph.nodeIds, List.length_map, List.length_range] at hlength
      rw [hids j hjlt, Option.some.injEq] at hother
      subst hother
      have hlaterBlock : graph.node? ⟨j⟩ = some graph.nodes[j] := Array.getElem?_eq_getElem hjlt
      rw [hlaterBlock, Option.any_some, decide_eq_false_iff_not, UInt64.not_le]
      exact hlater ⟨j⟩ _ hj hlaterBlock
  rw [holding?, hfound]
  simp only [Option.bind_eq_bind, Option.bind_some, hblock, hcontains, if_true]

/-- The block that holds an offset contains it. -/
lemma contains_of_holding? {offset : Offset} {node : NodeId}
    (h : holding? graph offset = some node) :
    ∃ block, graph.node? node = some block ∧ block.contains offset = true := by
  simp only [holding?, Option.bind_eq_bind, Option.bind_eq_some_iff] at h
  obtain ⟨found, -, block, hblock, hcontains⟩ := h
  split at hcontains
  · next hinside =>
    obtain rfl := Option.some.inj hcontains
    exact ⟨block, hblock, hinside⟩
  · cases hcontains

/-! ## The look-ups of a building -/

/-- What has to be recorded for a graph to be built: an instruction at the entry, at every target of
a jump, at every filter and handler and at the opener of every protected region, where the targets,
filters and handlers are headers; and no instruction reaches around the end of the machine words. -/
structure Buildable (entry : Offset) (findings : List Finding) (headers : Std.ExtTreeSet Offset)
    (regions : List Region) : Prop where
  entry : ∃ finding ∈ findings, finding.offset = entry
  targets : ∀ finding ∈ findings, ∀ target ∈ finding.targets,
    target ∈ headers ∧ ∃ other ∈ findings, other.offset = target
  openers : ∀ region ∈ regions, ∃ finding ∈ findings, finding.offset = region.opener
  handlers : ∀ region ∈ regions, ∀ entry ∈ region.entries,
    entry ∈ headers ∧ ∃ finding ∈ findings, finding.offset = entry
  ascends : ∀ finding ∈ findings, finding.offset < finding.next

section Lookup

variable {entry : Offset} {findings : List Finding} {headers : Std.ExtTreeSet Offset}
  {regions : List Region}
  (hnodes : graph.nodes = (KeyedVM.blocks entry headers (ordered findings)).toArray)

include hnodes

/-- The data of a node is a block of the findings. -/
lemma node?_eq_some_iff {node : NodeId} {block : Block} : graph.node? node = some block ↔
    (KeyedVM.blocks entry headers (ordered findings))[node.index]? = some block := by
  rw [Digraph.node?, hnodes, List.getElem?_toArray]

/-- A block starts at the entry and at every header where an instruction is recorded. -/
lemma starts_of_mem {offset : Offset} (hmem : ∃ finding ∈ findings, finding.offset = offset)
    (hheader : offset = entry ∨ offset ∈ headers) : Starts graph offset := by
  obtain ⟨finding, hfinding, rfl⟩ := exists_mem_ordered_iff.2 hmem
  obtain ⟨block, hblock, hoffset⟩ := exists_block_of_header hfinding hheader
  obtain ⟨index, hindex⟩ := List.mem_iff_getElem?.1 hblock
  exact ⟨⟨index⟩, block, (node?_eq_some_iff hnodes).2 hindex, hoffset⟩

/-- Every recorded instruction is held by the block that lists it. -/
lemma exists_listing (hascends : ∀ finding ∈ findings, finding.offset < finding.next)
    {offset : Offset} (hmem : ∃ finding ∈ findings, finding.offset = offset) :
    ∃ node block, holding? graph offset = some node ∧ graph.node? node = some block ∧
      ∃ finding ∈ block.body, finding.offset = offset := by
  obtain ⟨finding, hfinding, rfl⟩ := exists_mem_ordered_iff.2 hmem
  obtain ⟨block, hblock, hbody⟩ := exists_block_of_mem entry headers hfinding
  obtain ⟨index, hindex⟩ := List.mem_iff_getElem?.1 hblock
  have hsorted := pairwise_ordered findings
  have hlast : block.last.offset < block.last.next :=
    hascends _ (mem_of_mem_ordered (mem_of_mem_block hblock block.last_mem))
  have hnode : graph.node? ⟨index⟩ = some block := (node?_eq_some_iff hnodes).2 hindex
  refine ⟨⟨index⟩, block, holding?_eq_some hnode ?_ ?_, hnode, finding, hbody, rfl⟩
  · exact Block.contains_of_mem (pairwise_body hsorted hblock) hbody hlast
  · intro other later hlt hlater
    have hpairs := List.pairwise_iff_getElem.1 (pairwise_blocks entry headers hsorted)
    obtain ⟨hi, rfl⟩ := List.getElem?_eq_some_iff.1 hindex
    obtain ⟨hj, rfl⟩ := List.getElem?_eq_some_iff.1 ((node?_eq_some_iff hnodes).1 hlater)
    exact hpairs _ _ hi hj hlt finding hbody _ (Block.first_mem _)

/-- Every recorded instruction is held by a block. -/
lemma exists_holding? (hascends : ∀ finding ∈ findings, finding.offset < finding.next)
    {offset : Offset} (hmem : ∃ finding ∈ findings, finding.offset = offset) :
    ∃ node, holding? graph offset = some node ∧ node.index < graph.nodeCount := by
  obtain ⟨node, block, hholding, hnode, -⟩ := exists_listing hnodes hascends hmem
  exact ⟨node, hholding, (Array.getElem?_eq_some_iff.1 hnode).1⟩

end Lookup

/-! ## Building -/

/-- The arms of a jump are found if a block starts at each target. -/
lemma exists_arms (exportId : ExportId) (source : NodeId) (index : Nat) {targets : List Offset}
    (h : ∀ target ∈ targets, Starts graph target) :
    ∃ links, arms exportId graph source index targets = .ok links ∧
      ∀ link ∈ links, link.1 = source ∧ link.2.1.index < graph.nodeCount := by
  induction targets generalizing index with
  | nil => exact ⟨[], rfl, fun _ hmem => absurd hmem List.not_mem_nil⟩
  | cons offset rest ih =>
    obtain ⟨node, hnode, hlt⟩ := exists_target exportId .jumpTarget (h offset List.mem_cons_self)
    obtain ⟨links, hlinks, hends⟩ := ih (index + 1) fun target hmem =>
      h target (List.mem_cons_of_mem _ hmem)
    refine ⟨(source, node, ⟨offset, .arm index⟩) :: links, ?_, ?_⟩
    · simp only [arms, bind_eq_ok_iff, pure_eq_ok_iff]
      exact ⟨node, hnode, links, hlinks, rfl⟩
    · intro link hmem
      rcases List.mem_cons.1 hmem with rfl | hmem
      · exact ⟨rfl, hlt⟩
      · exact hends link hmem

/-- The edges from the end of a block are found if a block starts at each of its targets. -/
lemma exists_links (exportId : ExportId) (source : NodeId) {block : Block}
    (h : ∀ target ∈ block.last.targets, Starts graph target) :
    ∃ found, links exportId graph source block = .ok found ∧
      ∀ link ∈ found, link.1 = source ∧ link.2.1.index < graph.nodeCount := by
  unfold links
  split
  · exact exists_arms exportId source 0 h
  · exact exists_arms exportId source 0 h
  · exact exists_arms exportId source 0 h
  · split
    · exact ⟨[], rfl, fun _ hmem => absurd hmem List.not_mem_nil⟩
    · split
      · next node hnode =>
        refine ⟨_, rfl, fun link hmem => ?_⟩
        rw [List.mem_singleton.1 hmem]
        obtain ⟨index, hindex, rfl⟩ := Option.map_eq_some_iff.1 hnode
        exact ⟨rfl, (Array.findIdx?_eq_some_iff_getElem.1 hindex).1⟩
      · exact ⟨[], rfl, fun _ hmem => absurd hmem List.not_mem_nil⟩

/-- The nodes of a graph are listed with their data. -/
lemma node?_of_mem_zip {node : NodeId} {block : Block}
    (h : (node, block) ∈ graph.nodeIds.zip graph.nodes.toList) :
    graph.node? node = some block := by
  obtain ⟨index, hindex⟩ := List.mem_iff_getElem?.1 h
  obtain ⟨hid, hblock⟩ := List.getElem?_zip_eq_some.1 hindex
  have hlt : index < graph.nodeCount := by
    have hlength := (List.getElem?_eq_some_iff.1 hblock).1
    rwa [Array.length_toList] at hlength
  rw [Digraph.nodeIds, List.getElem?_map, List.getElem?_range hlt, Option.map_some,
    Option.some.injEq] at hid
  obtain rfl : ⟨index⟩ = node := hid
  rw [Array.getElem?_toList] at hblock
  exact hblock

/-- The edges from the ends of all blocks are added if a block starts at each target. -/
lemma exists_connectBlocks (exportId : ExportId)
    (h : ∀ node block, graph.node? node = some block →
      ∀ target ∈ block.last.targets, Starts graph target) :
    ∃ graph', connectBlocks exportId graph = .ok graph' ∧ graph'.nodes = graph.nodes := by
  have hlinks : ∀ pair ∈ graph.nodeIds.zip graph.nodes.toList,
      ∃ found, links exportId graph pair.1 pair.2 = .ok found ∧
        ∀ link ∈ found, link.1 = pair.1 ∧ link.2.1.index < graph.nodeCount := fun pair hmem =>
    exists_links exportId pair.1 (h pair.1 pair.2 (node?_of_mem_zip hmem))
  obtain ⟨found, hfound, hends⟩ := exists_mapM_eq_ok_forall hlinks
  obtain ⟨last, hlast, hnodes⟩ := @exists_connect graph found.flatten fun link hmem => by
    obtain ⟨piece, hpiece, hlink⟩ := List.mem_flatten.1 hmem
    obtain ⟨pair, hpair, hpieces⟩ := hends piece hpiece
    obtain ⟨hsource, htarget⟩ := hpieces link hlink
    rw [hsource]
    exact ⟨(Array.getElem?_eq_some_iff.1 (node?_of_mem_zip hpair)).1, htarget⟩
  exact ⟨last, bind_eq_ok_iff.2 ⟨found, hfound, hlast⟩, hnodes⟩

/-- The edges of a protected region are added if a block holds its opener and a block starts at its
filter and its handler. -/
lemma exists_connectRegion (exportId : ExportId) {region : Region} {source : NodeId}
    (hopener : holding? graph region.opener = some source)
    (hsource : source.index < graph.nodeCount)
    (hentries : ∀ entry ∈ region.entries, Starts graph entry) :
    ∃ graph', connectRegion exportId graph region = .ok graph' ∧ graph'.nodes = graph.nodes := by
  have hlinks : ∀ offset ∈ region.filter?.toList ++ [region.handler], ∃ link : Link,
      (do
        let node ← target exportId graph .handler offset
        return (source, node, (⟨offset, .handler region.kind⟩ : FlowEdge))) = .ok link ∧
      link.1.index < graph.nodeCount ∧ link.2.1.index < graph.nodeCount := by
    intro offset hmem
    obtain ⟨node, hnode, hlt⟩ := exists_target exportId .handler (hentries offset hmem)
    exact ⟨_, bind_eq_ok_iff.2 ⟨node, hnode, rfl⟩, hsource, hlt⟩
  obtain ⟨found, hfound, hends⟩ := exists_mapM_eq_ok_forall hlinks
  obtain ⟨last, hlast, hnodes⟩ := @exists_connect graph found fun link hmem => by
    obtain ⟨-, -, hlink⟩ := hends link hmem
    exact hlink
  refine ⟨last, ?_, hnodes⟩
  rw [connectRegion, hopener]
  exact bind_eq_ok_iff.2 ⟨found, hfound, hlast⟩

section Build

variable {entry : Offset} {findings : List Finding} {headers : Std.ExtTreeSet Offset}
  {regions : List Region}

/-- The edges of protected regions are added to the blocks of what is buildable. -/
lemma exists_connectRegions (exportId : ExportId) (h : Buildable entry findings headers regions)
    (hnodes : graph.nodes = (KeyedVM.blocks entry headers (ordered findings)).toArray)
    {rest : List Region} (hrest : rest ⊆ regions) :
    ∃ graph', connectRegions exportId graph rest = .ok graph' ∧ graph'.nodes = graph.nodes := by
  induction rest generalizing graph with
  | nil => exact ⟨graph, rfl, rfl⟩
  | cons region rest ih =>
    obtain ⟨hregion, hrest⟩ := List.cons_subset.1 hrest
    obtain ⟨source, hopener, hsource⟩ := exists_holding? hnodes h.ascends (h.openers region hregion)
    obtain ⟨joined, hjoined, hsame⟩ := exists_connectRegion exportId hopener hsource
      fun entry hentry =>
        starts_of_mem hnodes (h.handlers region hregion entry hentry).2
          (Or.inr (h.handlers region hregion entry hentry).1)
    obtain ⟨last, hlast, hlastSame⟩ := ih (hsame.trans hnodes) hrest
    exact ⟨last, bind_eq_ok_iff.2 ⟨joined, hjoined, hlast⟩, hlastSame.trans hsame⟩

/-- **What is buildable is built.**  The nodes of the graph are the blocks, and its entry is the
block that starts at the entry. -/
theorem exists_build (exportId : ExportId) (h : Buildable entry findings headers regions) :
    ∃ cfg, build exportId entry findings headers regions = .ok cfg ∧
      cfg.graph.nodes = (KeyedVM.blocks entry headers (ordered findings)).toArray ∧
      ∃ block, cfg.graph.node? cfg.entry = some block ∧ block.offset = entry := by
  have hsome : findings.isEmpty = false := by
    obtain ⟨finding, hmem, -⟩ := h.entry
    rw [List.isEmpty_eq_false_iff]
    exact List.ne_nil_of_mem hmem
  have hnodes := @Digraph.nodes_ofNodes Block FlowEdge
    (KeyedVM.blocks entry headers (ordered findings))
  obtain ⟨node, first, hentry, -, hfirst, hoffset⟩ := exists_startingAt?
    (starts_of_mem hnodes h.entry (Or.inl rfl))
  obtain ⟨flowing, hflowing, hflowingNodes⟩ := exists_connectBlocks exportId
    fun node block hblock target htarget => by
      have hmem := mem_of_mem_block (List.mem_of_getElem? ((node?_eq_some_iff hnodes).1 hblock))
        block.last_mem
      obtain ⟨hheader, hrecorded⟩ := h.targets _ (mem_of_mem_ordered hmem) target htarget
      exact starts_of_mem hnodes hrecorded (Or.inr hheader)
  obtain ⟨last, hlast, hlastNodes⟩ := exists_connectRegions exportId h
    (hflowingNodes.trans hnodes) (List.Subset.refl regions)
  have hsame := hlastNodes.trans hflowingNodes
  refine ⟨{ exportId, graph := last, entry := node, exits := last.nodeIds.filter (isExit last) },
    ?_, hsame.trans hnodes, first, ?_, hoffset⟩
  · unfold build
    simp only [hsome, Bool.false_eq_true, if_false, hentry]
    exact bind_eq_ok_iff.2 ⟨flowing, hflowing, bind_eq_ok_iff.2 ⟨last, hlast, rfl⟩⟩
  · rw [Digraph.node?, hsame]
    exact hfirst

end Build

end ControlFlowGraph

end KeyedVM
