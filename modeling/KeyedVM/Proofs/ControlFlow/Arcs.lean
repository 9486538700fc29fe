import KeyedVM.Proofs.ControlFlow.Fallthrough

set_option relaxedAutoImplicit false
set_option autoImplicit false

/-!
# All edges of a graph

The list of all edges of a graph has the links of all blocks, and behind them an edge for each
filter and each handler of a region.  The links of a block are the arms of its jump, or the one step
to the block behind it.  Every edge is listed once more at its source.

## Main definitions

* `KeyedVM.ControlFlowGraph.armsFrom` — the arms that leave a block.

## Main results

* `KeyedVM.ControlFlowGraph.arcs_of_build` — where the edges of a graph lead, and which of them lead
  to filters and handlers;
* `KeyedVM.ControlFlowGraph.leaving_of_build` — the edges that leave the end of a block.
-/

namespace KeyedVM

namespace ControlFlowGraph

variable {graph : Digraph Block FlowEdge} {exportId : ExportId} {source node : NodeId}
  {block : Block} {found : List Link}

/-! ## The ends of blocks -/

/-- The arms of a jump are its targets in order, numbered from the given index on, and each leads to
the block that starts at its target. -/
lemma arms_eq_ok {index : Nat} {targets : List Offset}
    (h : arms exportId graph source index targets = .ok found) :
    found.map (·.2.2) = (targets.zipIdx index).map (fun arm => ⟨arm.1, .arm arm.2⟩) ∧
      ∀ link ∈ found, startingAt? graph link.2.2.target = some link.2.1 := by
  induction targets generalizing index found with
  | nil =>
    obtain rfl := Except.ok.inj h
    exact ⟨rfl, fun _ hmem => absurd hmem List.not_mem_nil⟩
  | cons offset rest ih =>
    simp only [arms, bind_eq_ok_iff, pure_eq_ok_iff] at h
    obtain ⟨node, hnode, links, hlinks, rfl⟩ := h
    obtain ⟨hdata, hstart⟩ := ih hlinks
    refine ⟨by rw [List.map_cons, hdata, List.zipIdx_cons, List.map_cons], ?_⟩
    rw [List.forall_mem_cons]
    exact ⟨target_eq_ok_iff.1 hnode, hstart⟩

/-- The links to the targets of a jump are labelled as arms. -/
lemma kind_of_mem_arms {index : Nat} {targets : List Offset}
    (h : arms exportId graph source index targets = .ok found) :
    ∀ link ∈ found, ∃ arm, link.2.2.kind = .arm arm := by
  intro link hmem
  have hlink : link.2.2 ∈ found.map (·.2.2) := List.mem_map_of_mem hmem
  rw [(arms_eq_ok h).1] at hlink
  obtain ⟨arm, -, harm⟩ := List.mem_map.1 hlink
  exact ⟨arm.2, by rw [← harm]⟩

/-- A link leads to the block that starts where it says, and never to a filter or a handler. -/
lemma startingAt?_of_mem_links (h : links exportId graph source block = .ok found) :
    ∀ link ∈ found, startingAt? graph link.2.2.target = some link.2.1 ∧
      link.2.2.kind.isExceptional = false := by
  obtain ⟨-, harms⟩ | ⟨-, rfl | ⟨-, next, hnext, rfl⟩⟩ := links_cases h
  · intro link hmem
    obtain ⟨arm, harm⟩ := kind_of_mem_arms harms link hmem
    exact ⟨(arms_eq_ok harms).2 link hmem, by rw [harm]; rfl⟩
  · exact fun _ hmem => absurd hmem List.not_mem_nil
  · intro link hmem
    rw [List.mem_singleton.1 hmem]
    exact ⟨hnext, rfl⟩

/-! ## Whole graphs -/

section Build

variable {entry : Offset} {findings : List Finding} {headers : Std.ExtTreeSet Offset}
  {regions : List Region} {cfg : ControlFlowGraph}

/-- **All edges of a graph.**  Every edge leaves a block and is listed there, and leads to the block
that starts where it says.  The edges to filters and handlers are those of the regions, in order. -/
theorem arcs_of_build (h : build exportId entry findings headers regions = .ok cfg) :
    (∀ node, cfg.graph.arcsFrom node = cfg.graph.arcs.toList.filter (·.source = node)) ∧
    (∀ arc ∈ cfg.graph.arcs.toList, (∃ block, cfg.graph.node? arc.source = some block) ∧
      startingAt? cfg.graph arc.data.target = some arc.target) ∧
    List.Forall₂ (Rescues cfg.graph) (rescues regions)
      (cfg.graph.arcs.toList.filter (·.data.kind.isExceptional)) := by
  unfold build at h
  split at h
  · cases h
  · dsimp only at h
    split at h
    · cases h
    · obtain ⟨connected, hconnected, h⟩ := bind_eq_ok_iff.1 h
      obtain ⟨guarded, hguarded, h⟩ := bind_eq_ok_iff.1 h
      obtain rfl := pure_eq_ok_iff.1 h
      obtain ⟨pieces, hpieces, hconnect⟩ := bind_eq_ok_iff.1 hconnected
      have hfirst := appends_of_connect (Digraph.linked_ofNodes _) hconnect
      obtain ⟨guarding, hsecond, hrescues⟩ := appends_of_connectRegions hfirst.adds.linked hguarded
      rw [← Rescues.congr hsecond.adds.nodes] at hrescues
      have happends := hfirst.trans hsecond
      obtain ⟨harcs, hleaving⟩ := happends.of_nodes
      have hflowing : ∀ arc ∈ pieces.flatten.map Link.arc,
          startingAt? guarded arc.data.target = some arc.target ∧
            arc.data.kind.isExceptional = false := by
        intro arc hmem
        obtain ⟨link, hlink, rfl⟩ := List.mem_map.1 hmem
        obtain ⟨piece, hpiece, hlink⟩ := List.mem_flatten.1 hlink
        obtain ⟨pair, -, hlinks⟩ := exists_of_mem_mapM hpieces hpiece
        rw [startingAt?_congr happends.adds.nodes]
        exact startingAt?_of_mem_links hlinks link hlink
      have hguarding := Rescues.startingAt?_of_mem hrescues
      refine ⟨hleaving, fun arc hmem => ?_, ?_⟩
      · rw [harcs] at hmem
        have hlt := happends.sources arc hmem
        rw [← happends.nodeCount_eq] at hlt
        refine ⟨⟨_, Array.getElem?_eq_getElem hlt⟩, ?_⟩
        exact (List.mem_append.1 hmem).elim (fun hmem => (hflowing arc hmem).1)
          fun hmem => (hguarding arc hmem).1
      · have hnone : (pieces.flatten.map Link.arc).filter (·.data.kind.isExceptional) = [] := by
          rw [List.filter_eq_nil_iff]
          intro arc hmem
          rw [(hflowing arc hmem).2]
          decide
        rw [harcs, List.filter_append, hnone, List.nil_append,
          List.filter_eq_self.2 fun arc hmem => (hguarding arc hmem).2]
        exact hrescues

/-- The arms that leave a block. -/
def armsFrom (cfg : ControlFlowGraph) (node : NodeId) : List (Arc FlowEdge) :=
  (cfg.graph.arcsFrom node).filter (·.data.kind.arm?.isSome)

/-- **The edges that leave the end of a block.**  A jump has an arm for each of its targets and no
edge to what comes behind it.  Other blocks have no arms, and no edge to what comes behind them if
the path ends there. -/
theorem leaving_of_build (h : build exportId entry findings headers regions = .ok cfg)
    (hblock : cfg.graph.node? node = some block) :
    (block.last.flow ∈ [Flow.jump, .conditionalJump, .switch] ∧
      (cfg.armsFrom node).map (·.data)
        = block.last.targets.zipIdx.map (fun arm => ⟨arm.1, .arm arm.2⟩) ∧
      cfg.fallthroughs node = []) ∨
    (block.last.flow ∉ [Flow.jump, .conditionalJump, .switch] ∧ cfg.armsFrom node = [] ∧
      (cfg.fallthroughs node = [] ∨ block.last.endsPath = false ∧ ∃ next,
        cfg.fallthroughs node = [⟨node, next, ⟨block.stop, .fallthrough⟩⟩])) := by
  obtain ⟨-, harcs⟩ := arcsFrom_of_build h
  obtain ⟨found, exceptional, hlinks, harcs, hexceptional⟩ := harcs node block hblock
  have hleaving : ∀ p : EdgeKind → Bool, (∀ kind, p (.handler kind) = false) →
      (cfg.graph.arcsFrom node).filter (fun arc => p arc.data.kind)
        = (found.map Link.arc).filter fun arc => p arc.data.kind := by
    intro p hp
    rw [harcs, List.filter_append, List.append_right_eq_self, List.filter_eq_nil_iff]
    intro arc harc
    cases hkind : arc.data.kind with
    | handler kind => simp [hp]
    | fallthrough | arm =>
      have hkind := hkind ▸ hexceptional arc harc
      cases hkind
  have harms : cfg.armsFrom node = (found.map Link.arc).filter (·.data.kind.arm?.isSome) :=
    hleaving (·.arm?.isSome) fun _ => rfl
  have hfalls : cfg.fallthroughs node
      = (found.map Link.arc).filter (·.data.kind = .fallthrough) :=
    hleaving (· = .fallthrough) fun _ => rfl
  rw [harms, hfalls]
  obtain ⟨hjump, hfound⟩ | ⟨hjump, rfl | ⟨hpath, next, -, rfl⟩⟩ := links_cases hlinks
  · obtain ⟨hdata, -⟩ := arms_eq_ok hfound
    have hkind : ∀ arc ∈ found.map Link.arc, ∃ index, arc.data.kind = .arm index := by
      intro arc harc
      obtain ⟨link, hlink, rfl⟩ := List.mem_map.1 harc
      exact kind_of_mem_arms hfound link hlink
    refine Or.inl ⟨hjump, ?_, ?_⟩
    · rw [← hdata, List.filter_eq_self.2, List.map_map]
      · rfl
      · intro arc harc
        obtain ⟨index, hindex⟩ := hkind arc harc
        rw [hindex]
        rfl
    · rw [List.filter_eq_nil_iff]
      intro arc harc
      obtain ⟨index, hindex⟩ := hkind arc harc
      simp [hindex]
  · exact Or.inr ⟨hjump, rfl, Or.inl rfl⟩
  · exact Or.inr ⟨hjump, rfl, Or.inr ⟨hpath, next, rfl⟩⟩

end Build

end ControlFlowGraph

end KeyedVM
