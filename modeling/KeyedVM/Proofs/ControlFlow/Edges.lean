import KeyedVM.Proofs.ControlFlow.Building
import Mathlib.Data.List.Nodup

set_option relaxedAutoImplicit false
set_option autoImplicit false

/-!
# The edges of a control flow graph

A graph is built by adding edges to its blocks, first those by which control leaves the ends of
blocks and then those of protected regions.  Edges are never removed, so the edges that leave a
block are exactly those that were added for it: the links of the block, followed by edges to filters
and handlers.  The list of all edges grows at its end.

## Main definitions

* `KeyedVM.Digraph.arcsFrom` — the edges that leave a node;
* `KeyedVM.Digraph.Linked` — the lists of edges fit the graph;
* `KeyedVM.Digraph.Adds` — a graph comes from another one by adding edges;
* `KeyedVM.Digraph.Appends` — and they come behind all edges that were there;
* `KeyedVM.ControlFlowGraph.Rescues` — an edge leads from the opener of a region to one of its
  entries.

## Main results

* `KeyedVM.Digraph.adds_of_addEdge` — adding an edge adds it at its source, and nothing else;
* `KeyedVM.ControlFlowGraph.arcsFrom_of_connectBlocks` — a block gets its own links;
* `KeyedVM.ControlFlowGraph.appends_of_connectRegions` — an edge is added for each filter and each
  handler of a region;
* `KeyedVM.ControlFlowGraph.arcsFrom_of_build` — the edges that leave a block of a graph.
-/

namespace KeyedVM

/-! ## Adding edges -/

namespace Digraph

variable {N E : Type} {graph graph' graph'' : Digraph N E} {added added' : List (Arc E)}

/-- The edges that leave a node, in the order of addition, without their numbers. -/
def arcsFrom (graph : Digraph N E) (node : NodeId) : List (Arc E) :=
  (graph.outgoing node).map (·.2)

/-- The arcs from a node are those that its list of leaving edges names. -/
lemma arcsFrom_eq (graph : Digraph N E) (node : NodeId) :
    graph.arcsFrom node = (graph.leaving[node.index]?.getD []).filterMap graph.arc? := by
  rw [arcsFrom, outgoing, List.map_filterMap]
  congr 1
  funext id
  cases graph.arc? id <;> rfl

/-- The lists of the edges that leave nodes fit the graph: there is one for each node, and it names
edges of the graph. -/
structure Linked (graph : Digraph N E) : Prop where
  size : graph.leaving.size = graph.nodeCount
  lt : ∀ (index : Nat) (ids : List EdgeId), graph.leaving[index]? = some ids →
    ∀ id ∈ ids, id.index < graph.edgeCount

/-- A graph of nodes has no edges. -/
lemma arcs_ofNodes (data : List N) : (ofNodes data : Digraph N E).arcs = #[] := by
  unfold ofNodes
  refine List.foldlRecOn (motive := fun graph : Digraph N E => graph.arcs = #[]) data _ rfl ?_
  intro graph hgraph first _
  exact hgraph

/-- A graph of nodes only has no arcs. -/
lemma arcsFrom_ofNodes (data : List N) (node : NodeId) :
    (ofNodes data : Digraph N E).arcsFrom node = [] := by
  rw [arcsFrom_eq, List.filterMap_eq_nil_iff]
  intro id _
  rw [arc?, arcs_ofNodes]
  rfl

/-- A graph without nodes is linked. -/
lemma linked_empty : ({} : Digraph N E).Linked where
  size := rfl
  lt _ _ hids := by cases hids

/-- A new node has no edges yet. -/
lemma Linked.addNode (h : graph.Linked) (data : N) : (graph.addNode data).2.Linked := by
  refine ⟨?_, ?_⟩
  · simp [Digraph.addNode, nodeCount, h.size]
  · intro index ids hids id hid
    rw [Digraph.addNode, Array.getElem?_push] at hids
    split at hids
    · obtain rfl := Option.some.inj hids
      exact absurd hid List.not_mem_nil
    · exact h.lt index ids hids id hid

/-- A graph of nodes only is linked. -/
lemma linked_ofNodes (data : List N) : (ofNodes data : Digraph N E).Linked := by
  unfold ofNodes
  exact List.foldlRecOn (motive := Linked) data _ linked_empty fun _ hgraph first _ =>
    hgraph.addNode first

/-- A graph comes from another one by adding edges: the nodes stay, and each node gets the added
edges of which it is the source, behind those that it had. -/
structure Adds (graph : Digraph N E) (arcs : List (Arc E)) (graph' : Digraph N E) : Prop where
  linked : graph'.Linked
  nodes : graph'.nodes = graph.nodes
  arcsFrom : ∀ node, graph'.arcsFrom node = graph.arcsFrom node ++ arcs.filter (·.source = node)

/-- A linked graph adds no arcs to itself. -/
lemma Adds.refl (h : graph.Linked) : graph.Adds [] graph := ⟨h, rfl, fun _ => by simp⟩

/-- Arcs that are added one after the other are added together. -/
lemma Adds.trans {arcs arcs' : List (Arc E)} (h : graph.Adds arcs graph')
    (h' : graph'.Adds arcs' graph'') : graph.Adds (arcs ++ arcs') graph'' where
  linked := h'.linked
  nodes := h'.nodes.trans h.nodes
  arcsFrom node := by
    rw [h'.arcsFrom, h.arcsFrom, List.filter_append, List.append_assoc]

/-- The edges that were there keep their numbers when one is added. -/
lemma Linked.filterMap_push (h : graph.Linked) (node : NodeId) (arc : Arc E) :
    (graph.leaving[node.index]?.getD []).filterMap (fun id => (graph.arcs.push arc)[id.index]?)
      = graph.arcsFrom node := by
  rw [arcsFrom_eq]
  cases hids : graph.leaving[node.index]? with
  | none => rfl
  | some ids =>
    refine List.filterMap_congr fun id hid => ?_
    have hlt : id.index < graph.arcs.size := h.lt node.index ids hids id hid
    rw [arc?, Array.getElem?_push_lt hlt, Array.getElem?_eq_getElem hlt]

/-- **Adding an edge adds it at its source**, and nothing else. -/
theorem adds_of_addEdge {source target : NodeId} {data : E} {id : EdgeId} (hlinked : graph.Linked)
    (h : graph.addEdge source target data = .ok (id, graph')) :
    graph.Adds [⟨source, target, data⟩] graph' := by
  unfold addEdge at h
  split at h
  · next hends =>
    obtain ⟨rfl, rfl⟩ := Prod.mk.inj (Except.ok.inj h)
    refine ⟨⟨?_, ?_⟩, rfl, fun node => ?_⟩
    · rw [Array.size_modify]
      exact hlinked.size
    · intro index ids hids id hid
      rw [Array.getElem?_modify] at hids
      rw [edgeCount, Array.size_push]
      split at hids
      · obtain ⟨old, hold, rfl⟩ := Option.map_eq_some_iff.1 hids
        rcases List.mem_append.1 hid with hid | hid
        · exact Nat.lt_succ_of_lt (hlinked.lt index old hold id hid)
        · rw [List.mem_singleton.1 hid]
          exact Nat.lt_succ_self _
      · exact Nat.lt_succ_of_lt (hlinked.lt index ids hids id hid)
    · have hkept := hlinked.filterMap_push node ⟨source, target, data⟩
      rw [arcsFrom_eq, Array.getElem?_modify]
      by_cases hsource : source = node
      · subst hsource
        have hlt : source.index < graph.leaving.size := hlinked.size ▸ hends.1
        rw [Array.getElem?_eq_getElem hlt, Option.getD_some] at hkept
        rw [if_pos rfl, Array.getElem?_eq_getElem hlt, Option.map_some, Option.getD_some,
          List.filterMap_append, ← hkept, List.filter_cons_of_pos (by simp)]
        congr 1
        simp [arc?, edgeCount]
      · have hindex : source.index ≠ node.index := fun hindex => hsource (by
          cases source; cases node; exact congrArg NodeId.mk hindex)
        rw [if_neg hindex, List.filter_cons_of_neg (by simpa using hsource), List.filter_nil,
          List.append_nil, ← hkept]
        rfl
  · cases h

/-- A graph comes from another one by adding edges: they leave nodes of the graph and come behind
all edges that were there. -/
structure Appends (graph : Digraph N E) (added : List (Arc E)) (graph' : Digraph N E) : Prop where
  adds : graph.Adds added graph'
  arcs : graph'.arcs.toList = graph.arcs.toList ++ added
  sources : ∀ arc ∈ added, arc.source.index < graph.nodeCount

/-- Nothing is appended to a linked graph by leaving it alone. -/
lemma Appends.refl (h : graph.Linked) : graph.Appends [] graph where
  adds := .refl h
  arcs := by rw [List.append_nil]
  sources _ hmem := absurd hmem List.not_mem_nil

/-- Appending arcs keeps the number of nodes. -/
lemma Appends.nodeCount_eq (h : graph.Appends added graph') :
    graph'.nodeCount = graph.nodeCount := by
  rw [nodeCount, h.adds.nodes, nodeCount]

/-- Arcs that are appended one after the other are appended together. -/
lemma Appends.trans (h : graph.Appends added graph') (h' : graph'.Appends added' graph'') :
    graph.Appends (added ++ added') graph'' where
  adds := h.adds.trans h'.adds
  arcs := by rw [h'.arcs, h.arcs, List.append_assoc]
  sources arc hmem := by
    rcases List.mem_append.1 hmem with hmem | hmem
    · exact h.sources arc hmem
    · exact h.nodeCount_eq ▸ h'.sources arc hmem

/-- An edge that is added appends its arc. -/
lemma appends_of_addEdge {source target : NodeId} {data : E} {id : EdgeId} (hlinked : graph.Linked)
    (h : graph.addEdge source target data = .ok (id, graph')) :
    graph.Appends [⟨source, target, data⟩] graph' := by
  have hadds := adds_of_addEdge hlinked h
  unfold addEdge at h
  split at h
  · next hends =>
    obtain ⟨-, rfl⟩ := Prod.mk.inj (Except.ok.inj h)
    refine ⟨hadds, Array.toList_push, fun arc hmem => ?_⟩
    rw [List.mem_singleton.1 hmem]
    exact hends.1
  · cases h

/-- What is added to a graph of nodes are all its edges, and those that leave a node are those of
which it is the source. -/
lemma Appends.of_nodes {data : List N} (h : (ofNodes data : Digraph N E).Appends added graph) :
    graph.arcs.toList = added ∧
      ∀ node, graph.arcsFrom node = graph.arcs.toList.filter (·.source = node) := by
  have harcs : graph.arcs.toList = added := by rw [h.arcs, arcs_ofNodes, List.nil_append]
  refine ⟨harcs, fun node => ?_⟩
  rw [h.adds.arcsFrom, arcsFrom_ofNodes, List.nil_append, harcs]

end Digraph

namespace ControlFlowGraph

variable {graph graph' : Digraph Block FlowEdge} {exportId : ExportId}

/-- A link as an edge. -/
def Link.arc (link : Link) : Arc FlowEdge := ⟨link.1, link.2.1, link.2.2⟩

/-- Adding edges one after the other adds all of them. -/
lemma appends_of_connect {links : List Link} (hlinked : graph.Linked)
    (h : connect graph links = .ok graph') : graph.Appends (links.map Link.arc) graph' := by
  induction links generalizing graph with
  | nil =>
    obtain rfl := Except.ok.inj h
    exact .refl hlinked
  | cons link rest ih =>
    obtain ⟨source, node, edge⟩ := link
    obtain ⟨⟨id, joined⟩, hjoined, hrest⟩ := bind_eq_ok_iff.1 h
    have hfirst := Digraph.appends_of_addEdge hlinked hjoined
    exact hfirst.trans (ih hfirst.adds.linked hrest)

/-! ## The ends of blocks -/

/-- The links to the targets of a jump start where the jump is. -/
lemma source_of_mem_arms {source : NodeId} {index : Nat} {targets : List Offset}
    {found : List Link} (h : arms exportId graph source index targets = .ok found) :
    ∀ link ∈ found, link.1 = source := by
  induction targets generalizing index found with
  | nil =>
    obtain rfl := Except.ok.inj h
    exact fun _ hmem => absurd hmem List.not_mem_nil
  | cons offset rest ih =>
    simp only [arms, bind_eq_ok_iff, pure_eq_ok_iff] at h
    obtain ⟨node, -, links, hlinks, rfl⟩ := h
    intro link hmem
    rcases List.mem_cons.1 hmem with rfl | hmem
    · rfl
    · exact ih hlinks link hmem

/-- **The links of a block.**  A jump has an arm for each of its targets.  Other blocks have no link
if the path ends there, and otherwise one to the block that starts behind, if there is one. -/
lemma links_cases {source : NodeId} {block : Block} {found : List Link}
    (h : links exportId graph source block = .ok found) :
    (block.last.flow ∈ [Flow.jump, .conditionalJump, .switch] ∧
      arms exportId graph source 0 block.last.targets = .ok found) ∨
    (block.last.flow ∉ [Flow.jump, .conditionalJump, .switch] ∧
      (found = [] ∨ block.last.endsPath = false ∧ ∃ next,
        startingAt? graph block.stop = some next ∧
        found = [(source, next, ⟨block.stop, .fallthrough⟩)])) := by
  unfold links at h
  split at h
  · next hflow => exact Or.inl ⟨by simp [hflow], h⟩
  · next hflow => exact Or.inl ⟨by simp [hflow], h⟩
  · next hflow => exact Or.inl ⟨by simp [hflow], h⟩
  · next hjump hconditional hswitch =>
    refine Or.inr ⟨by simpa using ⟨hjump, hconditional, hswitch⟩, ?_⟩
    split at h
    · exact Or.inl (Except.ok.inj h).symm
    · next hpath =>
      split at h
      · next next hnext =>
        exact Or.inr ⟨by simpa using hpath, next, hnext, (Except.ok.inj h).symm⟩
      · exact Or.inl (Except.ok.inj h).symm

/-- The links of a block leave that block. -/
lemma source_of_mem_links {source : NodeId} {block : Block} {found : List Link}
    (h : links exportId graph source block = .ok found) : ∀ link ∈ found, link.1 = source := by
  obtain ⟨-, harms⟩ | ⟨-, rfl | ⟨-, next, -, rfl⟩⟩ := links_cases h
  · exact source_of_mem_arms harms
  · exact fun _ hmem => absurd hmem List.not_mem_nil
  · intro link hmem
    rw [List.mem_singleton.1 hmem]

/-- If each piece belongs to a key of its own, then the members of one key are its piece. -/
lemma filter_flatten_eq {pairs : List (NodeId × Block)} {pieces : List (List Link)}
    {fits : NodeId × Block → List Link → Prop} (hpieces : List.Forall₂ fits pairs pieces)
    (hsource : ∀ pair piece, fits pair piece → ∀ link ∈ piece, link.1 = pair.1)
    (hnodup : (pairs.map Prod.fst).Nodup) {pair : NodeId × Block} (hmem : pair ∈ pairs) :
    ∃ piece, fits pair piece ∧ pieces.flatten.filter (·.1 = pair.1) = piece := by
  have hother : ∀ {pairs : List (NodeId × Block)} {pieces : List (List Link)},
      List.Forall₂ fits pairs pieces → pair.1 ∉ pairs.map Prod.fst →
        pieces.flatten.filter (·.1 = pair.1) = [] := by
    intro pairs pieces hpieces hnone
    induction hpieces with
    | nil => rfl
    | cons hfits _ ih =>
      rw [List.map_cons, List.mem_cons, not_or] at hnone
      rw [List.flatten_cons, List.filter_append, ih hnone.2, List.append_nil,
        List.filter_eq_nil_iff]
      intro link hlink
      rw [hsource _ _ hfits link hlink, decide_eq_true_eq]
      exact Ne.symm hnone.1
  induction hpieces with
  | nil => exact absurd hmem List.not_mem_nil
  | @cons first piece rest pieces hfits hrest ih =>
    rw [List.map_cons, List.nodup_cons] at hnodup
    rw [List.flatten_cons, List.filter_append]
    rcases List.mem_cons.1 hmem with rfl | hmem
    · refine ⟨piece, hfits, ?_⟩
      rw [hother hrest hnodup.1, List.append_nil, List.filter_eq_self]
      intro link hlink
      rw [decide_eq_true_eq]
      exact hsource _ _ hfits link hlink
    · have hne : first.1 ≠ pair.1 := fun heq => hnodup.1 (heq ▸ List.mem_map_of_mem hmem)
      have hnone : piece.filter (·.1 = pair.1) = [] := by
        rw [List.filter_eq_nil_iff]
        intro link hlink
        rw [hsource _ _ hfits link hlink, decide_eq_true_eq]
        exact hne
      rw [hnone, List.nil_append]
      exact ih hnodup.2 hmem

/-- The blocks of a graph are listed with their numbers. -/
lemma mem_zip_of_node? {node : NodeId} {block : Block} (h : graph.node? node = some block) :
    (node, block) ∈ graph.nodeIds.zip graph.nodes.toList := by
  have hlt : node.index < graph.nodeCount := (Array.getElem?_eq_some_iff.1 h).1
  refine List.mem_iff_getElem?.2 ⟨node.index, List.getElem?_zip_eq_some.2 ⟨?_, ?_⟩⟩
  · rw [Digraph.nodeIds, List.getElem?_map, List.getElem?_range hlt]
    rfl
  · rw [Array.getElem?_toList]
    exact h

/-- **A block gets its own links**: what is added at the end of a block are the links that were
found for it. -/
theorem arcsFrom_of_connectBlocks (hlinked : graph.Linked)
    (h : connectBlocks exportId graph = .ok graph') :
    graph'.Linked ∧ graph'.nodes = graph.nodes ∧
      ∀ node block, graph.node? node = some block → ∃ found,
        links exportId graph node block = .ok found ∧
        graph'.arcsFrom node = graph.arcsFrom node ++ found.map Link.arc := by
  obtain ⟨pieces, hpieces, hconnect⟩ := bind_eq_ok_iff.1 h
  have hadds := (appends_of_connect hlinked hconnect).adds
  refine ⟨hadds.linked, hadds.nodes, fun node block hblock => ?_⟩
  have hnodup : ((graph.nodeIds.zip graph.nodes.toList).map Prod.fst).Nodup := by
    rw [List.map_fst_zip (by simp [Digraph.nodeIds, Digraph.nodeCount]), Digraph.nodeIds]
    exact List.Nodup.map (fun a b hab => NodeId.mk.inj hab) List.nodup_range
  obtain ⟨found, hfound, hfilter⟩ := filter_flatten_eq (mapM_eq_ok_iff.1 hpieces)
    (fun pair piece hpiece => source_of_mem_links hpiece) hnodup (mem_zip_of_node? hblock)
  refine ⟨found, hfound, ?_⟩
  rw [hadds.arcsFrom, List.filter_map, ← hfilter]
  rfl

/-! ## Protected regions -/

/-- The target of a link is the node whose block starts at the offset. -/
lemma target_eq_ok_iff {role : TargetRole} {offset : Offset} {node : NodeId} :
    target exportId graph role offset = .ok node ↔ startingAt? graph offset = some node := by
  unfold target
  cases startingAt? graph offset <;> simp

/-- The filters and handlers of regions, each with its region. -/
def rescues (regions : List Region) : List (Region × Offset) :=
  regions.flatMap fun region => region.entries.map (region, ·)

/-- An edge leads from the block that holds the opener of a region to the block that starts at a
filter or handler of the region. -/
structure Rescues (graph : Digraph Block FlowEdge) (rescue : Region × Offset)
    (arc : Arc FlowEdge) : Prop where
  data : arc.data = ⟨rescue.2, .handler rescue.1.kind⟩
  source : holding? graph rescue.1.opener = some arc.source
  target : startingAt? graph rescue.2 = some arc.target

/-- Which node starts at an offset depends on the nodes only. -/
lemma startingAt?_congr (h : graph'.nodes = graph.nodes) (offset : Offset) :
    startingAt? graph' offset = startingAt? graph offset := by
  rw [startingAt?, h, startingAt?]

/-- Which node holds an offset depends on the nodes only. -/
lemma holding?_congr (h : graph'.nodes = graph.nodes) (offset : Offset) :
    holding? graph' offset = holding? graph offset := by
  simp only [holding?, Digraph.nodeIds, Digraph.nodeCount, Digraph.node?, h]

/-- Which arcs lead to a filter or handler depends on the nodes only. -/
lemma Rescues.congr (h : graph'.nodes = graph.nodes) :
    Rescues graph' = Rescues graph := by
  funext rescue arc
  refine propext ⟨fun hrescues => ?_, fun hrescues => ?_⟩
  · exact ⟨hrescues.data, holding?_congr h _ ▸ hrescues.source,
      startingAt?_congr h _ ▸ hrescues.target⟩
  · exact ⟨hrescues.data, (holding?_congr h _).trans hrescues.source,
      (startingAt?_congr h _).trans hrescues.target⟩

/-- Such edges lead to the block that starts where they say. -/
lemma Rescues.startingAt?_of_mem {guarded : List (Region × Offset)} {arcs : List (Arc FlowEdge)}
    (h : List.Forall₂ (Rescues graph) guarded arcs) :
    ∀ arc ∈ arcs, startingAt? graph arc.data.target = some arc.target ∧
      arc.data.kind.isExceptional = true := by
  induction h with
  | nil => exact fun _ hmem => absurd hmem List.not_mem_nil
  | cons hfirst _ ih =>
    rw [List.forall_mem_cons, hfirst.data]
    exact ⟨⟨hfirst.target, rfl⟩, ih⟩

/-- A region adds an edge to its filter, if it has one, and one to its handler. -/
lemma appends_of_connectRegion {region : Region} (hlinked : graph.Linked)
    (h : connectRegion exportId graph region = .ok graph') :
    ∃ arcs, graph.Appends arcs graph' ∧
      List.Forall₂ (Rescues graph) (region.entries.map (region, ·)) arcs := by
  unfold connectRegion at h
  split at h
  · cases h
  · next source hsource =>
    obtain ⟨found, hfound, hconnect⟩ := bind_eq_ok_iff.1 h
    refine ⟨_, appends_of_connect hlinked hconnect, ?_⟩
    rw [List.forall₂_map_left_iff, List.forall₂_map_right_iff]
    refine (mapM_eq_ok_iff.1 hfound).imp fun offset link hlink => ?_
    obtain ⟨node, hnode, hlink⟩ := bind_eq_ok_iff.1 hlink
    obtain rfl := pure_eq_ok_iff.1 hlink
    exact ⟨rfl, hsource, target_eq_ok_iff.1 hnode⟩

/-- Connecting the regions appends one arc for every filter and handler, in their order. -/
lemma appends_of_connectRegions {regions : List Region} (hlinked : graph.Linked)
    (h : connectRegions exportId graph regions = .ok graph') :
    ∃ arcs, graph.Appends arcs graph' ∧
      List.Forall₂ (Rescues graph) (rescues regions) arcs := by
  induction regions generalizing graph with
  | nil =>
    obtain rfl := Except.ok.inj h
    exact ⟨[], .refl hlinked, .nil⟩
  | cons region rest ih =>
    obtain ⟨joined, hjoined, hrest⟩ := bind_eq_ok_iff.1 h
    obtain ⟨arcs, happends, harcs⟩ := appends_of_connectRegion hlinked hjoined
    obtain ⟨arcs', happends', harcs'⟩ := ih happends.adds.linked hrest
    rw [Rescues.congr happends.adds.nodes] at harcs'
    exact ⟨arcs ++ arcs', happends.trans happends', List.rel_append harcs harcs'⟩

/-! ## Whole graphs -/

section Build

variable {entry : Offset} {findings : List Finding} {headers : Std.ExtTreeSet Offset}
  {regions : List Region} {cfg : ControlFlowGraph}

/-- **The edges that leave a block of a graph** are its links, followed by edges to filters and
handlers. -/
theorem arcsFrom_of_build (h : build exportId entry findings headers regions = .ok cfg) :
    cfg.graph.nodes = (KeyedVM.blocks entry headers (ordered findings)).toArray ∧
      ∀ node block, cfg.graph.node? node = some block → ∃ found exceptional,
        links exportId (.ofNodes (KeyedVM.blocks entry headers (ordered findings))) node block
          = .ok found ∧
        cfg.graph.arcsFrom node = found.map Link.arc ++ exceptional ∧
        ∀ arc ∈ exceptional, arc.data.kind.isExceptional = true := by
  unfold build at h
  split at h
  · cases h
  · dsimp only at h
    split at h
    · cases h
    · obtain ⟨flowing, hflowing, h⟩ := bind_eq_ok_iff.1 h
      obtain ⟨guarded, hguarded, h⟩ := bind_eq_ok_iff.1 h
      obtain rfl := pure_eq_ok_iff.1 h
      obtain ⟨hlinked, hnodes, hfound⟩ :=
        arcsFrom_of_connectBlocks (Digraph.linked_ofNodes _) hflowing
      obtain ⟨arcs, happends, hrescues⟩ := appends_of_connectRegions hlinked hguarded
      have hsame := happends.adds.nodes.trans hnodes
      refine ⟨hsame.trans (Digraph.nodes_ofNodes _), fun node block hblock => ?_⟩
      rw [Digraph.node?, hsame] at hblock
      obtain ⟨found, hlinks, hends⟩ := hfound node block hblock
      refine ⟨found, arcs.filter (·.source = node), hlinks, ?_, fun arc harc => ?_⟩
      · rw [happends.adds.arcsFrom, hends, Digraph.arcsFrom_ofNodes, List.nil_append]
      · exact (Rescues.startingAt?_of_mem hrescues arc (List.mem_filter.1 harc).1).2

end Build

end ControlFlowGraph

end KeyedVM
