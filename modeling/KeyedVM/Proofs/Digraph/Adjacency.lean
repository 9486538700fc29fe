import KeyedVM.Proofs.Digraph.Grown
import Mathlib.Algebra.BigOperators.Group.List.Basic
import Mathlib.Algebra.Ring.Nat

set_option relaxedAutoImplicit false
set_option autoImplicit false

/-!
# Edges at their ends

A graph keeps its edges in three places: all of them in one list, and the number of each edge at its
source and at its target.  Whatever nodes and edges are asked for, the three say the same.  The
edges at a node are the edges of the list that have their end there, in the same order, so an edge
that is a way out of one node is a way into another one as often as it was added.

The sources and the targets are alike: the lists at the nodes index the edges by one of their ends.
All that is shown of them is shown for any choice of an end.

## Main definitions

* `KeyedVM.Digraph.Request`, `KeyedVM.Digraph.Reply` — what a graph is asked for, and its answers;
* `KeyedVM.Digraph.serveAll` — requests one after the other, those that are refused among them;
* `KeyedVM.Digraph.IndexedBy` — lists of numbers at the nodes index some edges by one of their ends;
* `KeyedVM.Digraph.Records` — what a graph has kept of the requests;
* `KeyedVM.Digraph.Mirrors` — the edges at the nodes say what the list of edges says.

## Main results

* `KeyedVM.Digraph.IndexedBy.push_nil`, `KeyedVM.Digraph.IndexedBy.push` — a new node and a new edge
  keep an index;
* `KeyedVM.Digraph.Grown.outgoing_eq`, `KeyedVM.Digraph.Grown.incoming_eq` — the edges at a node;
* `KeyedVM.Digraph.serveAll_mirrors` — after any requests.
-/

namespace KeyedVM.Digraph

variable {N E : Type} {graph graph' : Digraph N E} {node source target : NodeId}

/-! ## Numbered edges -/

/-- Edges with their numbers. -/
def numbered (arcs : Array (Arc E)) : List (EdgeId × Arc E) :=
  arcs.toList.zipIdx.map fun (arc, index) => (⟨index⟩, arc)

/-- A new edge gets the next number. -/
lemma numbered_push (arcs : Array (Arc E)) (arc : Arc E) :
    numbered (arcs.push arc) = numbered arcs ++ [(⟨arcs.size⟩, arc)] := by
  simp [numbered, List.zipIdx_append]

/-- An edge has a number exactly if it stands at this place. -/
lemma mem_numbered_iff {arcs : Array (Arc E)} {id : EdgeId} {arc : Arc E} :
    (id, arc) ∈ numbered arcs ↔ arcs[id.index]? = some arc := by
  simp only [numbered, List.mem_map, Prod.exists, List.mk_mem_zipIdx_iff_getElem?, Prod.mk.injEq,
    Array.getElem?_toList]
  constructor
  · rintro ⟨_, _, harc, rfl, rfl⟩
    exact harc
  · intro harc
    exact ⟨arc, id.index, harc, rfl, rfl⟩

/-- Without their numbers, the numbered edges are the edges. -/
lemma map_snd_numbered (arcs : Array (Arc E)) : (numbered arcs).map (·.2) = arcs.toList := by
  rw [numbered, List.map_map]
  exact List.zipIdx_map_fst 0 arcs.toList

/-- The numbers of edges increase. -/
lemma pairwise_numbered (arcs : Array (Arc E)) :
    (numbered arcs).Pairwise fun first second => first.1.index < second.1.index := by
  have hindices : (arcs.toList.zipIdx.map Prod.snd).Pairwise (· < ·) := by
    rw [List.zipIdx_map_snd]
    exact List.pairwise_lt_range'
  rw [numbered, List.pairwise_map]
  exact List.pairwise_map.1 hindices

/-! ## Indexing edges by an end -/

/-- Lists of numbers, one for each node, index edges by one of their ends. -/
def IndexedBy (endOf : Arc E → NodeId) (arcs : Array (Arc E)) (lists : Array (List EdgeId)) :
    Prop :=
  ∀ node : NodeId, lists[node.index]?.getD []
    = ((numbered arcs).filter (endOf ·.2 = node)).map (·.1)

namespace IndexedBy

variable {endOf : Arc E → NodeId} {arcs : Array (Arc E)} {lists : Array (List EdgeId)}

/-- A new node has no edges yet. -/
lemma push_nil (h : IndexedBy endOf arcs lists) : IndexedBy endOf arcs (lists.push []) := by
  intro node
  rw [← h node, Array.getElem?_push]
  split
  · next hindex => simp [hindex]
  · rfl

/-- A new edge is added behind the others at its end. -/
lemma push (h : IndexedBy endOf arcs lists) {arc : Arc E} (hlt : (endOf arc).index < lists.size) :
    IndexedBy endOf (arcs.push arc)
      (lists.modify (endOf arc).index (· ++ [⟨arcs.size⟩])) := by
  intro node
  have hold := h node
  rw [numbered_push, List.filter_append, List.map_append, ← hold, Array.getElem?_modify]
  by_cases hend : endOf arc = node
  · subst hend
    simp [hlt]
  · have hindex : (endOf arc).index ≠ node.index := fun hindex => hend (by
      cases hnode : endOf arc
      cases node
      simp_all)
    simp [hend, hindex]

/-- Every number in an index is that of an edge, so following the numbers gives the edges that have
their end at the node. -/
lemma filterMap_eq (h : IndexedBy endOf arcs lists) (node : NodeId) :
    (lists[node.index]?.getD []).filterMap (fun id => arcs[id.index]?.map (id, ·))
      = (numbered arcs).filter (endOf ·.2 = node) := by
  rw [h node, List.filterMap_map]
  calc ((numbered arcs).filter (endOf ·.2 = node)).filterMap _
      = ((numbered arcs).filter (endOf ·.2 = node)).filterMap some := by
        apply List.filterMap_congr
        intro (id, arc) hmem
        have harc := mem_numbered_iff.1 (List.mem_filter.1 hmem).1
        simp [harc]
    _ = _ := List.filterMap_some

end IndexedBy

/-- The lists at the nodes index the edges by their sources and by their targets. -/
structure Indexed (graph : Digraph N E) : Prop where
  leaving : IndexedBy Arc.source graph.arcs graph.leaving
  entering : IndexedBy Arc.target graph.arcs graph.entering
  size_leaving : graph.leaving.size = graph.nodeCount
  size_entering : graph.entering.size = graph.nodeCount

/-- A new node has no edges, so the lists still index them. -/
lemma Indexed.addNode (h : graph.Indexed) (data : N) : (graph.addNode data).2.Indexed where
  leaving := h.leaving.push_nil
  entering := h.entering.push_nil
  size_leaving := by simp [Digraph.addNode, nodeCount, h.size_leaving]
  size_entering := by simp [Digraph.addNode, nodeCount, h.size_entering]

/-- An edge that is added is entered in the list of its source and in that of its target. -/
lemma Indexed.addEdge {data : E} {id : EdgeId} (h : graph.Indexed)
    (hadd : graph.addEdge source target data = .ok (id, graph')) : graph'.Indexed := by
  unfold Digraph.addEdge at hadd
  split at hadd
  · next hends =>
    obtain ⟨-, rfl⟩ := Prod.mk.inj (Except.ok.inj hadd)
    refine ⟨?_, ?_, ?_, ?_⟩
    · exact h.leaving.push (h.size_leaving ▸ hends.1)
    · exact h.entering.push (h.size_entering ▸ hends.2)
    · rw [Array.size_modify]
      exact h.size_leaving
    · rw [Array.size_modify]
      exact h.size_entering
  · cases hadd

/-- Every graph that was grown is indexed. -/
lemma Grown.indexed (h : graph.Grown) : graph.Indexed := by
  induction h with
  | empty => exact ⟨fun _ => rfl, fun _ => rfl, rfl, rfl⟩
  | addNode data _ ih => exact ih.addNode data
  | addEdge _ hadd ih => exact ih.addEdge hadd

/-- **The edges that leave a node** are the edges of which it is the source, in their order. -/
theorem Grown.outgoing_eq (h : graph.Grown) (node : NodeId) :
    graph.outgoing node = (numbered graph.arcs).filter (·.2.source = node) :=
  h.indexed.leaving.filterMap_eq node

/-- **The edges that enter a node** are the edges of which it is the target, in their order. -/
theorem Grown.incoming_eq (h : graph.Grown) (node : NodeId) :
    graph.incoming node = (numbered graph.arcs).filter (·.2.target = node) :=
  h.indexed.entering.filterMap_eq node

/-! ## Counting edges -/

/-- The number of edges from one node to another. -/
def edgesBetween (graph : Digraph N E) (source target : NodeId) : Nat :=
  graph.arcs.toList.countP fun arc => arc.source = source ∧ arc.target = target

/-- Among the edges that have one end at a node, a node is the other end as often as there are edges
with these two ends. -/
lemma count_ends (endOf otherOf : Arc E → NodeId) (arcs : Array (Arc E)) (node other : NodeId) :
    (((numbered arcs).filter (endOf ·.2 = node)).map (otherOf ·.2)).count other
      = arcs.toList.countP fun arc => endOf arc = node ∧ otherOf arc = other := by
  rw [List.count_eq_countP, List.countP_map, List.countP_filter, ← map_snd_numbered,
    List.countP_map]
  apply List.countP_congr
  intro edge _
  simp [and_comm]

/-- A node is a successor as often as there are edges to it. -/
lemma Grown.count_successors (h : graph.Grown) (source target : NodeId) :
    (graph.successors source).count target = graph.edgesBetween source target := by
  rw [successors, h.outgoing_eq]
  exact count_ends Arc.source Arc.target graph.arcs source target

/-- A node is a predecessor as often as there are edges from it. -/
lemma Grown.count_predecessors (h : graph.Grown) (source target : NodeId) :
    (graph.predecessors target).count source = graph.edgesBetween source target := by
  rw [predecessors, h.incoming_eq]
  refine (count_ends Arc.target Arc.source graph.arcs target source).trans ?_
  apply List.countP_congr
  intro arc _
  simp [and_comm]

/-- Things that each belong to one of some nodes, counted node by node.

**Proof sketch.** Induction on the things.  One more of them counts at its own node and at no
other. -/
lemma sum_countP_eq_length {α : Type} (nodeOf : α → NodeId) {nodes : List NodeId}
    (hnodup : nodes.Nodup) {things : List α} (h : ∀ a ∈ things, nodeOf a ∈ nodes) :
    (nodes.map fun node => things.countP (nodeOf · = node)).sum = things.length := by
  induction things with
  | nil => simp
  | cons a things ih =>
    have hone : (nodes.map fun node => if nodeOf a = node then 1 else 0).sum = 1 := by
      rw [List.sum_map_eq_nsmul_single (nodeOf a)]
      · simp [List.count_eq_one_of_mem hnodup (h a List.mem_cons_self)]
      · intro other hother _
        exact if_neg (Ne.symm hother)
    have hrest := ih fun b hb => h b (List.mem_cons_of_mem _ hb)
    simp only [List.countP_cons, decide_eq_true_eq, List.sum_map_add, hone, hrest,
      List.length_cons]

/-- The number of edges that leave a node, counted in the list of edges. -/
lemma Grown.outDegree_eq (h : graph.Grown) (node : NodeId) :
    graph.outDegree node = graph.arcs.toList.countP (·.source = node) := by
  rw [outDegree, h.indexed.leaving, List.length_map, ← List.countP_eq_length_filter,
    ← map_snd_numbered, List.countP_map]
  rfl

/-- **Every edge leaves one node.** -/
theorem Grown.sum_outDegree (h : graph.Grown) :
    (graph.nodeIds.map graph.outDegree).sum = graph.edgeCount := by
  have hdegrees : graph.nodeIds.map graph.outDegree
      = graph.nodeIds.map fun node => graph.arcs.toList.countP (·.source = node) :=
    List.map_congr_left fun node _ => h.outDegree_eq node
  rw [hdegrees, sum_countP_eq_length Arc.source (nodup_nodeIds graph) fun arc harc =>
    mem_nodeIds.2 (h.consistent.ends arc harc).1]
  exact Array.length_toList

/-! ## Requests -/

/-- What a graph is asked for. -/
inductive Request (N E : Type) where
  | node (data : N)
  | edge (source target : NodeId) (data : E)

/-- What a graph answers. -/
inductive Reply where
  | node (id : NodeId)
  | edge (id : EdgeId)
  | refused (error : Error)

/-- The data of a node that is asked for. -/
def Request.node? : Request N E → Option N
  | .node data => some data
  | .edge _ _ _ => none

/-- The edge that is asked for. -/
def Request.arc? : Request N E → Option (Arc E)
  | .node _ => none
  | .edge source target data => some ⟨source, target, data⟩

/-- The number of a node that was added. -/
def Reply.node? : Reply → Option NodeId
  | .node id => some id
  | .edge _ | .refused _ => none

/-- The number of an edge that was added. -/
def Reply.edge? : Reply → Option EdgeId
  | .edge id => some id
  | .node _ | .refused _ => none

/-- The edge that was asked for, if it was added. -/
def added? : Request N E × Reply → Option (Arc E)
  | (request, reply) => reply.edge?.bind fun _ => request.arc?

/-- Answers a request.  A request that is refused leaves the graph as it was. -/
def serve (graph : Digraph N E) : Request N E → Reply × Digraph N E
  | .node data =>
    let (id, graph) := graph.addNode data
    (.node id, graph)
  | .edge source target data =>
    match graph.addEdge source target data with
    | .ok (id, graph) => (.edge id, graph)
    | .error error => (.refused error, graph)

/-- Answers requests one after the other. -/
def serveAll (graph : Digraph N E) : List (Request N E) → List Reply × Digraph N E
  | [] => ([], graph)
  | request :: rest =>
    let (reply, graph) := graph.serve request
    let (replies, graph) := graph.serveAll rest
    (reply :: replies, graph)

/-- The numbers of all edges, in their order. -/
def edgeIds (graph : Digraph N E) : List EdgeId := (List.range graph.edgeCount).map .mk

/-- What a graph has kept of requests that were answered: the numbers of nodes and of edges go on
where they were, and so do the lists of nodes and of edges. -/
structure Records (graph : Digraph N E) (requests : List (Request N E)) (replies : List Reply)
    (last : Digraph N E) : Prop where
  nodeIds : last.nodeIds = graph.nodeIds ++ replies.filterMap Reply.node?
  edgeIds : last.edgeIds = graph.edgeIds ++ replies.filterMap Reply.edge?
  nodes : last.nodes.toList = graph.nodes.toList ++ requests.filterMap Request.node?
  arcs : last.arcs.toList
    = graph.arcs.toList ++ (requests.zip replies).filterMap added?

/-- **What one request can do.**  A node is always added; an edge is added between nodes of the
graph, and refused otherwise. -/
lemma serve_cases (graph : Digraph N E) (request : Request N E) :
    (∃ data, request = .node data ∧
      graph.serve request = (.node ⟨graph.nodeCount⟩, (graph.addNode data).2)) ∨
    (∃ source target data graph', request = .edge source target data ∧
      (source.index < graph.nodeCount ∧ target.index < graph.nodeCount) ∧
      graph.addEdge source target data = .ok (⟨graph.edgeCount⟩, graph') ∧
      graph.serve request = (.edge ⟨graph.edgeCount⟩, graph')) ∨
    (∃ source target data error, request = .edge source target data ∧
      ¬ (source.index < graph.nodeCount ∧ target.index < graph.nodeCount) ∧
      graph.serve request = (.refused error, graph)) := by
  cases request with
  | node data => exact Or.inl ⟨data, rfl, rfl⟩
  | edge source target data =>
    by_cases hends : source.index < graph.nodeCount ∧ target.index < graph.nodeCount
    · have hadd : ∃ graph', graph.addEdge source target data
          = .ok (⟨graph.edgeCount⟩, graph') := by
        rw [addEdge, if_pos hends]
        exact ⟨_, rfl⟩
      obtain ⟨graph', hadd⟩ := hadd
      refine Or.inr (Or.inl ⟨source, target, data, graph', rfl, hends, hadd, ?_⟩)
      rw [serve, hadd]
    · have hadd : graph.addEdge source target data
          = .error (.graph (.missingNode source.index target.index)) := if_neg hends
      exact Or.inr (Or.inr ⟨source, target, data, _, rfl, hends, by rw [serve, hadd]⟩)

/-- A graph that serves a request is still grown. -/
lemma Grown.serve (h : graph.Grown) (request : Request N E) : (graph.serve request).2.Grown := by
  obtain ⟨data, -, hserve⟩ | ⟨_, _, _, _, -, -, hadd, hserve⟩ | ⟨_, _, _, _, -, -, hserve⟩ :=
    serve_cases graph request
  · rw [hserve]
    exact h.addNode data
  · rw [hserve]
    exact h.addEdge hadd
  · rw [hserve]
    exact h

/-- A graph that serves requests is still grown. -/
lemma Grown.serveAll (h : graph.Grown) (requests : List (Request N E)) :
    (graph.serveAll requests).2.Grown := by
  induction requests generalizing graph with
  | nil => exact h
  | cons request rest ih => exact ih (h.serve request)

/-- One request is recorded. -/
lemma Grown.records_serve (h : graph.Grown) (request : Request N E) :
    graph.Records [request] [(graph.serve request).1] (graph.serve request).2 := by
  obtain ⟨data, rfl, hserve⟩ | ⟨_, _, _, _, rfl, -, hadd, hserve⟩ | ⟨_, _, _, _, rfl, -, hserve⟩ :=
    serve_cases graph request
  · rw [hserve]
    constructor <;>
      simp [Digraph.nodeIds, Digraph.edgeIds, nodeCount, edgeCount, Digraph.addNode,
        List.range_succ, Reply.node?, Reply.edge?, Request.node?, added?]
  · have happends := appends_of_addEdge h.consistent.linked hadd
    have hedges := congrArg List.length happends.arcs
    rw [List.length_append, Array.length_toList, Array.length_toList] at hedges
    rw [hserve]
    constructor
    · simp [nodeIds, happends.nodeCount_eq, Reply.node?]
    · simp [edgeIds, edgeCount, hedges, List.range_succ, Reply.edge?]
    · simp [happends.adds.nodes, Request.node?]
    · simp [happends.arcs, added?, Reply.edge?, Request.arc?]
  · rw [hserve]
    constructor <;> simp [Reply.node?, Reply.edge?, Request.node?, added?]

/-- What is recorded of the first request and of the others is recorded of all of them. -/
lemma Records.cons {request : Request N E} {reply : Reply} {requests : List (Request N E)}
    {replies : List Reply} {last : Digraph N E} (hfirst : graph.Records [request] [reply] graph')
    (hrest : graph'.Records requests replies last) :
    graph.Records (request :: requests) (reply :: replies) last := by
  constructor
  · rw [hrest.nodeIds, hfirst.nodeIds, List.append_assoc, ← List.filterMap_append]
    rfl
  · rw [hrest.edgeIds, hfirst.edgeIds, List.append_assoc, ← List.filterMap_append]
    rfl
  · rw [hrest.nodes, hfirst.nodes, List.append_assoc, ← List.filterMap_append]
    rfl
  · rw [hrest.arcs, hfirst.arcs, List.append_assoc, ← List.filterMap_append]
    rfl

/-- All requests are recorded. -/
lemma Grown.records_serveAll (h : graph.Grown) (requests : List (Request N E)) :
    graph.Records requests (graph.serveAll requests).1 (graph.serveAll requests).2 := by
  induction requests generalizing graph with
  | nil => constructor <;> simp [Digraph.serveAll]
  | cons request rest ih => exact (h.records_serve request).cons (ih (h.serve request))

/-! ## What the edges at the nodes say -/

/-- The edges at the nodes of a graph say what its list of edges says. -/
structure Mirrors (graph : Digraph N E) : Prop where
  /-- Every number at a node is that of an edge. -/
  leaving : ∀ node, (graph.outgoing node).map (·.1) = graph.leaving[node.index]?.getD []
  entering : ∀ node, (graph.incoming node).map (·.1) = graph.entering[node.index]?.getD []
  mem_outgoing : ∀ node id arc,
    (id, arc) ∈ graph.outgoing node ↔ graph.arc? id = some arc ∧ arc.source = node
  mem_incoming : ∀ node id arc,
    (id, arc) ∈ graph.incoming node ↔ graph.arc? id = some arc ∧ arc.target = node
  /-- The numbers ascend, so there is none twice. -/
  outgoing_ascends : ∀ node,
    (graph.outgoing node).Pairwise fun first second => first.1.index < second.1.index
  incoming_ascends : ∀ node,
    (graph.incoming node).Pairwise fun first second => first.1.index < second.1.index
  count_eq : ∀ source target,
    (graph.successors source).count target = (graph.predecessors target).count source
  count_edges : ∀ source target,
    (graph.successors source).count target = graph.edgesBetween source target
  degrees : (graph.nodeIds.map graph.outDegree).sum = graph.edgeCount

/-- **In every graph that was grown, the edges at the nodes say what the list of edges says.** -/
theorem Grown.mirrors (h : graph.Grown) : graph.Mirrors where
  leaving node := by rw [h.outgoing_eq, h.indexed.leaving]
  entering node := by rw [h.incoming_eq, h.indexed.entering]
  mem_outgoing node id arc := by
    rw [h.outgoing_eq, List.mem_filter, mem_numbered_iff, decide_eq_true_eq]
    rfl
  mem_incoming node id arc := by
    rw [h.incoming_eq, List.mem_filter, mem_numbered_iff, decide_eq_true_eq]
    rfl
  outgoing_ascends node := by
    rw [h.outgoing_eq]
    exact (pairwise_numbered graph.arcs).filter _
  incoming_ascends node := by
    rw [h.incoming_eq]
    exact (pairwise_numbered graph.arcs).filter _
  count_eq source target := by rw [h.count_successors, h.count_predecessors]
  count_edges := h.count_successors
  degrees := h.sum_outDegree

/-- A node is unknown exactly if its index is not below the number of nodes. -/
lemma node?_eq_none_iff : graph.node? node = none ↔ ¬ node.index < graph.nodeCount := by
  rw [node?, Array.getElem?_eq_none_iff, nodeCount, Nat.not_lt]

/-- **After any requests the edges at the nodes say what the list of edges says.**  Ask an empty
graph for any nodes and edges, in any order.  Only an edge can be refused, and it is refused exactly
if one of its ends does not exist; the graph is then as it was.  The nodes that were added are
numbered from zero on without gaps, in the order of the requests, and so are the edges; the graph
lists what was added in the same order.  At each node stand the edges that have it as their source,
and those that have it as their target, each once and ascending.  So one node is a successor of
another one as often as the other is a predecessor of it, as many times as there are edges between
them, and every edge is counted once in the degrees of the nodes. -/
theorem serveAll_mirrors (requests : List (Request N E)) :
    let session := ({} : Digraph N E).serveAll requests
    let graph := session.2
    (∀ request, (∃ error, (graph.serve request).1 = .refused error) ↔
      ∃ source target data, request = .edge source target data ∧
        (graph.node? source = none ∨ graph.node? target = none)) ∧
    (∀ request error, (graph.serve request).1 = .refused error →
      (graph.serve request).2 = graph) ∧
    session.1.filterMap Reply.node? = graph.nodeIds ∧
    session.1.filterMap Reply.edge? = graph.edgeIds ∧
    graph.nodes.toList = requests.filterMap Request.node? ∧
    graph.arcs.toList = (requests.zip session.1).filterMap added? ∧
    graph.Mirrors := by
  intro session graph
  have hgrown : graph.Grown := Grown.empty.serveAll requests
  have hrecords := Grown.empty.records_serveAll requests
  refine ⟨fun request => ?_, fun request error hrefused => ?_, hrecords.nodeIds.symm,
    hrecords.edgeIds.symm, hrecords.nodes, hrecords.arcs, hgrown.mirrors⟩
  · simp only [node?_eq_none_iff, ← not_and_or]
    obtain ⟨_, rfl, hserve⟩ | ⟨_, _, _, _, rfl, hends, -, hserve⟩ |
      ⟨source, target, data, error, rfl, hends, hserve⟩ := serve_cases graph request
    · simp [hserve]
    · simp only [hserve, reduceCtorEq, exists_false, false_iff]
      rintro ⟨_, _, _, hsame, hmissing⟩
      obtain ⟨rfl, rfl, rfl⟩ := Request.edge.inj hsame
      exact hmissing hends
    · simp only [hserve, Reply.refused.injEq, exists_eq', true_iff]
      exact ⟨source, target, data, rfl, hends⟩
  · obtain ⟨_, rfl, hserve⟩ | ⟨_, _, _, _, rfl, -, -, hserve⟩ | ⟨_, _, _, _, rfl, -, hserve⟩ :=
      serve_cases graph request
    · simp [hserve] at hrefused
    · simp [hserve] at hrefused
    · rw [hserve]

end KeyedVM.Digraph
