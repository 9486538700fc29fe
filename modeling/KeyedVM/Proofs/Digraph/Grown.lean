import KeyedVM.Proofs.ControlFlow.Edges
import Mathlib.Data.List.Nodup
import Mathlib.Logic.Relation

set_option relaxedAutoImplicit false
set_option autoImplicit false

/-!
# Graphs that were grown

A graph is grown from the empty one by adding nodes and edges, in any order.  The lists of edges at
the nodes of such a graph say the same as the list of all edges: the edges that leave a node are
those of which it is the source, and all edges lie between nodes of the graph.

## Main definitions

* `KeyedVM.Digraph.Grown` — the graphs that can be grown;
* `KeyedVM.Digraph.Consistent` — the edges at the nodes are the edges of the graph;
* `KeyedVM.Digraph.HasEdge`, `KeyedVM.Digraph.Reaches` — edges and paths between nodes.

## Main results

* `KeyedVM.Digraph.Grown.consistent` — every graph that was grown is consistent;
* `KeyedVM.Digraph.Consistent.mem_successors_iff` — the successors of a node are the targets of its
  edges.
-/

namespace KeyedVM.Digraph

variable {N E : Type} {graph graph' : Digraph N E} {node : NodeId}

/-! ## The nodes of a graph -/

/-- The nodes are those with an index below their number. -/
lemma mem_nodeIds : node ∈ graph.nodeIds ↔ node.index < graph.nodeCount := by
  simp only [nodeIds, List.mem_map, List.mem_range]
  constructor
  · rintro ⟨index, hindex, rfl⟩
    exact hindex
  · intro hindex
    exact ⟨node.index, hindex, rfl⟩

/-- No node is listed twice. -/
lemma nodup_nodeIds (graph : Digraph N E) : graph.nodeIds.Nodup :=
  List.nodup_range.map fun _ _ h => NodeId.mk.inj h

/-! ## Growing a graph -/

/-- The graphs that are grown from the empty one by adding nodes and edges. -/
inductive Grown : Digraph N E → Prop
  | empty : Grown {}
  | addNode {graph : Digraph N E} (data : N) : Grown graph → Grown (graph.addNode data).2
  | addEdge {graph graph' : Digraph N E} {source target : NodeId} {data : E} {id : EdgeId} :
      Grown graph → graph.addEdge source target data = .ok (id, graph') → Grown graph'

/-- A graph of nodes only is grown. -/
lemma Grown.ofNodes (data : List N) : (Digraph.ofNodes data : Digraph N E).Grown := by
  suffices h : ∀ graph : Digraph N E, graph.Grown →
      (data.foldl (fun graph data => (graph.addNode data).2) graph).Grown from h {} .empty
  induction data with
  | nil => exact fun _ hgraph => hgraph
  | cons first data ih => exact fun _ hgraph => ih _ (hgraph.addNode first)

/-- The edges at the nodes are the edges of the graph, and all of them lie between its nodes. -/
structure Consistent (graph : Digraph N E) : Prop where
  linked : graph.Linked
  arcsFrom : ∀ node, graph.arcsFrom node = graph.arcs.toList.filter (·.source = node)
  ends : ∀ arc ∈ graph.arcs.toList,
    arc.source.index < graph.nodeCount ∧ arc.target.index < graph.nodeCount

/-- There is an edge from one node to another. -/
def HasEdge (graph : Digraph N E) (source target : NodeId) : Prop :=
  ∃ arc ∈ graph.arcs.toList, arc.source = source ∧ arc.target = target

/-- There is a path from one node to another. -/
def Reaches (graph : Digraph N E) : NodeId → NodeId → Prop := Relation.ReflTransGen graph.HasEdge

/-! ## Growing keeps graphs consistent -/

/-- The empty graph is consistent. -/
lemma consistent_empty : ({} : Digraph N E).Consistent where
  linked := linked_empty
  arcsFrom node := by rw [arcsFrom_eq]; rfl
  ends _ harc := absurd harc List.not_mem_nil

/-- A new node changes nothing about the edges that leave nodes: it has none itself. -/
lemma arcsFrom_addNode (data : N) (node : NodeId) :
    (graph.addNode data).2.arcsFrom node = graph.arcsFrom node := by
  rw [arcsFrom_eq, arcsFrom_eq, addNode, Array.getElem?_push]
  split
  · next hindex =>
    rw [Array.getElem?_eq_none (Nat.le_of_eq hindex.symm)]
    rfl
  · rfl

/-- Adding a node keeps a graph consistent. -/
lemma Consistent.addNode (h : graph.Consistent) (data : N) :
    (graph.addNode data).2.Consistent where
  linked := h.linked.addNode data
  arcsFrom node := by
    rw [arcsFrom_addNode, h.arcsFrom]
    rfl
  ends arc harc := by
    obtain ⟨hsource, htarget⟩ := h.ends arc harc
    have hcount : (graph.addNode data).2.nodeCount = graph.nodeCount + 1 := Array.size_push data
    rw [hcount]
    exact ⟨Nat.lt_succ_of_lt hsource, Nat.lt_succ_of_lt htarget⟩

/-- An edge can be added only between nodes of the graph. -/
lemma ends_of_addEdge {source target : NodeId} {data : E} {id : EdgeId}
    (h : graph.addEdge source target data = .ok (id, graph')) :
    source.index < graph.nodeCount ∧ target.index < graph.nodeCount := by
  unfold Digraph.addEdge at h
  split at h
  · next hends => exact hends
  · cases h

/-- Adding an edge keeps a graph consistent. -/
lemma Consistent.addEdge {source target : NodeId} {data : E} {id : EdgeId}
    (h : graph.Consistent) (hadd : graph.addEdge source target data = .ok (id, graph')) :
    graph'.Consistent := by
  have happends := appends_of_addEdge h.linked hadd
  refine ⟨happends.adds.linked, fun node => ?_, fun arc harc => ?_⟩
  · rw [happends.adds.arcsFrom, h.arcsFrom, happends.arcs, List.filter_append]
  · rw [happends.nodeCount_eq]
    rw [happends.arcs] at harc
    rcases List.mem_append.1 harc with harc | harc
    · exact h.ends arc harc
    · rw [List.mem_singleton.1 harc]
      exact ends_of_addEdge hadd

/-- **Every graph that was grown is consistent.** -/
theorem Grown.consistent (h : graph.Grown) : graph.Consistent := by
  induction h with
  | empty => exact consistent_empty
  | addNode data _ ih => exact ih.addNode data
  | addEdge _ hadd ih => exact ih.addEdge hadd

/-! ## Successors -/

/-- The successors of a node come in the order in which their edges were added. -/
lemma Consistent.successors_eq (h : graph.Consistent) (node : NodeId) :
    graph.successors node = (graph.arcs.toList.filter (·.source = node)).map (·.target) := by
  rw [← h.arcsFrom, successors, Digraph.arcsFrom, List.map_map]
  rfl

/-- **The successors of a node are the targets of its edges.** -/
theorem Consistent.mem_successors_iff (h : graph.Consistent) {source target : NodeId} :
    target ∈ graph.successors source ↔ graph.HasEdge source target := by
  rw [h.successors_eq, List.mem_map]
  simp only [List.mem_filter, decide_eq_true_eq, HasEdge, and_assoc]

/-- Edges lead to nodes of the graph. -/
lemma Consistent.target_lt (h : graph.Consistent) {source target : NodeId}
    (hedge : graph.HasEdge source target) : target.index < graph.nodeCount := by
  obtain ⟨arc, harc, -, rfl⟩ := hedge
  exact (h.ends arc harc).2

end KeyedVM.Digraph
