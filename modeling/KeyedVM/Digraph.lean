import KeyedVM.Error

set_option relaxedAutoImplicit false
set_option autoImplicit false

/-!
# Directed graphs

Directed graphs with data on nodes and edges.  Nodes and edges are numbered in the order in which
they are added and are never removed.  There may be several edges between the same nodes, and
edges from a node to itself.

## Main definitions

* `KeyedVM.NodeId`, `KeyedVM.EdgeId` — the numbers of nodes and edges;
* `KeyedVM.Digraph` — a graph, with the edges listed at both of their ends;
* `KeyedVM.Digraph.addNode`, `KeyedVM.Digraph.addEdge` — its growth;
* `KeyedVM.Digraph.outgoing`, `incoming`, `successors`, `predecessors` — neighbourhoods.
-/

namespace KeyedVM

/-- The number of a node. -/
structure NodeId where
  index : Nat
  deriving DecidableEq, Repr

/-- The number of an edge. -/
structure EdgeId where
  index : Nat
  deriving DecidableEq, Repr

/-- The short name of a node. -/
def NodeId.text (node : NodeId) : String := s!"n{node.index}"

/-- The long name of a node. -/
def NodeId.describe (node : NodeId) : String := s!"NodeId({node.index})"

/-- The short name of an edge. -/
def EdgeId.text (edge : EdgeId) : String := s!"e{edge.index}"

/-- The long name of an edge. -/
def EdgeId.describe (edge : EdgeId) : String := s!"EdgeId({edge.index})"

/-- An edge with its ends. -/
structure Arc (E : Type) where
  source : NodeId
  target : NodeId
  data : E

/-- A directed graph. -/
structure Digraph (N E : Type) where
  nodes : Array N := #[]
  arcs : Array (Arc E) := #[]
  /-- The edges that leave each node, in the order of addition. -/
  leaving : Array (List EdgeId) := #[]
  /-- The edges that enter each node, in the order of addition. -/
  entering : Array (List EdgeId) := #[]

namespace Digraph

variable {N E : Type}

/-- Number of nodes. -/
def nodeCount (graph : Digraph N E) : Nat := graph.nodes.size

/-- Number of edges. -/
def edgeCount (graph : Digraph N E) : Nat := graph.arcs.size

/-- Adds a node without edges. -/
def addNode (graph : Digraph N E) (data : N) : NodeId × Digraph N E :=
  (⟨graph.nodeCount⟩,
    { graph with
      nodes := graph.nodes.push data
      leaving := graph.leaving.push []
      entering := graph.entering.push [] })

/-- Adds an edge between two nodes of the graph. -/
def addEdge (graph : Digraph N E) (source target : NodeId) (data : E) :
    Except Error (EdgeId × Digraph N E) :=
  if source.index < graph.nodeCount ∧ target.index < graph.nodeCount then
    let id : EdgeId := ⟨graph.edgeCount⟩
    .ok (id,
      { graph with
        arcs := graph.arcs.push ⟨source, target, data⟩
        leaving := graph.leaving.modify source.index (· ++ [id])
        entering := graph.entering.modify target.index (· ++ [id]) })
  else .error (.graph (.missingNode source.index target.index))

/-- The graph of some nodes without edges. -/
def ofNodes (data : List N) : Digraph N E :=
  data.foldl (fun graph data => (graph.addNode data).2) {}

/-- The data of a node. -/
def node? (graph : Digraph N E) (node : NodeId) : Option N := graph.nodes[node.index]?

/-- An edge with its ends. -/
def arc? (graph : Digraph N E) (edge : EdgeId) : Option (Arc E) := graph.arcs[edge.index]?

/-- The nodes in the order of addition. -/
def nodeIds (graph : Digraph N E) : List NodeId := (List.range graph.nodeCount).map .mk

/-- The edges that leave a node, in the order of addition. -/
def outgoing (graph : Digraph N E) (node : NodeId) : List (EdgeId × Arc E) :=
  (graph.leaving[node.index]?.getD []).filterMap fun id => (graph.arc? id).map (id, ·)

/-- The edges that enter a node, in the order of addition. -/
def incoming (graph : Digraph N E) (node : NodeId) : List (EdgeId × Arc E) :=
  (graph.entering[node.index]?.getD []).filterMap fun id => (graph.arc? id).map (id, ·)

/-- The targets of the edges that leave a node. -/
def successors (graph : Digraph N E) (node : NodeId) : List NodeId :=
  (graph.outgoing node).map (·.2.target)

/-- The sources of the edges that enter a node. -/
def predecessors (graph : Digraph N E) (node : NodeId) : List NodeId :=
  (graph.incoming node).map (·.2.source)

/-- Number of edges that leave a node. -/
def outDegree (graph : Digraph N E) (node : NodeId) : Nat :=
  (graph.leaving[node.index]?.getD []).length

end Digraph

end KeyedVM
