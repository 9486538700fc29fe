import KeyedVM.Digraph

set_option relaxedAutoImplicit false
set_option autoImplicit false

/-!
# Orders of traversal

Orders in which the nodes that can be reached from a start are visited.  Both traversals keep a
stack of nodes still to be looked at.

## Main definitions

* `KeyedVM.Digraph.dfs` — a depth-first order, in which a node counts as visited as soon as it
  is put on the stack;
* `KeyedVM.Digraph.postorder` — depth-first post-order;
* `KeyedVM.Digraph.reversePostorder` — the same backwards.

Every node enters a traversal once, so the number of nodes bounds it.
-/

namespace KeyedVM.Digraph

variable {N E : Type}

/-- Puts a node on the stack and marks it, unless it is marked already. -/
def discover (found : List NodeId × List NodeId) (node : NodeId) : List NodeId × List NodeId :=
  if node ∈ found.2 then found else (node :: found.1, node :: found.2)

/-- Takes nodes from the stack, of which there are at most `room` more. -/
def dfsFrom (graph : Digraph N E) : Nat → List NodeId → List NodeId → List NodeId
  | room + 1, node :: stack, marked =>
    let (stack, marked) := (graph.successors node).reverse.foldl discover (stack, marked)
    node :: graph.dfsFrom room stack marked
  | _, _, _ => []

/-- The nodes that can be reached from `start`, in depth-first order.  Successors are put on the
stack last edge first, so that the first edge is followed first. -/
def dfs (graph : Digraph N E) (start : NodeId) : List NodeId :=
  if start.index < graph.nodeCount then graph.dfsFrom graph.nodeCount [start] [start] else []

/-- What is still to be done with a node. -/
inductive Visit where
  | enter (node : NodeId)
  | leave (node : NodeId)
  deriving DecidableEq, Repr

/-- Leaves nodes and skips nodes that were entered before, up to the first node that is new. -/
def unwind (entered : List NodeId) : List Visit → List NodeId × List Visit
  | .leave node :: stack =>
    let (left, rest) := unwind entered stack
    (node :: left, rest)
  | .enter node :: stack =>
    if node ∈ entered then unwind entered stack else ([], .enter node :: stack)
  | [] => ([], [])

/-- Does what is on the stack; at most `room` nodes are new.  Entering a node puts those successors
on the stack that are not entered yet.  They may be when they come up. -/
def postorderFrom (graph : Digraph N E) (room : Nat) (entered : List NodeId)
    (stack : List Visit) : List NodeId :=
  let (left, rest) := unwind entered stack
  match room, rest with
  | room + 1, .enter node :: rest =>
    let entered := node :: entered
    let fresh := (graph.successors node).filter (· ∉ entered)
    left ++ graph.postorderFrom room entered (fresh.map .enter ++ .leave node :: rest)
  | _, _ => left

/-- The nodes that can be reached from `start`, each behind those that are reached through
it. -/
def postorder (graph : Digraph N E) (start : NodeId) : List NodeId :=
  if start.index < graph.nodeCount then
    graph.postorderFrom graph.nodeCount [] [.enter start]
  else []

/-- The post-order backwards. -/
def reversePostorder (graph : Digraph N E) (start : NodeId) : List NodeId :=
  (graph.postorder start).reverse

end KeyedVM.Digraph
