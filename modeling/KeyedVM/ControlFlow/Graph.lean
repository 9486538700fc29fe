import KeyedVM.ControlFlow.Block
import KeyedVM.Digraph.Traversal
import KeyedVM.Inference

set_option relaxedAutoImplicit false
set_option autoImplicit false

/-!
# Control flow graphs

The nodes of a control flow graph are the basic blocks of a function in the order of offsets.  Its
edges are the arms of jumps, the steps from a block to the one behind it, and the ways from a
protected region to its filter and handler.  Calls and returns have no edges.

## Main definitions

* `KeyedVM.EdgeKind`, `KeyedVM.FlowEdge` — the edges;
* `KeyedVM.ControlFlowGraph` — a graph with its entry and its exits;
* `KeyedVM.ControlFlowGraph.build` — the graph of a list of findings;
* `KeyedVM.ControlFlowGraph.blockAt?` — the block at an offset;
* `KeyedVM.Inference.graph` — the graph of an analysed function.
-/

namespace KeyedVM

/-- The kinds of edges. -/
inductive EdgeKind where
  /-- From a block to the one that starts where it ends. -/
  | fallthrough
  /-- One target of a jump, by its place among the targets. -/
  | arm (index : Nat)
  /-- From a protected region to its filter or handler. -/
  | handler (kind : HandlerKind)
  deriving DecidableEq, Repr

namespace EdgeKind

/-- The place of an arm among the targets. -/
def arm? : EdgeKind → Option Nat
  | arm index => some index
  | fallthrough | handler _ => none

/-- Whether an edge leads to a filter or a handler. -/
def isExceptional : EdgeKind → Bool
  | handler _ => true
  | fallthrough | arm _ => false

/-- The label of an edge. -/
def text : EdgeKind → String
  | fallthrough => ""
  | arm index => s!"arm {index}"
  | handler kind => kind.name

end EdgeKind

/-- An edge of a control flow graph. -/
structure FlowEdge where
  /-- Where the target block starts. -/
  target : Offset
  kind : EdgeKind
  deriving DecidableEq, Repr

/-- The control flow graph of a function. -/
structure ControlFlowGraph where
  exportId : ExportId
  graph : Digraph Block FlowEdge
  entry : NodeId
  /-- The blocks that have no successors or return. -/
  exits : List NodeId

namespace ControlFlowGraph

/-- The block that starts at an offset. -/
def startingAt? (graph : Digraph Block FlowEdge) (offset : Offset) : Option NodeId :=
  (graph.nodes.findIdx? fun block => block.offset = offset).map .mk

/-- The block that holds an offset: the last one that starts at or before it, if it reaches that
far. -/
def holding? (graph : Digraph Block FlowEdge) (offset : Offset) : Option NodeId := do
  let node ← (graph.nodeIds.filter fun node =>
    (graph.node? node).any fun block => block.offset ≤ offset).getLast?
  let block ← graph.node? node
  if block.contains offset then some node else none

/-- The block that starts at an offset, which must be there because the offset is a target. -/
def target (exportId : ExportId) (graph : Digraph Block FlowEdge) (role : TargetRole)
    (offset : Offset) : Except Error NodeId :=
  match startingAt? graph offset with
  | some node => .ok node
  | none => .error (.graph (.notABlock role offset exportId))

/-- An edge to be added, with its ends. -/
abbrev Link := NodeId × NodeId × FlowEdge

/-- The edges of the arms of a jump, from the arm `index` on. -/
def arms (exportId : ExportId) (graph : Digraph Block FlowEdge) (source : NodeId)
    (index : Nat) : List Offset → Except Error (List Link)
  | [] => .ok []
  | offset :: rest => do
    let node ← target exportId graph .jumpTarget offset
    let links ← arms exportId graph source (index + 1) rest
    return (source, node, ⟨offset, .arm index⟩) :: links

/-- The edges by which control leaves the end of a block. -/
def links (exportId : ExportId) (graph : Digraph Block FlowEdge) (source : NodeId)
    (block : Block) : Except Error (List Link) :=
  match block.last.flow with
  | .jump | .conditionalJump | .switch => arms exportId graph source 0 block.last.targets
  | _ =>
    if block.last.endsPath then .ok []
    else
      match startingAt? graph block.stop with
      | some node => .ok [(source, node, ⟨block.stop, .fallthrough⟩)]
      | none => .ok []

/-- Adds edges one after the other. -/
def connect (graph : Digraph Block FlowEdge) :
    List Link → Except Error (Digraph Block FlowEdge)
  | [] => .ok graph
  | (source, node, edge) :: rest => do
    let (_, graph) ← graph.addEdge source node edge
    connect graph rest

/-- Adds the edges from the end of every block. -/
def connectBlocks (exportId : ExportId) (graph : Digraph Block FlowEdge) :
    Except Error (Digraph Block FlowEdge) := do
  let found ← (graph.nodeIds.zip graph.nodes.toList).mapM fun (source, block) =>
    links exportId graph source block
  connect graph found.flatten

/-- Adds the edges of one protected region: to the filter if there is one, then to the
handler. -/
def connectRegion (exportId : ExportId) (graph : Digraph Block FlowEdge) (region : Region) :
    Except Error (Digraph Block FlowEdge) :=
  match holding? graph region.opener with
  | none => .error (.graph (.openerNotDecoded region.opener exportId))
  | some source => do
    let found ← (region.filter?.toList ++ [region.handler]).mapM fun offset => do
      let node ← target exportId graph .handler offset
      return (source, node, (⟨offset, .handler region.kind⟩ : FlowEdge))
    connect graph found

/-- Adds the edges of protected regions. -/
def connectRegions (exportId : ExportId) (graph : Digraph Block FlowEdge) :
    List Region → Except Error (Digraph Block FlowEdge)
  | [] => .ok graph
  | region :: rest => do
    let graph ← connectRegion exportId graph region
    connectRegions exportId graph rest

/-- Whether a block is an exit: it has no successors or returns. -/
def isExit (graph : Digraph Block FlowEdge) (node : NodeId) : Bool :=
  graph.outDegree node = 0 || (graph.node? node).any Block.isReturn

/-- The control flow graph of some findings, in any order.  There must be findings, one of them
at the entry; every target of a jump and every filter and handler must start a block, and every
protected region must be opened inside a block. -/
def build (exportId : ExportId) (entry : Offset) (findings : List Finding)
    (headers : Std.ExtTreeSet Offset) (regions : List Region) :
    Except Error ControlFlowGraph :=
  if findings.isEmpty then .error (.graph (.noInstructions exportId))
  else
    let graph : Digraph Block FlowEdge := .ofNodes (blocks entry headers (ordered findings))
    match startingAt? graph entry with
    | none => .error (.graph (.entryNotDecoded entry exportId))
    | some entry => do
      let graph ← connectBlocks exportId graph
      let graph ← connectRegions exportId graph regions
      return { exportId, graph, entry, exits := graph.nodeIds.filter (isExit graph) }

/-- The block that holds an offset. -/
def blockAt? (cfg : ControlFlowGraph) (offset : Offset) : Option NodeId :=
  holding? cfg.graph offset

/-- The blocks with their numbers. -/
def blocks (cfg : ControlFlowGraph) : List (NodeId × Block) :=
  cfg.graph.nodeIds.zip cfg.graph.nodes.toList

/-- The blocks that can be reached from the entry, in depth-first order. -/
def dfs (cfg : ControlFlowGraph) : List NodeId := cfg.graph.dfs cfg.entry

/-- The blocks that can be reached from the entry, in reverse post-order. -/
def reversePostorder (cfg : ControlFlowGraph) : List NodeId :=
  cfg.graph.reversePostorder cfg.entry

end ControlFlowGraph

/-- The control flow graph of an analysed function. -/
def Inference.graph (inference : Inference) : Except Error ControlFlowGraph :=
  ControlFlowGraph.build inference.exportId inference.entry inference.toList inference.headers
    inference.regions.toList

end KeyedVM
