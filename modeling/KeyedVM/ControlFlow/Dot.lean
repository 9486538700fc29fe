import KeyedVM.ControlFlow.Graph
import KeyedVM.Text.DotLabel

set_option relaxedAutoImplicit false
set_option autoImplicit false

/-!
# Control flow graphs in Graphviz format

Every block becomes a box with its listing; the entry is green and exits are red.  Edges are black,
blue for arms of jumps and purple for handlers.

## Main definitions

* `KeyedVM.ControlFlowGraph.toDot` — the text of a graph.
-/

namespace KeyedVM

/-- The colour of an edge. -/
def EdgeKind.colour : EdgeKind → String
  | .fallthrough => "black"
  | .arm _ => "blue"
  | .handler _ => "purple"

namespace ControlFlowGraph

open Text

/-- The lines of a block, each closed by a left-aligned line break. -/
def dotLabel (block : Block) (isEntry isExit : Bool) : String :=
  "loc_" ++ hex 4 block.offset.toNat ++ (if isEntry then " (entry)" else "")
    ++ (if isExit then " (exit)" else "") ++ "\\l"
    ++ String.join (block.body.map fun finding => escapeDot finding.text ++ "\\l")

/-- The line of a block. -/
def dotNode (cfg : ControlFlowGraph) (node : NodeId) (block : Block) : String :=
  let isEntry := node = cfg.entry
  let isExit := node ∈ cfg.exits
  let style :=
    if isEntry then ", style=filled, fillcolor=lightgreen"
    else if isExit then ", style=filled, fillcolor=lightcoral"
    else ""
  s!"    B{node.index} [label=\"" ++ dotLabel block isEntry isExit ++ "\"" ++ style ++ "];\n"

/-- The lines of the edges that leave a block. -/
def dotEdges (cfg : ControlFlowGraph) (node : NodeId) : String :=
  String.join ((cfg.graph.outgoing node).map fun (_, arc) =>
    s!"    B{node.index} -> B{arc.target.index} [label=\"" ++ escapeDot arc.data.kind.text
      ++ "\", color=" ++ arc.data.kind.colour ++ "];\n")

/-- A graph in Graphviz format, with a title if one is given. -/
def toDot (cfg : ControlFlowGraph) (title? : Option String) : String :=
  "digraph CFG \x7b\n"
    ++ (title?.elim "" fun title => "    label=\"" ++ escapeDot title ++ "\";\n")
    ++ "    labelloc=t;\n"
    ++ "    node [shape=box, fontname=\"Courier\", fontsize=10];\n"
    ++ "    edge [fontname=\"Courier\", fontsize=9];\n\n"
    ++ String.join (cfg.blocks.map fun (node, block) => cfg.dotNode node block)
    ++ "\n"
    ++ String.join (cfg.graph.nodeIds.map cfg.dotEdges)
    ++ "\x7d\n"

end ControlFlowGraph

end KeyedVM
