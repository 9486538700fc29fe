import KeyedVM.Basic
import KeyedVM.Enumeration
import KeyedVM.Text.Hex
import KeyedVM.Text.Camel
import KeyedVM.Text.DotLabel
import KeyedVM.Opcode
import KeyedVM.Register
import KeyedVM.Flag
import KeyedVM.Helper
import KeyedVM.Operand
import KeyedVM.Reference
import KeyedVM.Region
import KeyedVM.Error
import KeyedVM.ByteTable.Assignment
import KeyedVM.ByteTable.ByteMap
import KeyedVM.ByteTable
import KeyedVM.LittleEndian
import KeyedVM.Blob
import KeyedVM.RollingKey
import KeyedVM.Instruction
import KeyedVM.Decoder
import KeyedVM.Assembler
import KeyedVM.Assembler.Program
import KeyedVM.Export
import KeyedVM.Provenance
import KeyedVM.State
import KeyedVM.Meaning
import KeyedVM.Finding
import KeyedVM.Diagnostic
import KeyedVM.Settings
import KeyedVM.Image
import KeyedVM.Dependency.Action
import KeyedVM.Dependency.Replay
import KeyedVM.Dependency.Closure
import KeyedVM.Dependency.Evaluator
import KeyedVM.Inference.Transfer
import KeyedVM.Inference.HelperCalls
import KeyedVM.Inference.Execution
import KeyedVM.Inference.Run
import KeyedVM.Inference
import KeyedVM.Digraph
import KeyedVM.Digraph.Traversal
import KeyedVM.ControlFlow.Block
import KeyedVM.ControlFlow.Graph
import KeyedVM.ControlFlow.Dot
import KeyedVM.Survey
import KeyedVM.Proofs.Outcome
import KeyedVM.Proofs.ByteTable.Sequential
import KeyedVM.Proofs.Inference.Effects
import KeyedVM.Proofs.Inference.Covering
import KeyedVM.Proofs.Inference.Runs
import KeyedVM.Proofs.Inference.Logging
import KeyedVM.Proofs.Inference.Fixpoint
import KeyedVM.Proofs.Dependency.Value
import KeyedVM.Proofs.Dependency.Closure
import KeyedVM.Proofs.Dependency.Recording
import KeyedVM.Proofs.Dependency.Evaluation
import KeyedVM.Proofs.Inference.Soundness
import KeyedVM.Proofs.Machine
import KeyedVM.Proofs.Dependency.Tracking
import KeyedVM.Proofs.Dependency.StraightLine
import KeyedVM.Proofs.Inference.JumpTargets
import KeyedVM.Proofs.Decoding
import KeyedVM.Proofs.Assembler.RoundTrip
import KeyedVM.Proofs.Inference.Outline
import KeyedVM.Proofs.Inference.Charting
import KeyedVM.Proofs.ControlFlow.Blocks
import KeyedVM.Proofs.ControlFlow.Building
import KeyedVM.Proofs.Inference.Faults
import KeyedVM.Proofs.ControlFlow.Graphable
import KeyedVM.Proofs.Inference.Reachability
import KeyedVM.Proofs.Inference.Agreement
import KeyedVM.Proofs.Inference.Potential
import KeyedVM.Proofs.Inference.Settling
import KeyedVM.Proofs.Inference.Termination
import KeyedVM.Proofs.Inference.Growth
import KeyedVM.Proofs.Inference.Succession
import KeyedVM.Proofs.Inference.Origins
import KeyedVM.Proofs.Inference.Nesting
import KeyedVM.Proofs.Inference.Protection
import KeyedVM.Proofs.ControlFlow.Edges
import KeyedVM.Proofs.ControlFlow.Fallthrough
import KeyedVM.Proofs.Inference.Callees
import KeyedVM.Proofs.Survey.Rounds
import KeyedVM.Proofs.Survey.Accounting
import KeyedVM.Proofs.Survey.ExitKeys
import KeyedVM.Proofs.Survey.Footprint
import KeyedVM.Proofs.Inference.Onward
import KeyedVM.Proofs.ControlFlow.Arcs
import KeyedVM.Proofs.ControlFlow.Faithful
import KeyedVM.Proofs.Inference.Limits
import KeyedVM.Proofs.Assembler.Passes
import KeyedVM.Proofs.Inference.Joining
import KeyedVM.Proofs.ControlFlow.Partition
import KeyedVM.Proofs.Assembler.Drift
import KeyedVM.Proofs.Inference.StackEffect
import KeyedVM.Proofs.Decoding.Replay
import KeyedVM.Proofs.Assembler.Reencoding
import KeyedVM.Proofs.ByteTable.Validation
import KeyedVM.Proofs.ByteTable.ByteMap
import KeyedVM.Proofs.ByteTable.BitFields
import KeyedVM.Proofs.Digraph.Grown
import KeyedVM.Proofs.Digraph.Traversal
import KeyedVM.Proofs.Assembler.SwitchTables
import KeyedVM.Proofs.Inference.Location
import KeyedVM.Proofs.Inference.Returns
import KeyedVM.Proofs.Digraph.Preorder
import KeyedVM.Proofs.ControlFlow.Lookup
import KeyedVM.Proofs.Text.DotLabel
import KeyedVM.Proofs.Dependency.Worklist
import KeyedVM.Proofs.LittleEndian
import KeyedVM.Proofs.Digraph.Adjacency
import KeyedVM.Proofs.Decoding.Overflow
import KeyedVM.Proofs.Inference.Overflow
