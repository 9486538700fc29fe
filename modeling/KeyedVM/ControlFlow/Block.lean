import KeyedVM.Finding
import Std.Data.ExtTreeSet

set_option relaxedAutoImplicit false
set_option autoImplicit false

/-!
# Basic blocks

A basic block is a run of instructions that follow each other in the stream and are always
executed together.  The findings of a function are put in order and cut into blocks.

## Main definitions

* `KeyedVM.Block` — a block, which holds at least one instruction;
* `KeyedVM.ordered` — findings in the order of offsets, one for each offset;
* `KeyedVM.cutsBefore` — whether a block starts at an instruction;
* `KeyedVM.blocks` — the blocks of a list of findings.
-/

namespace KeyedVM

/-- A basic block. -/
structure Block where
  body : List Finding
  nonempty : body ≠ []
  deriving DecidableEq

namespace Block

/-- The block of some findings, if there are any. -/
def ofList? (body : List Finding) : Option Block :=
  if h : body ≠ [] then some ⟨body, h⟩ else none

/-- The first instruction. -/
def first (block : Block) : Finding := block.body.head block.nonempty

/-- The last instruction. -/
def last (block : Block) : Finding := block.body.getLast block.nonempty

/-- Where a block starts. -/
def offset (block : Block) : Offset := block.first.offset

/-- The place behind a block. -/
def stop (block : Block) : Offset := block.last.next

/-- Whether an offset lies inside a block. -/
def contains (block : Block) (offset : Offset) : Bool :=
  block.offset ≤ offset && offset < block.stop

/-- Whether a block ends with a return. -/
def isReturn (block : Block) : Bool := block.last.flow = .ret

/-- A block in text. -/
def text (block : Block) : String :=
  "loc_" ++ Text.hex 4 block.offset.toNat ++ ":\n"
    ++ String.join (block.body.map fun finding => "    " ++ finding.text ++ "\n")

end Block

/-- Puts a finding at its place in an ordered list, instead of one with the same offset. -/
def insertOrdered (finding : Finding) : List Finding → List Finding
  | [] => [finding]
  | other :: rest =>
    if finding.offset < other.offset then finding :: other :: rest
    else if finding.offset = other.offset then finding :: rest
    else other :: insertOrdered finding rest

/-- Findings in the order of offsets.  Of several findings with the same offset the first
stays. -/
def ordered (findings : List Finding) : List Finding := findings.foldr insertOrdered []

/-- Whether a block starts at `finding`, which comes after `previous`: it is the entry or a
header, it does not follow directly, or the path ends before it. -/
def cutsBefore (entry : Offset) (headers : Std.ExtTreeSet Offset) (previous finding : Finding) :
    Bool :=
  finding.offset = entry || headers.contains finding.offset
    || previous.next ≠ finding.offset || previous.endsPath

/-- The blocks of ordered findings. -/
def blocks (entry : Offset) (headers : Std.ExtTreeSet Offset) (findings : List Finding) :
    List Block :=
  (findings.splitBy fun previous finding => !cutsBefore entry headers previous finding).filterMap
    Block.ofList?

end KeyedVM
