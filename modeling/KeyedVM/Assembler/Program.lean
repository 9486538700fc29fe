import KeyedVM.Assembler

set_option relaxedAutoImplicit false
set_option autoImplicit false

/-!
# Programs with labels

A program is a list of statements whose operands and keys may depend on labels.  Since every
plain byte enters the key, an operand cannot be filled in later.  A program is therefore
assembled twice: the first pass knows no labels and only finds out where they are, the second
pass takes the labels of the first.

## Main definitions

* `KeyedVM.Statement` — the statements, with `OperandSource` and `KeySource` for what depends on
  labels;
* `KeyedVM.Pass` — a pass under way;
* `KeyedVM.Pass.run` — a pass that ends at the first error;
* `KeyedVM.Pass.runThrough` — a pass that notes errors and goes on, with the labels so far;
* `KeyedVM.assemble` — the two passes.
-/

namespace KeyedVM

/-- An operand whose kind is fixed and whose value may depend on the places of labels. -/
inductive OperandSource where
  | none
  | register (register : Register)
  | dword (value : (String → Offset) → UInt32)
  | qword (value : (String → Offset) → UInt64)

/-- The operand for given places of labels. -/
def OperandSource.resolve (offsets : String → Offset) : OperandSource → Operand
  | .none => .none
  | .register r => .register r
  | .dword value => .dword (value offsets)
  | .qword value => .qword (value offsets)

/-- Where a replacement for the key comes from. -/
inductive KeySource where
  | constant (key : Key)
  /-- The key at a label. -/
  | atLabel (name : String)
  /-- A key saved earlier in the same pass, zero if there is none. -/
  | saved (slot : String)

/-- The statements of a program. -/
inductive Statement where
  | emit (opcode : Opcode) (operand : OperandSource)
  | label (name : String)
  | setKey (source : KeySource)
  /-- Saves the key in force. -/
  | save (slot : String)
  | raw (bytes : List UInt8)
  | switchTable (entries : List ((String → Offset) → Int32))
  | padTo (offset : Offset)

/-- A pass under way: the stream so far and the saved keys, latest first. -/
structure Pass where
  assembler : Assembler
  saved : List (String × Key) := []

namespace Pass

/-- The key that a source stands for. -/
def resolveKey (labels : Labels) (pass : Pass) : KeySource → Key
  | .constant key => key
  | .atLabel name => labels.key name
  | .saved slot => (pass.saved.lookup slot).getD 0

/-- Performs an operation of the assembler inside a pass. -/
def perform (table : ByteTable) (pass : Pass) (operation : Assembler.Operation) :
    Except Error (Option Offset × Pass) := do
  let (value, assembler) ← pass.assembler.perform table operation
  return (value, { pass with assembler })

/-- Executes a statement for given labels. -/
def execute (table : ByteTable) (labels : Labels) (pass : Pass) :
    Statement → Except Error (Option Offset × Pass)
  | .emit opcode operand => pass.perform table (.emit opcode (operand.resolve labels.offset))
  | .label name => pass.perform table (.label name)
  | .setKey source => pass.perform table (.setKey (pass.resolveKey labels source))
  | .save slot =>
    .ok (none, { pass with saved := (slot, pass.assembler.key) :: pass.saved })
  | .raw bytes => pass.perform table (.raw bytes)
  | .switchTable entries =>
    pass.perform table (.switchTable (entries.map fun entry => entry labels.offset))
  | .padTo offset => pass.perform table (.padTo offset)

/-- A pass over a program that ends at the first error.  The answer lists the value of each
statement with the pass behind it. -/
def run (table : ByteTable) (labels : Labels) (pass : Pass) :
    List Statement → Except Error (List (Option Offset × Pass) × Pass)
  | [] => .ok ([], pass)
  | statement :: rest => do
    let (value, pass) ← pass.execute table labels statement
    let (steps, last) ← run table labels pass rest
    return ((value, pass) :: steps, last)

/-- A pass over a program that skips the statements that fail.  Labels are those recorded so
far. -/
def runThrough (table : ByteTable) (pass : Pass) :
    List Statement → List (Except Error (Option Offset) × Pass) × Pass
  | [] => ([], pass)
  | statement :: rest =>
    match pass.execute table pass.assembler.labels statement with
    | .ok (value, pass) =>
      let (steps, last) := runThrough table pass rest
      ((.ok value, pass) :: steps, last)
    | .error error =>
      let (steps, last) := runThrough table pass rest
      ((.error error, pass) :: steps, last)

/-- A pass before its first statement. -/
def start (key : Key) : Pass := { assembler := .start key }

end Pass

/-- Assembles a program in two passes.  The answer is that of the second pass. -/
def assemble (table : ByteTable) (key : Key) (program : List Statement) :
    Except Error (List (Option Offset × Pass) × Pass) := do
  let (_, first) ← (Pass.start key).run table [] program
  (Pass.start key).run table first.assembler.labels program

end KeyedVM
