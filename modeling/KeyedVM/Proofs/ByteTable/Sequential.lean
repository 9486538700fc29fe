import KeyedVM.Assembler
import KeyedVM.Inference
import Mathlib.Tactic.Lemma

set_option relaxedAutoImplicit false
set_option autoImplicit false

/-!
# The sequential byte table

An alphabet of at most 256 members can be numbered in declaration order, which gives each of them
a byte of its own.  The draft that numbers every alphabet of the machine in this way is valid.
Programs are written down under this table as blocks, each of which is masked from a key of its
own, because code that is reached by a jump goes on with the key of the jump.

## Main definitions

* `KeyedVM.Assignment.numbered` — an alphabet numbered in declaration order;
* `KeyedVM.ByteTable.sequential` — the table in which every alphabet is;
* `KeyedVM.Blob.ofBlocks`, `KeyedVM.Context.ofBlocks` — a program that consists of blocks.

## Main results

* `KeyedVM.Assignment.ofPairs_pairs` — the pairs of an assignment are accepted;
* `KeyedVM.ByteTable.validate_sequential` — the sequential draft is valid.
-/

namespace KeyedVM

namespace Assignment

variable {α : Type} [DecidableEq α] [Enumeration α]

/-- **The pairs of an assignment are accepted**, and give the assignment back. -/
theorem ofPairs_pairs (assignment : Assignment α) :
    ofPairs assignment.pairs = .ok assignment := by
  have hconflict := firstConflict?_eq_none_iff.2 assignment.coherent
  have hmissing := missing_eq_nil_iff.2 assignment.complete
  unfold ofPairs
  split
  · next fault h =>
    rw [hconflict] at h
    cases h
  · split
    · rfl
    · next entries h hne =>
      exact absurd hmissing hne

/-- In an alphabet of at most 256 members, different members have different bytes. -/
lemma ofNat_ordinal_inj (h : (Enumeration.all : List α).length ≤ 256) {a b : α} :
    UInt8.ofNat (Enumeration.ordinal a) = UInt8.ofNat (Enumeration.ordinal b) ↔ a = b := by
  have ha := Enumeration.ordinal_lt a
  have hb := Enumeration.ordinal_lt b
  constructor
  · intro heq
    have hnat := congrArg UInt8.toNat heq
    rw [UInt8.toNat_ofNat_of_lt' (Nat.lt_of_lt_of_le ha h),
      UInt8.toNat_ofNat_of_lt' (Nat.lt_of_lt_of_le hb h)] at hnat
    exact Enumeration.ordinal_inj.1 hnat
  · rintro rfl
    rfl

/-- An alphabet of at most 256 members, numbered in declaration order. -/
def numbered (α : Type) [DecidableEq α] [Enumeration α]
    (h : (Enumeration.all : List α).length ≤ 256) : Assignment α where
  pairs := ByteTable.Draft.numbered α
  coherent := by
    intro p hp q hq
    obtain ⟨a, -, rfl⟩ := List.mem_map.1 hp
    obtain ⟨b, -, rfl⟩ := List.mem_map.1 hq
    exact ofNat_ordinal_inj h
  complete a := ⟨_, List.mem_map.2 ⟨a, Enumeration.mem_all a, rfl⟩⟩

end Assignment

namespace ByteTable

/-- The flags with their canonical bits. -/
def canonicalBits : Assignment Flag where
  pairs := Flag.all.map fun flag => (flag.bit, flag)
  coherent := by decide
  complete flag := ⟨flag.bit, List.mem_map.2 ⟨flag, Enumeration.mem_all flag, rfl⟩⟩

/-- The table in which every alphabet is numbered in declaration order. -/
def sequential : ByteTable where
  opcodes := .numbered Opcode (by decide)
  registers := .numbered Register (by decide)
  flags := canonicalBits
  helpers := .numbered HelperCall (by decide)
  flavours := .numbered CallFlavour (by decide)
  handlers := .numbered HandlerKind (by decide)
  initHelper := 0
  instanceMask := 0x01

/-- **The sequential draft is valid.** -/
theorem validate_sequential : Draft.sequential.validate = .ok sequential := by
  have hopcodes : Assignment.ofPairs Draft.sequential.opcodes = .ok sequential.opcodes :=
    Assignment.ofPairs_pairs sequential.opcodes
  have hregisters : Assignment.ofPairs Draft.sequential.registers = .ok sequential.registers :=
    Assignment.ofPairs_pairs sequential.registers
  have hflags : Assignment.ofPairs Draft.sequential.flags = .ok sequential.flags :=
    Assignment.ofPairs_pairs sequential.flags
  have hhelpers : Assignment.ofPairs Draft.sequential.helpers = .ok sequential.helpers :=
    Assignment.ofPairs_pairs sequential.helpers
  have hflavours : Assignment.ofPairs Draft.sequential.flavours = .ok sequential.flavours :=
    Assignment.ofPairs_pairs sequential.flavours
  have hhandlers : Assignment.ofPairs Draft.sequential.handlers = .ok sequential.handlers :=
    Assignment.ofPairs_pairs sequential.handlers
  simp only [Draft.validate, hopcodes, hregisters, hflags, hhelpers, hflavours, hhandlers]
  rfl

end ByteTable

/-! ## Programs in blocks -/

/-- The code of a program that consists of blocks, each masked from a key of its own. -/
def Blob.ofBlocks (table : ByteTable) (blocks : List (Key × List (Opcode × Operand))) : Blob where
  bytes := (blocks.flatMap fun block => (RollingKey.encrypt block.1
    (block.2.flatMap fun line => table.encode line.1 line.2)).1).toArray

/-- A program that consists of blocks, under the sequential table and the default settings; the
function under analysis starts at `entry`, with the entry key zero. -/
def Context.ofBlocks (blocks : List (Key × List (Opcode × Operand))) (entry : Offset := 0) :
    Context where
  image :=
    { blob := .ofBlocks .sequential blocks
      table := .sequential
      exports := ∅
      references := ∅ }
  settings := {}
  subject := { id := 1, offset := entry, entryKey? := some 0 }

/-- A jump to a sum: `PUSHI 10`, `PUSHI 6`, `ADD`, `JMP`, and at the target `PUSHI 0`, `RET`. -/
def Context.jumpToSum : Context := .ofBlocks
  [(0, [(.pushi .dword, .dword 10), (.pushi .dword, .dword 6), (.add .dword, .none),
    (.jmp, .none), (.pushi .dword, .dword 0), (.ret, .none)])]

/-- Code in another order than it is executed in: `PUSHI 13`, `JMP`; at 8, a place that is reached
later, `PUSHR BP`, `JMP`; at 13 `PUSHI 41`, `POP BP`, `PUSHI 0`, `PUSHI 8`, `JZ`, and behind it
`PUSHR BP`, `JMP` again; at 41 `PUSHI 0`, `RET`. -/
def Context.relay : Context := .ofBlocks
  [(0, [(.pushi .dword, .dword 13), (.jmp, .none)]),
    (3303277283, [(.pushr .qword, .register .bp), (.jmp, .none)]),
    (47160505, [(.pushi .dword, .dword 41), (.pop, .register .bp), (.pushi .dword, .dword 0),
      (.pushi .dword, .dword 8), (.jz, .none), (.pushr .qword, .register .bp), (.jmp, .none),
      (.pushi .dword, .dword 0), (.ret, .none)])]

/-- A loop that counts in a register: `PUSHR BP`, `PUSHI 1`, `ADD`, `POP BP`; then `PUSHR BP`,
`PUSHI 0`, `JZ` back to the start, and behind the loop `PUSHI 0`, `RET`. -/
def Context.counting : Context := .ofBlocks
  [(0, [(.pushr .qword, .register .bp), (.pushi .dword, .dword 1), (.add .qword, .none),
    (.pop, .register .bp), (.pushr .qword, .register .bp), (.pushi .dword, .dword 0), (.jz, .none),
    (.pushi .dword, .dword 0), (.ret, .none)])]

/-- A register that is written on one of two paths: from 8 on `PUSHI 0`, `PUSHI 31`, `JZ`; if the
jump is not taken `PUSHI 36`, `POP BP`; at 31, where the paths meet, `PUSHR BP`, `JMP`; and both at
0 and at 36 `PUSHI 0`, `RET`. -/
def Context.meeting : Context := .ofBlocks
  [(607065831, [(.pushi .dword, .dword 0), (.ret, .none)]),
    (0, [(.pushi .dword, .dword 0), (.pushi .dword, .dword 31), (.jz, .none),
      (.pushi .dword, .dword 36), (.pop, .register .bp)]),
    (3688080856, [(.pushr .qword, .register .bp), (.jmp, .none), (.pushi .dword, .dword 0),
      (.ret, .none)])] 8

/-- A register that is overwritten after it was pushed: from 8 on `PUSHI 0`, `PUSHI 33`, `JZ`; if
the jump is not taken `NOP`, `PUSHI 47`, `POP BP`; at 33, where the paths meet, `PUSHR BP`,
`PUSHI 0`, `POP BP`, `JMP`; and both at 0 and at 47 `PUSHI 0`, `RET`. -/
def Context.overwritten : Context := .ofBlocks
  [(2365190153, [(.pushi .dword, .dword 0), (.ret, .none)]),
    (0, [(.pushi .dword, .dword 0), (.pushi .dword, .dword 33), (.jz, .none), (.nop, .none),
      (.pushi .dword, .dword 47), (.pop, .register .bp)]),
    (3688114470, [(.pushr .qword, .register .bp), (.pushi .dword, .dword 0), (.pop, .register .bp),
      (.jmp, .none), (.pushi .dword, .dword 0), (.ret, .none)])] 8

/-- Flags that are popped, and then written by arithmetic: from 8 on `PUSHI 4`, `PUSHI 30`, `JZ`; if
the jump is not taken `PUSHI 0`, `JMP`; at 30 `PUSHI 59`, `POP FL`, `PUSHR FL`, `PUSHI`, `ADD`,
`PUSHR FL`, `JMP`; and both at 0 and at 59 `PUSHI 0`, `RET`.  The summand is chosen so that both
jumps leave the same key. -/
def Context.staleFlags : Context := .ofBlocks
  [(1434813835, [(.pushi .dword, .dword 0), (.ret, .none)]),
    (0, [(.pushi .dword, .dword 4), (.pushi .dword, .dword 30), (.jz, .none),
      (.pushi .dword, .dword 0), (.jmp, .none)]),
    (3007436429, [(.pushi .dword, .dword 59), (.pop, .register .fl), (.pushr .qword, .register .fl),
      (.pushi .qword, .qword 360857543039254527), (.add .qword, .none),
      (.pushr .qword, .register .fl), (.jmp, .none), (.pushi .dword, .dword 0), (.ret, .none)])] 8

/-- A helper call whose number depends on a register that is written on one of two paths:
`PUSHI 79`, `PUSHI 36`, `JZ`; if the jump is not taken `PUSHI`, `POP BP`, `PUSHI 2`, `POP BP`; at
36, where the paths meet, `PUSHI 7`, `PUSHI 4`, `PUSHR BP`, `SHR`, `VCALL`, `RET`.  The first
immediate on the longer path is chosen so that both paths arrive with the same key. -/
def Context.wavering : Context := .ofBlocks
  [(0, [(.pushi .dword, .dword 79), (.pushi .dword, .dword 36), (.jz, .none),
    (.pushi .qword, .qword 73187896303157794), (.pop, .register .bp), (.pushi .dword, .dword 2),
    (.pop, .register .bp), (.pushi .dword, .dword 7), (.pushi .dword, .dword 4),
    (.pushr .qword, .register .bp), (.shr .dword, .none), (.vcall, .none), (.ret, .none)])]

/-- A protected region inside another one: `PUSHI 60`, `PUSHI 3`, `TRY`, and inside `PUSHI 52`,
`PUSHI 2`, `TRY`; from 28 on, inside both, `PUSHI 52`, `LEAVE`, `PUSHI 60`, `LEAVE`, `PUSHI 0`,
`RET`; and both at 52 and at 60, the handlers, `PUSHI 0`, `RET`. -/
def Context.guardedTwice : Context := .ofBlocks
  [(0, [(.pushi .dword, .dword 60), (.pushi .dword, .dword 3), (.enter, .none),
      (.pushi .dword, .dword 52), (.pushi .dword, .dword 2), (.enter, .none),
      (.pushi .dword, .dword 52), (.leave, .none), (.pushi .dword, .dword 60), (.leave, .none),
      (.pushi .dword, .dword 0), (.ret, .none)]),
    (2139710237, [(.pushi .dword, .dword 0), (.ret, .none)]),
    (2068130958, [(.pushi .dword, .dword 0), (.ret, .none)])]

/-- A handler that depends on a register which is written on one of two paths: from 8 on `PUSHI 60`,
`PUSHI 44`, `JZ`; if the jump is not taken `PUSHI`, `POP BP`, `PUSHI 72`, `POP BP`; at 44, where the
paths meet, `PUSHR BP`, `PUSHI 0`, `POP BP`, `PUSHI 2`, `TRY`, and inside `PUSHI 0`, `RET`; and both
at 0 and at 72 `PUSHI 0`, `RET`.  The first immediate on the longer path is chosen so that both
paths arrive with the same key. -/
def Context.movedHandler : Context := .ofBlocks
  [(3149243887, [(.pushi .dword, .dword 0), (.ret, .none)]),
    (0, [(.pushi .dword, .dword 60), (.pushi .dword, .dword 44), (.jz, .none),
      (.pushi .qword, .qword 1689975225712936), (.pop, .register .bp), (.pushi .dword, .dword 72),
      (.pop, .register .bp), (.pushr .qword, .register .bp), (.pushi .dword, .dword 0),
      (.pop, .register .bp), (.pushi .dword, .dword 2), (.enter, .none), (.pushi .dword, .dword 0),
      (.ret, .none)]),
    (3149243887, [(.pushi .dword, .dword 0), (.ret, .none)])] 8

end KeyedVM
