import KeyedVM.Proofs.Decoding

set_option relaxedAutoImplicit false
set_option autoImplicit false

/-!
# Decoding without overflow

Places in the code are machine words, and whoever adds machine words has to know that the sum is
one too.  Here decoding is done once more with an arithmetic that is given, and that may refuse to
answer.  An arithmetic that refuses every result that is no machine word is never asked for one, as
long as the code is addressable: a place is moved only behind a byte that was read there.

## Main definitions

* `KeyedVM.Arithmetic` — how machine words are added and multiplied, with `wrapping` and `trapping`;
* `KeyedVM.Arithmetic.IsExact` — an arithmetic is right wherever the result is a machine word;
* `KeyedVM.Guarded`, `KeyedVM.granted` — computations that may be refused, and those that are not;
* `KeyedVM.decodeAtWith` — decoding with a given arithmetic.

## Main results

* `KeyedVM.bind_eq_granted`, `KeyedVM.mapM_eq_granted` — computations of which no step is refused;
* `KeyedVM.decodeAtWith_eq` — decoding is the same with every exact arithmetic.
-/

namespace KeyedVM

/-! ## Arithmetic -/

/-- How machine words are added and multiplied.  An arithmetic may refuse to answer. -/
structure Arithmetic where
  add : UInt64 → UInt64 → Option UInt64
  mul : UInt64 → UInt64 → Option UInt64

namespace Arithmetic

/-- The arithmetic of the machine, which wraps around. -/
def wrapping : Arithmetic where
  add a b := some (a + b)
  mul a b := some (a * b)

/-- The arithmetic that refuses every result that is no machine word. -/
def trapping : Arithmetic where
  add a b := if a.toNat + b.toNat < UInt64.size then some (a + b) else none
  mul a b := if a.toNat * b.toNat < UInt64.size then some (a * b) else none

/-- An arithmetic is right wherever the result is a machine word. -/
structure IsExact (arith : Arithmetic) : Prop where
  add : ∀ {a b : UInt64}, a.toNat + b.toNat < UInt64.size → arith.add a b = some (a + b)
  mul : ∀ {a b : UInt64}, a.toNat * b.toNat < UInt64.size → arith.mul a b = some (a * b)

/-- Arithmetic that wraps around is exact where the result is a machine word. -/
lemma isExact_wrapping : wrapping.IsExact := ⟨fun _ => rfl, fun _ => rfl⟩

/-- Arithmetic that refuses is exact where the result is a machine word. -/
lemma isExact_trapping : trapping.IsExact := ⟨fun h => if_pos h, fun h => if_pos h⟩

end Arithmetic

/-! ## Computations that may be refused -/

/-- A computation that may fail, and that may be refused. -/
abbrev Guarded (ε α : Type) := ExceptT ε Option α

variable {ε α β : Type}

/-- A computation that is not refused. -/
def granted (x : Except ε α) : Guarded ε α := ExceptT.mk (some x)

/-- A value that is returned is granted. -/
lemma pure_eq_granted (a : α) : (pure a : Guarded ε α) = granted (pure a) := rfl

/-- A failure is granted. -/
lemma throw_eq_granted (e : ε) : (throw e : Guarded ε α) = granted (throw e) := rfl

/-- An answer of an arithmetic that is not refused is taken over. -/
lemma lift_bind_eq {a? : Option α} {a : α} (h : a? = some a) (f : α → Guarded ε β) :
    ((ExceptT.lift a? : Guarded ε α) >>= f) = f a := by
  subst h
  rfl

/-- A sequence of two steps is not refused if neither of them is; the second one is taken only if
the first one succeeds. -/
lemma bind_eq_granted {x : Guarded ε α} {y : Except ε α} {f : α → Guarded ε β}
    {g : α → Except ε β} (hx : x = granted y) (hf : ∀ a, y = .ok a → f a = granted (g a)) :
    (x >>= f) = granted (y >>= g) := by
  subst hx
  cases y with
  | error e => rfl
  | ok a => exact hf a rfl

/-- A choice between two steps is not refused if neither of them is. -/
lemma ite_eq_granted {c : Prop} [Decidable c] {x y : Guarded ε α} {x' y' : Except ε α}
    (hx : x = granted x') (hy : y = granted y') :
    (if c then x else y) = granted (if c then x' else y') := by
  subst hx hy
  split <;> rfl

/-- Steps for numbers in a row are not refused if each of them is not, provided that the ones before
it have succeeded. -/
lemma mapM_eq_granted {f : Nat → Guarded ε β} {g : Nat → Except ε β} {p : Nat → Prop}
    (h : ∀ k, p k → f k = granted (g k)) (hnext : ∀ k b, p k → g k = .ok b → p (k + 1))
    (count : Nat) {start : Nat} (hstart : p start) :
    (List.range' start count).mapM f = granted ((List.range' start count).mapM g) := by
  induction count generalizing start with
  | zero => rfl
  | succ count ih =>
    rw [List.range'_succ, List.mapM_cons, List.mapM_cons]
    refine bind_eq_granted (h start hstart) fun b hb => ?_
    exact bind_eq_granted (ih (hnext start b hstart hb)) fun bs _ => pure_eq_granted _

/-! ## Bytes -/

/-- A value that must be there. -/
def orFault (fault : ε) (a? : Option α) : Except ε α := a?.elim (.error fault) .ok

/-- A value that is there is passed on. -/
@[simp] lemma orFault_some_bind (fault : ε) (a : α) (f : α → Except ε β) :
    (orFault fault (some a) >>= f) = f a := rfl

namespace Cursor

variable (arith : Arithmetic) (blob : Blob) (fault : DecodeFault)

/-- The plain byte at a cursor and the cursor behind it, or a fault if there is none. -/
def byteWith (cursor : Cursor) : Guarded DecodeFault (UInt8 × Cursor) :=
  match blob.bytes[cursor.position.toNat]? with
  | none => throw fault
  | some stored => do
    let plain := RollingKey.mask cursor.key stored
    let position ← ExceptT.lift (arith.add cursor.position 1)
    return (plain, ⟨position, RollingKey.next cursor.key plain⟩)

/-- The next `n` plain bytes at a cursor and the cursor behind them, or a fault if there are
fewer. -/
def bytesWith : Nat → Cursor → Guarded DecodeFault (List UInt8 × Cursor)
  | 0, cursor => return ([], cursor)
  | n + 1, cursor => do
    let (byte, cursor) ← cursor.byteWith arith blob fault
    let (rest, cursor) ← bytesWith n cursor
    return (byte :: rest, cursor)

variable {arith blob}

/-- The place behind a byte that was read is a machine word. -/
lemma byteWith_eq (harith : arith.IsExact) (hblob : blob.Addressable) (cursor : Cursor) :
    cursor.byteWith arith blob fault = granted (orFault fault (cursor.byte? blob)) := by
  unfold byteWith byte?
  cases hstored : blob.bytes[cursor.position.toNat]? with
  | none => rfl
  | some stored =>
    obtain ⟨hlt, -⟩ := Array.getElem?_eq_some_iff.1 hstored
    have hsize : blob.bytes.size < UInt64.size := hblob
    have hsum : cursor.position.toNat + (1 : UInt64).toNat < UInt64.size :=
      Nat.lt_of_le_of_lt hlt hsize
    simp only [lift_bind_eq (harith.add hsum)]
    rfl

/-- Bytes that must be there are read one after the other. -/
lemma orFault_bytes?_succ (n : Nat) (cursor : Cursor) :
    orFault fault (bytes? blob (n + 1) cursor) = (do
      let (byte, cursor) ← orFault fault (cursor.byte? blob)
      let (rest, cursor) ← orFault fault (bytes? blob n cursor)
      return (byte :: rest, cursor)) := by
  rw [bytes?]
  cases cursor.byte? blob with
  | none => rfl
  | some read =>
    simp only [orFault_some_bind, Option.bind_eq_bind, Option.bind_some]
    cases bytes? blob n read.2 <;> rfl

/-- **Reading bytes stays within the machine words** where the blob is addressable, under any exact
arithmetic. -/
lemma bytesWith_eq (harith : arith.IsExact) (hblob : blob.Addressable) (n : Nat)
    (cursor : Cursor) :
    bytesWith arith blob fault n cursor = granted (orFault fault (bytes? blob n cursor)) := by
  induction n generalizing cursor with
  | zero => rfl
  | succ n ih =>
    rw [orFault_bytes?_succ]
    refine bind_eq_granted (byteWith_eq fault harith hblob cursor) fun read _ => ?_
    exact bind_eq_granted (ih read.2) fun rest _ => pure_eq_granted _

end Cursor

/-! ## Instructions -/

/-- Decodes opcode, filler and operand at a cursor, with a given arithmetic. -/
def ByteTable.decodeWith (arith : Arithmetic) (table : ByteTable) (blob : Blob) (cursor : Cursor) :
    Guarded DecodeFault (Opcode × Operand × Cursor) := do
  let (first, cursor) ← cursor.byteWith arith blob .noOpcode
  let opcode ← granted (orFault (.unknownOpcode first) (table.opcodes.entry? first))
  let (_, cursor) ← cursor.byteWith arith blob (.truncated opcode)
  let (rest, cursor) ←
    cursor.bytesWith arith blob (.truncatedOperand opcode) opcode.operandKind.size
  let operand ← granted (table.operand opcode.operandKind (LittleEndian.ofBytes rest))
  return (opcode, operand, cursor)

/-- The instruction at `position` under `key` and the key behind it, with a given arithmetic. -/
def decodeAtWith (arith : Arithmetic) (table : ByteTable) (blob : Blob) (position : Offset)
    (key : Key) : Guarded Error (Instruction × Key) :=
  ExceptT.adapt (.decode position) do
    let (opcode, operand, cursor) ← table.decodeWith arith blob ⟨position, key⟩
    return (⟨position, opcode, operand⟩, cursor.key)

/-- The place behind an instruction, with a given arithmetic. -/
def Instruction.nextWith (arith : Arithmetic) (instruction : Instruction) : Option Offset :=
  arith.add instruction.offset instruction.size

variable {arith : Arithmetic} {table : ByteTable} {blob : Blob}

/-- Decoding as a sequence of steps that may fail. -/
lemma ByteTable.decode_eq_bind (cursor : Cursor) :
    table.decode blob cursor = (do
      let (first, cursor) ← orFault .noOpcode (cursor.byte? blob)
      let opcode ← orFault (.unknownOpcode first) (table.opcodes.entry? first)
      let (_, cursor) ← orFault (.truncated opcode) (cursor.byte? blob)
      let (rest, cursor) ←
        orFault (.truncatedOperand opcode) (cursor.bytes? blob opcode.operandKind.size)
      let operand ← table.operand opcode.operandKind (LittleEndian.ofBytes rest)
      return (opcode, operand, cursor)) := by
  unfold decode
  cases cursor.byte? blob with
  | none => rfl
  | some read =>
    simp only [orFault_some_bind]
    cases table.opcodes.entry? read.1 with
    | none => rfl
    | some opcode =>
      simp only [orFault_some_bind]
      cases read.2.byte? blob with
      | none => rfl
      | some read =>
        simp only [orFault_some_bind]
        cases read.2.bytes? blob opcode.operandKind.size with
        | none => rfl
        | some read =>
          simp only [orFault_some_bind]
          cases table.operand opcode.operandKind (LittleEndian.ofBytes read.1) <;> rfl

/-- **Decoding stays within the machine words** where the blob is addressable, under any exact
arithmetic. -/
lemma ByteTable.decodeWith_eq (harith : arith.IsExact) (hblob : blob.Addressable)
    (cursor : Cursor) :
    table.decodeWith arith blob cursor = granted (table.decode blob cursor) := by
  rw [decode_eq_bind]
  refine bind_eq_granted (cursor.byteWith_eq _ harith hblob) fun first _ => ?_
  refine bind_eq_granted rfl fun opcode _ => ?_
  refine bind_eq_granted (first.2.byteWith_eq _ harith hblob) fun filler _ => ?_
  refine bind_eq_granted (Cursor.bytesWith_eq _ harith hblob _ filler.2) fun rest _ => ?_
  exact bind_eq_granted rfl fun operand _ => pure_eq_granted _

/-- **Decoding is the same with every exact arithmetic.** -/
theorem decodeAtWith_eq (harith : arith.IsExact) (hblob : blob.Addressable) (position : Offset)
    (key : Key) :
    decodeAtWith arith table blob position key = granted (decodeAt table blob position key) := by
  unfold decodeAtWith decodeAt
  rw [ByteTable.decodeWith_eq harith hblob]
  cases table.decode blob ⟨position, key⟩ <;> rfl

/-- The place behind a decoded instruction is a machine word. -/
lemma nextWith_of_decodeAt (harith : arith.IsExact) (hblob : blob.Addressable) {position : Offset}
    {key key' : Key} {instruction : Instruction}
    (h : decodeAt table blob position key = .ok (instruction, key')) :
    instruction.nextWith arith = some instruction.next := by
  obtain ⟨rfl, hbound⟩ := decodeAt_bounds hblob h
  apply harith.add
  rw [instruction.toNat_size]
  exact Nat.lt_of_le_of_lt hbound hblob

end KeyedVM
