import KeyedVM.Assembler.Program
import KeyedVM.Proofs.ByteTable.Sequential
import KeyedVM.Proofs.Decoding

set_option relaxedAutoImplicit false
set_option autoImplicit false

/-!
# Decoding undoes assembling

An instruction that was appended to a stream is read back from the place where it was written,
under the key that was in force there, and leaves the key that the assembler went on with.  Nothing
that is done to the stream later changes this, because a stream only grows at its end.

## Main results

* `KeyedVM.ByteTable.operand_operandValue` — an operand is read back from what it is stored as;
* `KeyedVM.ByteTable.decode_encode` — an instruction is read back from its masked bytes;
* `KeyedVM.Assembler.emit_cases` — when an instruction can be appended, and what is appended;
* `KeyedVM.Pass.runThrough_extends` — the stream of a pass only grows at its end;
* `KeyedVM.Pass.runThrough_emit` — whatever a pass has written is read back in the end.
-/

namespace KeyedVM

/-! ## One instruction -/

namespace ByteTable

/-- **An operand is read back from what it is stored as**: registers through the table, immediates
from their little-endian bytes. -/
theorem operand_operandValue (table : ByteTable) (operand : Operand) :
    table.operand operand.kind (LittleEndian.ofBytes
        (LittleEndian.toBytes operand.kind.size (table.operandValue operand)))
      = .ok operand := by
  rw [LittleEndian.ofBytes_toBytes]
  cases operand with
  | none => rfl
  | register r =>
    have hvalue : table.operandValue (.register r) % LittleEndian.capacity 1
        = (table.registers.byteOf r).toNat :=
      Nat.mod_eq_of_lt (table.registers.byteOf r).toNat_lt
    have hentry : table.registers.entry? (table.registers.byteOf r) = some r :=
      Assignment.entry?_eq_some_iff.2 (table.registers.byteOf_mem r)
    simp only [Operand.kind, OperandKind.size, hvalue, ByteTable.operand, UInt8.ofNat_toNat, hentry]
  | dword value =>
    have hvalue : table.operandValue (.dword value) % LittleEndian.capacity 4 = value.toNat :=
      Nat.mod_eq_of_lt value.toNat_lt
    simp only [Operand.kind, OperandKind.size, hvalue, ByteTable.operand, UInt32.ofNat_toNat]
  | qword value =>
    have hvalue : table.operandValue (.qword value) % LittleEndian.capacity 8 = value.toNat :=
      Nat.mod_eq_of_lt value.toNat_lt
    simp only [Operand.kind, OperandKind.size, hvalue, ByteTable.operand, UInt64.ofNat_toNat]

/-- The bytes of an instruction are as many as its opcode says. -/
lemma length_encode (table : ByteTable) (opcode : Opcode) (operand : Operand) :
    (table.encode opcode operand).length = opcode.size := by
  simp only [encode, List.length_cons, LittleEndian.length_toBytes, Opcode.size]
  omega

/-- **An instruction is read back from its masked bytes**, wherever they lie in the code, and
decoding leaves the key that masking has left. -/
theorem decode_encode (table : ByteTable) (blob : Blob) {front back : List UInt8} {key : Key}
    {opcode : Opcode} {operand : Operand} (hkind : operand.kind = opcode.operandKind)
    (hblob : blob.bytes.toList
      = front ++ (RollingKey.encrypt key (table.encode opcode operand)).1 ++ back)
    (hsize : front.length + opcode.size ≤ UInt64.size) :
    table.decode blob ⟨UInt64.ofNat front.length, key⟩
      = .ok (opcode, operand, ⟨UInt64.ofNat (front.length + opcode.size),
          (RollingKey.encrypt key (table.encode opcode operand)).2⟩) := by
  -- the three parts of an instruction, each masked from where the part before it ends
  set first := table.opcodes.byteOf opcode with hfirst
  set key₁ := RollingKey.next key first with hkey₁
  set key₂ := RollingKey.next key₁ 0 with hkey₂
  set plain := LittleEndian.toBytes opcode.operandKind.size (table.operandValue operand) with hplain
  have hlength : plain.length = opcode.operandKind.size := LittleEndian.length_toBytes _ _
  have hencrypt : RollingKey.encrypt key (table.encode opcode operand)
      = (RollingKey.mask key first :: RollingKey.mask key₁ 0 ::
          (RollingKey.encrypt key₂ plain).1, (RollingKey.encrypt key₂ plain).2) := rfl
  rw [hencrypt] at hblob ⊢
  rw [Opcode.size] at hsize
  have hblob₁ : blob.bytes.toList = front ++ RollingKey.mask key first ::
      (RollingKey.mask key₁ 0 :: (RollingKey.encrypt key₂ plain).1 ++ back) := by
    simpa using hblob
  have hblob₂ : blob.bytes.toList = (front ++ [RollingKey.mask key first]) ++
      RollingKey.mask key₁ 0 :: ((RollingKey.encrypt key₂ plain).1 ++ back) := by
    simpa using hblob
  have hblob₃ : blob.bytes.toList = (front ++ [RollingKey.mask key first, RollingKey.mask key₁ 0])
      ++ (RollingKey.encrypt key₂ plain).1 ++ back := by
    simpa using hblob
  have hopcode := Cursor.byte?_eq _ hblob₁ (by omega) key
  have hfiller := Cursor.byte?_eq _ hblob₂
    (by simp only [List.length_append, List.length_singleton]; omega) key₁
  have hoperand := Cursor.bytes?_eq _ hblob₃
    (by simp only [List.length_append, List.length_cons, List.length_nil,
          RollingKey.length_encrypt, hlength]; omega) key₂
  simp only [RollingKey.mask_mask, List.length_append, List.length_cons, List.length_nil,
    Nat.zero_add, Nat.add_assoc, Nat.reduceAdd, RollingKey.length_encrypt, hlength,
    RollingKey.decrypt_encrypt] at hopcode hfiller hoperand
  have hentry : table.opcodes.entry? first = some opcode :=
    Assignment.entry?_eq_some_iff.2 (table.opcodes.byteOf_mem opcode)
  have hread := table.operand_operandValue operand
  rw [hkind, ← hplain] at hread
  simp only [decode, hopcode, hentry, ← hkey₁, hfiller, ← hkey₂, hoperand, hread, Except.map,
    Opcode.size]

end ByteTable

/-! ## Operations -/

namespace Assembler

variable {table : ByteTable} {assembler after : Assembler}

/-- An instruction can be appended exactly if its operand is of the kind that the opcode takes;
what is appended are its masked bytes. -/
lemma emit_cases (table : ByteTable) (assembler : Assembler) (opcode : Opcode)
    (operand : Operand) :
    (operand.kind = opcode.operandKind ∧ assembler.emit table opcode operand = .ok { assembler with
      bytes := assembler.bytes
        ++ (RollingKey.encrypt assembler.key (table.encode opcode operand)).1
      key := (RollingKey.encrypt assembler.key (table.encode opcode operand)).2 }) ∨
    (operand.kind ≠ opcode.operandKind ∧ assembler.emit table opcode operand
      = .error (.malformed none (.operandMismatch opcode operand))) := by
  by_cases hkind : operand.kind = opcode.operandKind
  · exact Or.inl ⟨hkind, by rw [emit, if_pos hkind]⟩
  · exact Or.inr ⟨hkind, by rw [emit, if_neg hkind]⟩

/-- An instruction that is appended takes as many bytes as its opcode says. -/
lemma size_of_emit {opcode : Opcode} {operand : Operand}
    (h : assembler.emit table opcode operand = .ok after) :
    after.bytes.size = assembler.bytes.size + opcode.size := by
  obtain ⟨-, hok⟩ | ⟨-, herror⟩ := emit_cases table assembler opcode operand
  · rw [hok, Except.ok.injEq] at h
    rw [← h, ← Array.length_toList, Array.toList_appendList, List.length_append,
      RollingKey.length_encrypt, ByteTable.length_encode, Array.length_toList]
  · rw [herror] at h
    cases h

/-- **An instruction that was appended is read back**, also when the stream has grown since. -/
theorem decodeAt_of_emit {opcode : Opcode} {operand : Operand} {bytes : Array UInt8}
    (added : List UInt8) (h : assembler.emit table opcode operand = .ok after)
    (hbytes : bytes.toList = after.bytes.toList ++ added) (hsize : after.bytes.size ≤ UInt64.size) :
    decodeAt table ⟨bytes⟩ assembler.position assembler.key
      = .ok (⟨assembler.position, opcode, operand⟩, after.key) := by
  rw [size_of_emit h] at hsize
  obtain ⟨hkind, hok⟩ | ⟨-, herror⟩ := emit_cases table assembler opcode operand
  · rw [hok, Except.ok.injEq] at h
    rw [← h, Array.toList_appendList] at hbytes
    have hdecode := table.decode_encode ⟨bytes⟩ hkind hbytes
      (by rw [Array.length_toList]; exact hsize)
    rw [Array.length_toList] at hdecode
    simp only [decodeAt, position, hdecode, ← h]
  · rw [herror] at h
    cases h

/-- An operation only adds bytes at the end of the stream. -/
lemma perform_extends {operation : Operation} {value : Option Offset}
    (h : assembler.perform table operation = .ok (value, after)) :
    ∃ added, after.bytes.toList = assembler.bytes.toList ++ added := by
  cases operation with
  | emit opcode operand =>
    simp only [perform, bind_eq_ok_iff, pure_eq_ok_iff, Prod.mk.injEq] at h
    obtain ⟨_, hemit, -, rfl⟩ := h
    obtain ⟨-, hok⟩ | ⟨-, herror⟩ := emit_cases table assembler opcode operand
    · rw [hok, Except.ok.injEq] at hemit
      exact ⟨_, by rw [← hemit, Array.toList_appendList]⟩
    · rw [herror] at hemit
      cases hemit
  | label name | setKey key =>
    simp only [perform, Except.ok.injEq, Prod.mk.injEq] at h
    exact ⟨[], by rw [← h.2, List.append_nil]; rfl⟩
  | raw bytes | switchTable entries | padTo offset =>
    simp only [perform, padTo, Except.ok.injEq, Prod.mk.injEq] at h
    exact ⟨_, by rw [← h.2, raw, Array.toList_appendList]⟩

end Assembler

/-! ## Sessions -/

namespace Pass

variable {table : ByteTable}

/-- A statement that succeeds only adds bytes at the end of the stream. -/
lemma execute_extends {labels : Labels} {pass after : Pass} {statement : Statement}
    {value : Option Offset} (h : pass.execute table labels statement = .ok (value, after)) :
    ∃ added, after.assembler.bytes.toList = pass.assembler.bytes.toList ++ added := by
  have hperform : ∀ {operation : Assembler.Operation},
      pass.perform table operation = .ok (value, after) →
      ∃ added, after.assembler.bytes.toList = pass.assembler.bytes.toList ++ added := by
    intro operation h
    simp only [perform, bind_eq_ok_iff, Prod.exists, pure_eq_ok_iff, Prod.mk.injEq] at h
    obtain ⟨_, _, hperform, rfl, rfl⟩ := h
    exact Assembler.perform_extends hperform
  cases statement with
  | save slot =>
    simp only [execute, Except.ok.injEq, Prod.mk.injEq] at h
    exact ⟨[], by rw [← h.2, List.append_nil]⟩
  | emit | label | setKey | raw | switchTable | padTo => exact hperform h

/-- **The stream of a pass only grows at its end.** -/
theorem runThrough_extends (table : ByteTable) (pass : Pass) (program : List Statement) :
    ∃ added, (pass.runThrough table program).2.assembler.bytes.toList
      = pass.assembler.bytes.toList ++ added := by
  induction program generalizing pass with
  | nil => exact ⟨[], by rw [List.append_nil]; rfl⟩
  | cons statement rest ih =>
    cases hstep : pass.execute table pass.assembler.labels statement with
    | error error =>
      simp only [runThrough, hstep]
      exact ih pass
    | ok step =>
      obtain ⟨value, after⟩ := step
      simp only [runThrough, hstep]
      obtain ⟨first, hfirst⟩ := execute_extends hstep
      obtain ⟨others, hothers⟩ := ih after
      exact ⟨first ++ others, by rw [hothers, hfirst, List.append_assoc]⟩

/-- A pass over two programs is a pass over the first and then over the second. -/
lemma runThrough_append (pass : Pass) (past future : List Statement) :
    pass.runThrough table (past ++ future) =
      ((pass.runThrough table past).1
          ++ ((pass.runThrough table past).2.runThrough table future).1,
        ((pass.runThrough table past).2.runThrough table future).2) := by
  induction past generalizing pass with
  | nil => rfl
  | cons statement rest ih =>
    cases hstep : pass.execute table pass.assembler.labels statement with
    | error error => simp only [List.cons_append, runThrough, hstep, ih]
    | ok step => simp only [List.cons_append, runThrough, hstep, ih]

/-- A pass answers each of its statements. -/
lemma length_runThrough (pass : Pass) (program : List Statement) :
    (pass.runThrough table program).1.length = program.length := by
  induction program generalizing pass with
  | nil => rfl
  | cons statement rest ih =>
    cases hstep : pass.execute table pass.assembler.labels statement with
    | error error => simp only [runThrough, hstep, List.length_cons, ih]
    | ok step => simp only [runThrough, hstep, List.length_cons, ih]

/-- What a pass answers to a statement in the middle of its program, and where it goes on. -/
lemma runThrough_middle (pass : Pass) (past future : List Statement) (statement : Statement)
    (answer : Except Error (Option Offset)) (after : Pass)
    (hanswer : match (pass.runThrough table past).2.execute table
        (pass.runThrough table past).2.assembler.labels statement with
      | .ok (value, next) => answer = .ok value ∧ after = next
      | .error error => answer = .error error ∧ after = (pass.runThrough table past).2) :
    (pass.runThrough table (past ++ statement :: future)).1[past.length]? = some (answer, after) ∧
      (pass.runThrough table (past ++ statement :: future)).2
        = (after.runThrough table future).2 := by
  have hlength : past.length = (pass.runThrough table past).1.length :=
    (length_runThrough pass past).symm
  rw [runThrough_append, hlength, List.getElem?_append_right (Nat.le_refl _), Nat.sub_self]
  split at hanswer
  · next value next hstep =>
    obtain ⟨rfl, rfl⟩ := hanswer
    simp only [runThrough, hstep, List.getElem?_cons_zero, and_self]
  · next error hstep =>
    obtain ⟨rfl, rfl⟩ := hanswer
    simp only [runThrough, hstep, List.getElem?_cons_zero, and_self]

/-- **Whatever a pass has written is read back in the end.**  Take any pass that goes on after
errors, and an instruction somewhere in its program.  The instruction is refused exactly if its
operand is not of the kind that the opcode takes, and then the pass is left as it was.  Otherwise it
is written where the stream ends, and the stream grows by its size; and decoding at that place under
the key before it, in what the pass has written in the end and whatever bytes follow, gives the
instruction and the key behind it. -/
theorem runThrough_emit (table : ByteTable) (key : Key) (past future : List Statement)
    (opcode : Opcode) (source : OperandSource) :
    let before := ((start key).runThrough table past).2
    let operand := source.resolve before.assembler.labels.offset
    let instruction : Instruction := ⟨before.assembler.position, opcode, operand⟩
    let session := (start key).runThrough table (past ++ .emit opcode source :: future)
    ∃ answer after, session.1[past.length]? = some (answer, after) ∧
      ((∃ error, answer = .error error) ↔ operand.kind ≠ opcode.operandKind) ∧
      (operand.kind ≠ opcode.operandKind → after = before) ∧
      ∀ value, answer = .ok value →
        value = some instruction.offset ∧
        after.assembler.bytes.size = before.assembler.bytes.size + opcode.size ∧
        instruction.next = after.assembler.position ∧
        (session.2.assembler.bytes.size < UInt64.size → ∀ extra : List UInt8,
          decodeAt table ⟨session.2.assembler.bytes ++ extra⟩ instruction.offset
            before.assembler.key = .ok (instruction, after.assembler.key)) := by
  intro before operand instruction session
  cases hemit : before.assembler.emit table opcode operand with
  | error error =>
    have hkind : operand.kind ≠ opcode.operandKind := by
      obtain ⟨-, hok⟩ | ⟨hkind, -⟩ := Assembler.emit_cases table before.assembler opcode operand
      · rw [hok] at hemit
        cases hemit
      · exact hkind
    have hstep : before.execute table before.assembler.labels (.emit opcode source)
        = .error error := by
      simp only [execute, perform, Assembler.perform, operand, hemit]
      rfl
    obtain ⟨hanswer, -⟩ := runThrough_middle (start key) past future (.emit opcode source)
      (.error error) before (by rw [hstep]; exact ⟨rfl, rfl⟩)
    refine ⟨.error error, before, hanswer, ⟨fun _ => hkind, fun _ => ⟨error, rfl⟩⟩,
      fun _ => rfl, ?_⟩
    intro value hvalue
    cases hvalue
  | ok assembler =>
    have hkind : operand.kind = opcode.operandKind := by
      obtain ⟨hkind, -⟩ | ⟨-, herror⟩ := Assembler.emit_cases table before.assembler opcode operand
      · exact hkind
      · rw [herror] at hemit
        cases hemit
    have hstep : before.execute table before.assembler.labels (.emit opcode source)
        = .ok (some before.assembler.position, { before with assembler }) := by
      simp only [execute, perform, Assembler.perform, operand, hemit]
      rfl
    obtain ⟨hanswer, hlast⟩ := runThrough_middle (start key) past future (.emit opcode source)
      (.ok (some before.assembler.position)) { before with assembler }
      (by rw [hstep]; exact ⟨rfl, rfl⟩)
    have hsize := Assembler.size_of_emit hemit
    refine ⟨_, _, hanswer, by simp [hkind], fun h => absurd hkind h, ?_⟩
    intro value hvalue
    refine ⟨(Except.ok.inj hvalue).symm, hsize, ?_, ?_⟩
    · -- both places are the length of the stream before the instruction plus its size
      rw [Assembler.position, hsize, UInt64.ofNat_add]
      rfl
    · intro hbound extra
      obtain ⟨added, hadded⟩ := runThrough_extends table { before with assembler } future
      rw [← hlast] at hadded
      have hle : assembler.bytes.size ≤ session.2.assembler.bytes.size := by
        rw [← Array.length_toList, ← Array.length_toList, hadded, List.length_append]
        exact Nat.le_add_right _ _
      refine Assembler.decodeAt_of_emit (added ++ extra) hemit ?_
        (Nat.le_of_lt (Nat.lt_of_le_of_lt hle hbound))
      rw [Array.toList_appendList, hadded, List.append_assoc]

/-- A pass with everything in it: a key that is replaced, a label, an instruction that is refused,
data in the clear, and an instruction whose operand is the place of the label. -/
theorem runThrough_emit_labelled :
    let past : List Statement := [.emit (.pushi .qword) (.qword fun _ => 0x0123456789ABCDEF),
      .label "here", .emit .ret (.dword fun _ => 1), .raw [1, 2, 3], .setKey (.constant 0x5EED),
      .padTo 16]
    let future : List Statement := [.switchTable [fun _ => 4, fun _ => -2], .emit .nop .none]
    let session := (start 7).runThrough .sequential
      (past ++ .emit (.pushi .dword) (.dword fun offsets => (offsets "here").toUInt32) :: future)
    ∃ last, decodeAt .sequential ⟨session.2.assembler.bytes ++ [(0xFF : UInt8)]⟩ 16 0x5EED
      = .ok (⟨16, .pushi .dword, .dword 10⟩, last) := by
  intro past future session
  obtain ⟨answer, after, -, hrefused, -, hwritten⟩ := runThrough_emit .sequential 7 past future
    (.pushi .dword) (.dword fun offsets => (offsets "here").toUInt32)
  cases answer with
  | error error => exact absurd rfl (hrefused.1 ⟨error, rfl⟩)
  | ok value =>
    obtain ⟨-, -, -, hdecode⟩ := hwritten value rfl
    exact ⟨_, hdecode (by decide +kernel) [0xFF]⟩

end Pass

end KeyedVM
