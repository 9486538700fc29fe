import KeyedVM.Proofs.Assembler.RoundTrip

set_option relaxedAutoImplicit false
set_option autoImplicit false

/-!
# The two passes of the assembler

The first pass knows no labels: every place and every key reads as zero, so its operands, its keys
and all the bytes it masks with them differ from those of the second pass.  What it finds out about
places is right all the same.  Whether a statement is refused, and how long the stream is behind it,
depend on how long the stream was before and on nothing else: the kind of an operand is fixed, every
instruction has the size that its opcode says, and padding only looks at the length of the stream.

## Main definitions

* `KeyedVM.Statement.stop?` — where a statement ends that starts at a given length of the stream;
* `KeyedVM.Statement.extent?` — the same for the statements of a program.

## Main results

* `KeyedVM.Pass.size_execute`, `KeyedVM.Pass.size_run` — one statement and a whole pass end where
  the layout says, whatever the labels, the table and the key;
* `KeyedVM.Pass.offset_of_run` — a pass records for each label where it has defined it last;
* `KeyedVM.assemble_resolves` — the labels that the second pass takes from the first are where the
  second pass puts them.
-/

namespace KeyedVM

/-! ## The layout of a program -/

/-- The kind of the operand, whatever the places of labels are. -/
def OperandSource.kind : OperandSource → OperandKind
  | .none => .none
  | .register _ => .register
  | .dword _ => .dword
  | .qword _ => .qword

/-- Putting the offset of a label in its place keeps the kind of the operand. -/
lemma OperandSource.kind_resolve (source : OperandSource) (offsets : String → Offset) :
    (source.resolve offsets).kind = source.kind := by
  cases source <;> rfl

namespace Statement

/-- The length of the stream behind a statement, from its length before; none if the statement is
refused. -/
def stop? (size : Nat) : Statement → Option Nat
  | .emit opcode operand =>
    if operand.kind = opcode.operandKind then some (size + opcode.size) else none
  | .label _ | .setKey _ | .save _ => some size
  | .raw bytes => some (size + bytes.length)
  | .switchTable entries => some (size + (2 + 4 * entries.length))
  | .padTo offset => some (max size offset.toNat)

/-- The length of the stream behind the statements of a program; none if one of them is refused. -/
def extent? (size : Nat) (program : List Statement) : Option Nat :=
  program.foldlM stop? size

end Statement

namespace Assembler

/-- The entries of a switch table take four bytes each. -/
lemma length_switchEntries (entries : List Int32) :
    (entries.flatMap fun entry => IntFormat.i32.encode entry.toInt).length
      = 4 * entries.length := by
  induction entries with
  | nil => rfl
  | cons entry rest ih =>
    rw [List.flatMap_cons, List.length_append, ih, IntFormat.length_encode, List.length_cons]
    show 4 + 4 * rest.length = _
    omega

/-- A switch table takes two bytes for its count and four for each entry. -/
lemma length_switchBytes (entries : List Int32) :
    (switchBytes entries).length = 2 + 4 * entries.length := by
  rw [switchBytes, List.length_append, length_switchEntries, IntFormat.length_encode]
  rfl

/-- Raw bytes lengthen the program by their number. -/
lemma size_raw (assembler : Assembler) (bytes : List UInt8) :
    (assembler.raw bytes).bytes.size = assembler.bytes.size + bytes.length := by
  rw [raw, ← Array.length_toList, Array.toList_appendList, List.length_append, Array.length_toList]

/-- Padding lengthens the program up to its end, or not at all. -/
lemma size_padTo (assembler : Assembler) (offset : Offset) :
    (assembler.padTo offset).bytes.size = max assembler.bytes.size offset.toNat := by
  rw [padTo, size_raw, List.length_replicate]
  omega

end Assembler

/-! ## Passes follow the layout -/

namespace Pass

variable {table : ByteTable} {labels : Labels} {pass last : Pass} {program : List Statement}
  {steps : List (Option Offset × Pass)}

/-- **A statement ends where the layout says**, and is refused if the layout says so, whatever the
labels, the table and the key are. -/
lemma size_execute (table : ByteTable) (labels : Labels) (pass : Pass) (statement : Statement) :
    (pass.execute table labels statement).toOption.map (·.2.assembler.bytes.size)
      = statement.stop? pass.assembler.bytes.size := by
  cases statement with
  | emit opcode operand =>
    rw [Statement.stop?, ← operand.kind_resolve labels.offset]
    obtain ⟨hkind, hemit⟩ | ⟨hkind, hemit⟩ :=
      Assembler.emit_cases table pass.assembler opcode (operand.resolve labels.offset)
    · rw [if_pos hkind, ← Assembler.size_of_emit hemit]
      simp only [execute, perform, Assembler.perform, hemit]
      rfl
    · rw [if_neg hkind]
      simp only [execute, perform, Assembler.perform, hemit]
      rfl
  | label name | setKey source | save slot => rfl
  | raw bytes => exact congrArg some (Assembler.size_raw _ _)
  | switchTable entries =>
    rw [Statement.stop?, ← List.length_map fun entry => entry labels.offset,
      ← Assembler.length_switchBytes]
    exact congrArg some (Assembler.size_raw _ _)
  | padTo offset => exact congrArg some (Assembler.size_padTo _ _)

/-- A pass over a statement and others succeeds exactly if the statement does and the pass over the
others from there. -/
lemma run_cons_eq_ok_iff {statement : Statement} :
    pass.run table labels (statement :: program) = .ok (steps, last) ↔
      ∃ value after rest, pass.execute table labels statement = .ok (value, after) ∧
        after.run table labels program = .ok (rest, last) ∧ steps = (value, after) :: rest := by
  simp only [run, bind_eq_ok_iff, pure_eq_ok_iff, Prod.exists, Prod.mk.injEq]
  constructor
  · rintro ⟨value, after, hstep, rest, _, hrest, rfl, rfl⟩
    exact ⟨value, after, rest, hstep, hrest, rfl⟩
  · rintro ⟨value, after, rest, hstep, hrest, rfl⟩
    exact ⟨value, after, hstep, rest, last, hrest, rfl, rfl⟩

/-- **A pass ends where the layout says**, and fails if the layout says so. -/
lemma size_run (table : ByteTable) (labels : Labels) (pass : Pass) (program : List Statement) :
    (pass.run table labels program).toOption.map (·.2.assembler.bytes.size)
      = Statement.extent? pass.assembler.bytes.size program := by
  induction program generalizing pass with
  | nil => rfl
  | cons statement rest ih =>
    rw [Statement.extent?, List.foldlM_cons, ← size_execute table labels pass statement, run]
    cases pass.execute table labels statement with
    | error error => rfl
    | ok step =>
      obtain ⟨value, after⟩ := step
      refine Eq.trans ?_ (ih after)
      show Option.map _ (Except.toOption (after.run table labels rest >>= _)) = _
      cases after.run table labels rest <;> rfl

/-- A pass succeeds exactly if the layout says so. -/
lemma isOk_run (table : ByteTable) (labels : Labels) (pass : Pass) (program : List Statement) :
    (pass.run table labels program).isOk
      = (Statement.extent? pass.assembler.bytes.size program).isSome := by
  rw [← size_run table labels]
  cases pass.run table labels program <;> rfl

/-- A pass that succeeds leaves a program of the extent that its statements have. -/
lemma extent?_of_run (h : pass.run table labels program = .ok (steps, last)) :
    Statement.extent? pass.assembler.bytes.size program = some last.assembler.bytes.size := by
  rw [← size_run table labels, h]
  rfl

/-- A pass over two programs is a pass over the first and then over the second. -/
lemma run_append_eq_ok_iff {past future : List Statement} :
    pass.run table labels (past ++ future) = .ok (steps, last) ↔
      ∃ done middle rest, pass.run table labels past = .ok (done, middle) ∧
        middle.run table labels future = .ok (rest, last) ∧ steps = done ++ rest := by
  induction past generalizing pass steps with
  | nil => simp [run]
  | cons statement past ih =>
    simp only [List.cons_append, run_cons_eq_ok_iff, ih]
    constructor
    · rintro ⟨value, after, _, hstep, ⟨done, middle, rest, hdone, hrest, rfl⟩, rfl⟩
      exact ⟨_, middle, rest, ⟨value, after, done, hstep, hdone, rfl⟩, hrest, rfl⟩
    · rintro ⟨_, middle, rest, ⟨value, after, done, hstep, hdone, rfl⟩, hrest, rfl⟩
      exact ⟨value, after, _, hstep, ⟨done, middle, rest, hdone, hrest, rfl⟩, rfl⟩

/-- A pass that succeeds has answered each of its statements. -/
lemma length_of_run (h : pass.run table labels program = .ok (steps, last)) :
    steps.length = program.length := by
  induction program generalizing pass steps with
  | nil =>
    simp only [run, Except.ok.injEq, Prod.mk.injEq] at h
    rw [← h.1]
    rfl
  | cons statement rest ih =>
    obtain ⟨value, after, tail, -, hrest, rfl⟩ := run_cons_eq_ok_iff.1 h
    rw [List.length_cons, ih hrest, List.length_cons]

/-! ## Labels -/

/-- A statement that defines another label or none leaves what is known of a label. -/
lemma lookup_of_execute {statement : Statement} {name : String} {value : Option Offset}
    (h : pass.execute table labels statement = .ok (value, last))
    (hname : statement ≠ .label name) :
    last.assembler.labels.lookup name = pass.assembler.labels.lookup name := by
  cases statement with
  | emit opcode operand =>
    obtain ⟨-, hemit⟩ | ⟨-, hemit⟩ :=
      Assembler.emit_cases table pass.assembler opcode (operand.resolve labels.offset)
    · simp only [execute, perform, Assembler.perform, hemit, bind_eq_ok_iff, pure_eq_ok_iff,
        Prod.exists, Prod.mk.injEq, Except.ok.injEq] at h
      obtain ⟨_, _, ⟨_, rfl, -, rfl⟩, -, rfl⟩ := h
      rfl
    · simp [execute, perform, Assembler.perform, hemit] at h
  | label other =>
    obtain ⟨-, rfl⟩ := Prod.mk.inj (Except.ok.inj h)
    have hother : (name == other) = false := beq_false_of_ne fun heq => hname (heq ▸ rfl)
    show List.lookup name ((other, _) :: pass.assembler.labels) = _
    rw [List.lookup_cons, hother]
  | setKey source | save slot | raw bytes | switchTable entries | padTo offset =>
    obtain ⟨-, rfl⟩ := Prod.mk.inj (Except.ok.inj h)
    rfl

/-- A program that does not define a label leaves what is known of it. -/
lemma lookup_of_run {name : String} (h : pass.run table labels program = .ok (steps, last))
    (hname : .label name ∉ program) :
    last.assembler.labels.lookup name = pass.assembler.labels.lookup name := by
  induction program generalizing pass steps with
  | nil =>
    simp only [run, Except.ok.injEq, Prod.mk.injEq] at h
    rw [h.2]
  | cons statement rest ih =>
    obtain ⟨value, after, tail, hstep, hrest, -⟩ := run_cons_eq_ok_iff.1 h
    rw [ih hrest fun hmem => hname (List.mem_cons_of_mem _ hmem),
      lookup_of_execute hstep fun heq => hname (heq ▸ List.mem_cons_self)]

/-- **A pass records for each label where it has defined it last.**  Up to the last definition the
pass runs as it does over the statements before it alone; the definition answers with the place
that is reached there, and this place is known for the label in the end. -/
lemma offset_of_run {name : String} {past future : List Statement}
    (h : pass.run table labels (past ++ .label name :: future) = .ok (steps, last))
    (hname : .label name ∉ future) :
    ∃ done before, pass.run table labels past = .ok (done, before) ∧
      (steps[past.length]?.map (·.1)) = some (some before.assembler.position) ∧
      last.assembler.labels.offset name = before.assembler.position := by
  obtain ⟨done, before, _, hdone, hrest, rfl⟩ := run_append_eq_ok_iff.1 h
  obtain ⟨value, after, rest, hstep, hfuture, rfl⟩ := run_cons_eq_ok_iff.1 hrest
  obtain ⟨rfl, rfl⟩ := Prod.mk.inj (Except.ok.inj hstep)
  refine ⟨done, before, hdone, ?_, ?_⟩
  · rw [← length_of_run hdone, List.getElem?_append_right (Nat.le_refl _), Nat.sub_self]
    rfl
  · rw [Labels.offset, lookup_of_run hfuture hname]
    show ((List.lookup name ((name, _) :: before.assembler.labels)).elim 0 _) = _
    rw [List.lookup_cons, beq_self_eq_true]
    rfl

end Pass

/-! ## Both passes -/

open Pass in
/-- **The second pass of the assembler defines each label where the first pass has found it.**
Over every part of the program from its start, a pass with any labels and the first pass both fail
or both succeed; so both complete the program or both fail at the same statement.  Where they
succeed, their streams are equally long, so every statement that is executed starts and ends at the
same place in both.  If the program can be assembled, then each label is known to the second pass as
the place where the second pass comes to define it last, and labels that the program does not define
are not known. -/
theorem assemble_resolves (table : ByteTable) (key : Key) (program : List Statement) :
    (∀ (labels : Labels) (past : List Statement), past <+: program →
      ((start key).run table labels past).isOk = ((start key).run table [] past).isOk ∧
      ∀ steps steps' one other, (start key).run table [] past = .ok (steps, one) →
        (start key).run table labels past = .ok (steps', other) →
        one.assembler.bytes.size = other.assembler.bytes.size) ∧
    (assemble table key program).isOk = ((start key).run table [] program).isOk ∧
    ∀ steps last, assemble table key program = .ok (steps, last) →
      ∃ draft first, (start key).run table [] program = .ok (draft, first) ∧
        (start key).run table first.assembler.labels program = .ok (steps, last) ∧
        (∀ name, .label name ∉ program → first.assembler.labels.lookup name = none) ∧
        ∀ name past future, program = past ++ .label name :: future → .label name ∉ future →
          ∃ done before,
            (start key).run table first.assembler.labels past = .ok (done, before) ∧
            (steps[past.length]?.map (·.1)) = some (some before.assembler.position) ∧
            last.assembler.labels.offset name = before.assembler.position ∧
            first.assembler.labels.offset name = before.assembler.position := by
  have hisOk : ∀ labels past, ((start key).run table labels past).isOk
      = ((start key).run table [] past).isOk := by
    intro labels past
    rw [isOk_run, isOk_run]
  refine ⟨?_, ?_, ?_⟩
  · intro labels past _
    refine ⟨hisOk labels past, ?_⟩
    intro steps steps' one other hone hother
    exact Option.some.inj ((extent?_of_run hone).symm.trans (extent?_of_run hother))
  · cases hfirst : (start key).run table [] program with
    | error error =>
      simp only [assemble, hfirst]
      rfl
    | ok outcome =>
      have hsecond := hisOk outcome.2.assembler.labels program
      rw [hfirst] at hsecond
      simp only [assemble, hfirst]
      exact hsecond
  · intro steps last h
    obtain ⟨⟨draft, first⟩, hfirst, hsecond⟩ := bind_eq_ok_iff.1 h
    refine ⟨draft, first, hfirst, hsecond, fun name hname => lookup_of_run hfirst hname, ?_⟩
    rintro name past future rfl hname
    obtain ⟨done, before, hdone, hvalue, hlast⟩ := offset_of_run hsecond hname
    obtain ⟨draftDone, draftBefore, hdraft, -, hoffset⟩ := offset_of_run hfirst hname
    -- both passes stand at the same place when they come to the definition
    have hsize : draftBefore.assembler.bytes.size = before.assembler.bytes.size :=
      Option.some.inj ((extent?_of_run hdraft).symm.trans (extent?_of_run hdone))
    refine ⟨done, before, hdone, hvalue, hlast, ?_⟩
    rw [hoffset, Assembler.position, hsize]
    rfl

/-- A program that refers to a label before it defines it, defines it twice, takes its key up again
at the label and writes data in between. -/
def Statement.forward : List Statement :=
  [.emit (.pushi .dword) (.dword fun offsets => (offsets "end").toUInt32 - 1), .label "end",
    .emit .jmp .none, .save "here", .raw [1, 2, 3], .padTo 32, .setKey (.atLabel "end"),
    .switchTable [fun offsets => (offsets "end").toUInt32.toInt32, fun _ => -2], .label "end",
    .setKey (.saved "here"), .emit .ret .none]

open Pass in
/-- The label is found at its second definition, behind the padding and the switch table, although
the bytes of the passes differ; and with an operand of the wrong kind at the end of the program, a
pass fails whatever it knows of labels. -/
theorem assemble_resolves_forward :
    (∃ steps last draft first, assemble .sequential 7 Statement.forward = .ok (steps, last) ∧
      (start 7).run .sequential [] Statement.forward = .ok (draft, first) ∧
      first.assembler.labels.offset "end" = 42 ∧ last.assembler.labels.offset "end" = 42 ∧
      first.assembler.bytes ≠ last.assembler.bytes) ∧
    ∀ labels, ((start 7).run .sequential labels
      (Statement.forward ++ [.emit .ret (.dword fun _ => 0)])).isOk = false := by
  constructor
  · obtain ⟨⟨steps, last⟩, hok, hplace⟩ := exists_eq_ok
      (x := assemble .sequential 7 Statement.forward)
      (p := fun outcome => outcome.2.assembler.labels.offset "end" = 42) (by decide +kernel)
    obtain ⟨-, -, hlabels⟩ := assemble_resolves .sequential 7 Statement.forward
    obtain ⟨draft, first, hfirst, -, -, hplaces⟩ := hlabels steps last hok
    obtain ⟨_, before, -, -, hlast, hsame⟩ := hplaces "end" (Statement.forward.take 8)
      [.setKey (.saved "here"), .emit .ret .none] rfl (by simp)
    have hbytes : ((start 7).run .sequential [] Statement.forward).toOption.map
          (·.2.assembler.bytes)
        ≠ (assemble .sequential 7 Statement.forward).toOption.map (·.2.assembler.bytes) := by
      decide +kernel
    rw [hfirst, hok] at hbytes
    exact ⟨steps, last, draft, first, hok, hfirst, hsame.trans (hlast.symm.trans hplace), hplace,
      fun hequal => hbytes (congrArg some hequal)⟩
  · intro labels
    obtain ⟨hpasses, -, -⟩ := assemble_resolves .sequential 7
      (Statement.forward ++ [.emit .ret (.dword fun _ => 0)])
    rw [(hpasses labels _ (List.prefix_refl _)).1]
    decide +kernel

end KeyedVM
