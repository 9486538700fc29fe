import KeyedVM.Proofs.Assembler.Passes
import Mathlib.Data.UInt
import Mathlib.Tactic.Ring

set_option relaxedAutoImplicit false
set_option autoImplicit false

/-!
# Keys drift apart between the passes

The second pass of the assembler takes the places and the keys of labels from the first pass.  The
places are right, but the keys need not be: every plain byte enters the key, and the bytes of an
operand that depends on a label are different in the two passes.  From there on the keys of the two
passes drift apart, until both take up the same key again.  How far they are apart behind a part of
a program can be computed from the program and the labels.

## Main definitions

* `KeyedVM.RollingKey.digest` — what plain bytes add to the key;
* `KeyedVM.Drift` — how far the keys of the second pass are ahead of those of the first;
* `KeyedVM.Drift.along` — the drift behind the statements of a program;
* `KeyedVM.Statement.IgnoresLabels` — a statement has the same effect on the key in both passes.

## Main results

* `KeyedVM.RollingKey.key_encrypt` — the key behind plain bytes is a linear function of the key
  before them;
* `KeyedVM.Drift.Between.execute`, `KeyedVM.Drift.Between.run` — one statement and a whole program
  make the passes drift apart as computed;
* `KeyedVM.assemble_drifts` — the key that the second pass is told for a label is the key in force
  there less the drift;
* `KeyedVM.assemble_misleads` — a program whose second pass is told a wrong key.
-/

namespace KeyedVM

/-! ## Keys and plain bytes -/

namespace RollingKey

/-- What plain bytes add to the key. -/
def digest (plain : List UInt8) : Key := (encrypt 0 plain).2

open scoped UInt32.CommRing in
/-- **The key behind plain bytes is a linear function of the key before them.** -/
lemma key_encrypt (key : Key) (plain : List UInt8) :
    (encrypt key plain).2 = key * 7 ^ plain.length + digest plain := by
  induction plain generalizing key with
  | nil => simp [encrypt, digest]
  | cons byte rest ih =>
    have hdigest : digest (byte :: rest) = (encrypt (next 0 byte) rest).2 := rfl
    have hencrypt : (encrypt key (byte :: rest)).2 = (encrypt (next key byte) rest).2 := rfl
    rw [hencrypt, hdigest, ih, ih, List.length_cons, next, next]
    ring

end RollingKey

/-! ## Drift -/

/-- How far the keys of the second pass are ahead of those of the first: the key in force, and the
key in each slot. -/
structure Drift where
  key : Key := 0
  saved : String → Key := fun _ => 0

namespace Drift

/-- The drift behind a statement.  An operand that the labels change adds to it, a constant key ends
it, and a label's key, which the first pass does not know, sets it. -/
def after (table : ByteTable) (labels : Labels) (drift : Drift) : Statement → Drift
  | .emit opcode operand => { drift with
      key := drift.key * 7 ^ opcode.size
        + (RollingKey.digest (table.encode opcode (operand.resolve labels.offset))
          - RollingKey.digest (table.encode opcode (operand.resolve fun _ => 0))) }
  | .setKey (.constant _) => { drift with key := 0 }
  | .setKey (.atLabel name) => { drift with key := labels.key name }
  | .setKey (.saved slot) => { drift with key := drift.saved slot }
  | .save slot => { drift with
      saved := fun other => if other = slot then drift.key else drift.saved other }
  | .label _ | .raw _ | .switchTable _ | .padTo _ => drift

/-- The drift behind the statements of a program, which both passes start under the same key. -/
def along (table : ByteTable) (labels : Labels) (program : List Statement) : Drift :=
  program.foldl (after table labels) {}

end Drift

namespace Pass

variable {table : ByteTable} {labels : Labels} {pass next : Pass} {value : Option Offset}

/-- The key behind a statement. -/
def keyAfter (table : ByteTable) (labels : Labels) (pass : Pass) : Statement → Key
  | .emit opcode operand => pass.assembler.key * 7 ^ opcode.size
      + RollingKey.digest (table.encode opcode (operand.resolve labels.offset))
  | .setKey source => pass.resolveKey labels source
  | .label _ | .save _ | .raw _ | .switchTable _ | .padTo _ => pass.assembler.key

/-- The saved keys behind a statement. -/
def savedAfter (pass : Pass) : Statement → List (String × Key)
  | .save slot => (slot, pass.assembler.key) :: pass.saved
  | _ => pass.saved

/-- What a statement does to the keys of a pass. -/
lemma keys_of_execute {statement : Statement}
    (h : pass.execute table labels statement = .ok (value, next)) :
    next.assembler.key = pass.keyAfter table labels statement ∧
      next.saved = pass.savedAfter statement := by
  cases statement with
  | emit opcode operand =>
    obtain ⟨-, hemit⟩ | ⟨-, hemit⟩ :=
      Assembler.emit_cases table pass.assembler opcode (operand.resolve labels.offset)
    · simp only [execute, perform, Assembler.perform, hemit, bind_eq_ok_iff, pure_eq_ok_iff,
        Prod.exists, Prod.mk.injEq, Except.ok.injEq] at h
      obtain ⟨_, _, ⟨_, rfl, -, rfl⟩, -, rfl⟩ := h
      refine ⟨?_, rfl⟩
      show (RollingKey.encrypt pass.assembler.key _).2 = _
      rw [RollingKey.key_encrypt, ByteTable.length_encode]
      rfl
    · simp [execute, perform, Assembler.perform, hemit] at h
  | label name | setKey source | save slot | raw bytes | switchTable entries | padTo offset =>
    obtain ⟨-, rfl⟩ := Prod.mk.inj (Except.ok.inj h)
    exact ⟨rfl, rfl⟩

end Pass

namespace Drift

variable {table : ByteTable} {labels : Labels} {drift : Drift} {first second : Pass}

/-- The keys of a second pass are ahead of those of a first one by a drift. -/
structure Between (drift : Drift) (first second : Pass) : Prop where
  key : second.assembler.key = first.assembler.key + drift.key
  saved : ∀ slot, (second.saved.lookup slot).getD 0
    = (first.saved.lookup slot).getD 0 + drift.saved slot

/-- Both passes start under the same key. -/
lemma between_start (key : Key) : Between {} (.start key) (.start key) :=
  ⟨(UInt32.add_zero _).symm, fun _ => rfl⟩

open scoped UInt32.CommRing in
/-- **A statement makes the passes drift apart as computed.** -/
lemma Between.execute {first' second' : Pass} {value value' : Option Offset}
    {statement : Statement} (h : drift.Between first second)
    (hfirst : first.execute table [] statement = .ok (value, first'))
    (hsecond : second.execute table labels statement = .ok (value', second')) :
    (drift.after table labels statement).Between first' second' := by
  obtain ⟨hkey, hsaved⟩ := Pass.keys_of_execute hfirst
  obtain ⟨hkey', hsaved'⟩ := Pass.keys_of_execute hsecond
  refine ⟨?_, fun slot => ?_⟩
  · rw [hkey, hkey']
    cases statement with
    | emit opcode operand =>
      have hnone : Labels.offset [] = fun _ => 0 := rfl
      simp only [Pass.keyAfter, after, h.key, hnone]
      ring
    | setKey source =>
      cases source with
      | constant key => exact (UInt32.add_zero key).symm
      | atLabel name => exact (UInt32.zero_add _).symm
      | saved slot => exact h.saved slot
    | label name | save slot | raw bytes | switchTable entries | padTo offset => exact h.key
  · rw [hsaved, hsaved']
    cases statement with
    | save other =>
      simp only [Pass.savedAfter, after, List.lookup_cons]
      by_cases hslot : slot = other
      · simp [hslot, h.key]
      · rw [beq_false_of_ne hslot, if_neg hslot]
        exact h.saved slot
    | setKey source => cases source <;> exact h.saved slot
    | emit | label | raw | switchTable | padTo => exact h.saved slot

/-- **A program makes the passes drift apart as computed.** -/
lemma Between.run {program : List Statement} {steps steps' : List (Option Offset × Pass)}
    {last last' : Pass} (h : drift.Between first second)
    (hfirst : first.run table [] program = .ok (steps, last))
    (hsecond : second.run table labels program = .ok (steps', last')) :
    (program.foldl (after table labels) drift).Between last last' := by
  induction program generalizing drift first second steps steps' with
  | nil =>
    simp only [Pass.run, Except.ok.injEq, Prod.mk.injEq] at hfirst hsecond
    rw [← hfirst.2, ← hsecond.2]
    exact h
  | cons statement rest ih =>
    obtain ⟨value, one, tail, hstep, hrest, -⟩ := Pass.run_cons_eq_ok_iff.1 hfirst
    obtain ⟨value', other, tail', hstep', hrest', -⟩ := Pass.run_cons_eq_ok_iff.1 hsecond
    exact ih (h.execute hstep hstep') hrest hrest'

end Drift

/-! ## Statements that keep the passes together -/

/-- A statement has the same effect on the key in both passes, whatever the labels are: its operand
does not depend on them, and it takes up neither the key of a label nor a saved key. -/
def Statement.IgnoresLabels : Statement → Prop
  | .emit _ operand => ∀ offsets, operand.resolve offsets = operand.resolve fun _ => 0
  | .setKey (.atLabel _) | .setKey (.saved _) => False
  | .setKey (.constant _) | .label _ | .save _ | .raw _ | .switchTable _ | .padTo _ => True

namespace Drift

variable {table : ByteTable} {labels : Labels}

/-- Where the keys are the same, statements that ignore labels keep them the same. -/
lemma key_foldl_eq_zero {program : List Statement} {drift : Drift} (hkey : drift.key = 0)
    (hprogram : ∀ statement ∈ program, statement.IgnoresLabels) :
    (program.foldl (after table labels) drift).key = 0 := by
  induction program generalizing drift with
  | nil => exact hkey
  | cons statement rest ih =>
    rw [List.foldl_cons]
    refine ih ?_ fun other hother => hprogram other (List.mem_cons_of_mem _ hother)
    have hstatement := hprogram statement List.mem_cons_self
    cases statement with
    | emit opcode operand =>
      simp [after, hkey, hstatement labels.offset]
    | setKey source =>
      cases source with
      | constant key => rfl
      | atLabel name => exact hstatement.elim
      | saved slot => exact hstatement.elim
    | label name | save slot | raw bytes | switchTable entries | padTo offset => exact hkey

/-- Behind a constant key, statements that ignore labels keep the passes together. -/
lemma key_along_eq_zero {front back : List Statement} {key : Key}
    (hback : ∀ statement ∈ back, statement.IgnoresLabels) :
    (along table labels (front ++ .setKey (.constant key) :: back)).key = 0 := by
  rw [along, List.foldl_append, List.foldl_cons]
  exact key_foldl_eq_zero rfl hback

end Drift

/-! ## What the second pass is told -/

namespace Pass

variable {table : ByteTable} {labels : Labels} {pass last : Pass} {program : List Statement}
  {steps : List (Option Offset × Pass)}

/-- **A pass records for each label the key at its last definition.** -/
lemma key_of_run {name : String} {past future : List Statement}
    (h : pass.run table labels (past ++ .label name :: future) = .ok (steps, last))
    (hname : .label name ∉ future) :
    ∃ done before, pass.run table labels past = .ok (done, before) ∧
      last.assembler.labels.key name = before.assembler.key := by
  obtain ⟨done, before, _, hdone, hrest, rfl⟩ := run_append_eq_ok_iff.1 h
  obtain ⟨value, after, rest, hstep, hfuture, rfl⟩ := run_cons_eq_ok_iff.1 hrest
  obtain ⟨rfl, rfl⟩ := Prod.mk.inj (Except.ok.inj hstep)
  refine ⟨done, before, hdone, ?_⟩
  rw [Labels.key, lookup_of_run hfuture hname]
  show ((List.lookup name ((name, _) :: before.assembler.labels)).elim 0 _) = _
  rw [List.lookup_cons, beq_self_eq_true]
  rfl

/-- A pass that succeeds only adds bytes at the end of the stream. -/
lemma run_extends (h : pass.run table labels program = .ok (steps, last)) :
    ∃ added, last.assembler.bytes.toList = pass.assembler.bytes.toList ++ added := by
  induction program generalizing pass steps with
  | nil =>
    simp only [run, Except.ok.injEq, Prod.mk.injEq] at h
    exact ⟨[], by rw [← h.2, List.append_nil]⟩
  | cons statement rest ih =>
    obtain ⟨value, after, tail, hstep, hrest, -⟩ := run_cons_eq_ok_iff.1 h
    obtain ⟨first, hfirst⟩ := execute_extends hstep
    obtain ⟨others, hothers⟩ := ih hrest
    exact ⟨first ++ others, by rw [hothers, hfirst, List.append_assoc]⟩

/-- **What a pass has written is read back** under the key that was in force there. -/
lemma decodeAt_of_run {past future : List Statement} {opcode : Opcode} {operand : OperandSource}
    (h : pass.run table labels (past ++ .emit opcode operand :: future) = .ok (steps, last))
    (hsize : last.assembler.bytes.size < UInt64.size) :
    ∃ done before behind, pass.run table labels past = .ok (done, before) ∧
      (steps[past.length]?.map (·.1)) = some (some before.assembler.position) ∧
      decodeAt table ⟨last.assembler.bytes⟩ before.assembler.position before.assembler.key
        = .ok (⟨before.assembler.position, opcode, operand.resolve labels.offset⟩, behind) := by
  obtain ⟨done, before, _, hdone, hrest, rfl⟩ := run_append_eq_ok_iff.1 h
  obtain ⟨value, after, rest, hstep, hfuture, rfl⟩ := run_cons_eq_ok_iff.1 hrest
  simp only [execute, perform, Assembler.perform, bind_eq_ok_iff, pure_eq_ok_iff, Prod.exists,
    Prod.mk.injEq] at hstep
  obtain ⟨_, _, ⟨written, hemit, rfl, rfl⟩, rfl, rfl⟩ := hstep
  obtain ⟨added, hadded⟩ := run_extends hfuture
  have hle : written.bytes.size ≤ last.assembler.bytes.size := by
    rw [← Array.length_toList, ← Array.length_toList, hadded, List.length_append]
    exact Nat.le_add_right _ _
  refine ⟨done, before, written.key, hdone, ?_, ?_⟩
  · rw [← length_of_run hdone, List.getElem?_append_right (Nat.le_refl _), Nat.sub_self]
    rfl
  · exact Assembler.decodeAt_of_emit added hemit hadded
      (Nat.le_of_lt (Nat.lt_of_le_of_lt hle hsize))

end Pass

open Pass in
/-- **The second pass of the assembler is told the key at a label less the drift.**  If a program
can be assembled, then for each label the key that the second pass takes from the first, plus the
drift of the passes behind the statements before the last definition of the label, is the key under
which the second pass comes to define it.  So the key it is told is right exactly if there is no
drift; it is right if no statement before the label, or since the last constant key before it,
depends on labels.  An instruction behind a statement that takes up the key of the label is read
back under the key in force at the label less the drift. -/
theorem assemble_drifts {table : ByteTable} {key : Key} {program : List Statement}
    {steps : List (Option Offset × Pass)} {last : Pass}
    (h : assemble table key program = .ok (steps, last)) :
    ∃ draft first, (start key).run table [] program = .ok (draft, first) ∧
      (start key).run table first.assembler.labels program = .ok (steps, last) ∧
      ∀ name past future, program = past ++ .label name :: future → .label name ∉ future →
        ∃ done before, (start key).run table first.assembler.labels past = .ok (done, before) ∧
          let told := first.assembler.labels.key name
          let drift := (Drift.along table first.assembler.labels past).key
          before.assembler.key = told + drift ∧
          (told = before.assembler.key ↔ drift = 0) ∧
          ((∀ statement ∈ past, statement.IgnoresLabels) → told = before.assembler.key) ∧
          (∀ front constant back, past = front ++ .setKey (.constant constant) :: back →
            (∀ statement ∈ back, statement.IgnoresLabels) → told = before.assembler.key) ∧
          ∀ front opcode operand back,
            program = front ++ .setKey (.atLabel name) :: .emit opcode operand :: back →
            last.assembler.bytes.size < UInt64.size →
            ∃ place behind, (steps[front.length + 1]?.map (·.1)) = some (some place) ∧
              decodeAt table ⟨last.assembler.bytes⟩ place (before.assembler.key - drift)
                = .ok (⟨place, opcode, operand.resolve first.assembler.labels.offset⟩,
                  behind) := by
  obtain ⟨⟨draft, first⟩, hfirst, hsecond⟩ := bind_eq_ok_iff.1 h
  refine ⟨draft, first, hfirst, hsecond, ?_⟩
  rintro name past future hprogram hname
  obtain ⟨draftDone, draftBefore, hdraft, htold⟩ := key_of_run (hprogram ▸ hfirst) hname
  obtain ⟨done, before, hdone, -⟩ := key_of_run (hprogram ▸ hsecond) hname
  have hdrift := ((Drift.between_start key).run hdraft hdone).key
  refine ⟨done, before, hdone, ?_⟩
  intro told drift
  have hbefore : before.assembler.key = told + drift := by
    rw [hdrift, ← htold]
    rfl
  have hright : told = before.assembler.key ↔ drift = 0 := by
    rw [hbefore]
    exact left_eq_add
  refine ⟨hbefore, hright, fun hpast => hright.2 (Drift.key_foldl_eq_zero rfl hpast), ?_, ?_⟩
  · intro front constant back hpast hback
    refine hright.2 ?_
    simp only [drift, hpast]
    exact Drift.key_along_eq_zero hback
  · intro front opcode operand back hsplit hsize
    have hsplit' : program
        = (front ++ [.setKey (.atLabel name)]) ++ .emit opcode operand :: back := by
      rw [hsplit, List.append_assoc, List.singleton_append]
    obtain ⟨_, middle, behind, hmiddle, hplace, hdecode⟩ :=
      decodeAt_of_run (hsplit' ▸ hsecond) hsize
    have hkey : middle.assembler.key = told := by
      obtain ⟨_, earlier, _, -, hlast, -⟩ := run_append_eq_ok_iff.1 hmiddle
      obtain ⟨value, after, _, hstep, hend, -⟩ := run_cons_eq_ok_iff.1 hlast
      obtain ⟨-, rfl⟩ := Prod.mk.inj (Except.ok.inj hend)
      exact (keys_of_execute hstep).1
    rw [List.length_append, List.length_singleton] at hplace
    refine ⟨middle.assembler.position, behind, hplace, ?_⟩
    rw [hbefore, UInt32.add_sub_cancel, ← hkey]
    exact hdecode

/-- A program that pushes the place of a label, defines the label, and goes on under its key. -/
def Statement.selfReferring : List Statement :=
  [.emit (.pushi .dword) (.dword fun offsets => (offsets "end").toUInt32), .label "end",
    .setKey (.atLabel "end"), .emit .nop .none]

open Pass in
/-- The operand is 0 in the first pass and 6 in the second, with three more bytes behind its lowest
one: the passes drift apart by `6 * 7 ^ 3`, and by as much the `NOP` misses the key at the label. -/
theorem assemble_drifts_selfReferring :
    ∃ steps last draft first done before behind,
      assemble .sequential 0 Statement.selfReferring = .ok (steps, last) ∧
      (start 0).run .sequential [] Statement.selfReferring = .ok (draft, first) ∧
      (start 0).run .sequential first.assembler.labels (Statement.selfReferring.take 1)
        = .ok (done, before) ∧
      before.assembler.key = first.assembler.labels.key "end" + 6 * 7 ^ 3 ∧
      decodeAt .sequential ⟨last.assembler.bytes⟩ 6 (before.assembler.key - 6 * 7 ^ 3)
        = .ok (⟨6, .nop, .none⟩, behind) := by
  obtain ⟨⟨steps, last⟩, hok, hplace, hsize⟩ := exists_eq_ok
    (x := assemble .sequential 0 Statement.selfReferring)
    (p := fun outcome => (outcome.1[3]?.map (·.1)) = some (some 6) ∧
      outcome.2.assembler.bytes.size < UInt64.size) (by decide +kernel)
  obtain ⟨draft, first, hfirst, -, hlabels⟩ := assemble_drifts hok
  obtain ⟨done, before, hdone, hkey, -, -, -, hread⟩ := hlabels "end"
    (Statement.selfReferring.take 1) [.setKey (.atLabel "end"), .emit .nop .none] rfl (by simp)
  have hdrift : ((start 0).run .sequential [] Statement.selfReferring).toOption.map (fun outcome =>
      (Drift.along .sequential outcome.2.assembler.labels (Statement.selfReferring.take 1)).key)
        = some (6 * 7 ^ 3) := by decide +kernel
  rw [hfirst] at hdrift
  have hsix : (Drift.along .sequential first.assembler.labels
      (Statement.selfReferring.take 1)).key = 6 * 7 ^ 3 := Option.some.inj hdrift
  obtain ⟨place, behind, hwritten, hdecode⟩ := hread (Statement.selfReferring.take 2) .nop .none []
    rfl hsize
  obtain rfl : place = 6 := Option.some.inj (Option.some.inj (hwritten.symm.trans hplace))
  rw [hsix] at hkey hdecode
  exact ⟨steps, last, draft, first, done, before, behind, hok, hfirst, hdone, hkey, hdecode⟩

open Pass in
/-- **The second pass can be told a wrong key.**  The label is defined once; the first pass comes to
it under the key 957999 and the second under the key 960057.  Under this key, which is the one in
force at the label, the `NOP` behind it is not read back. -/
theorem assemble_misleads :
    ∃ steps last draft first done before,
      assemble .sequential 0 Statement.selfReferring = .ok (steps, last) ∧
      (start 0).run .sequential [] Statement.selfReferring = .ok (draft, first) ∧
      (start 0).run .sequential first.assembler.labels (Statement.selfReferring.take 1)
        = .ok (done, before) ∧
      first.assembler.labels.key "end" = 957999 ∧ before.assembler.key = 960057 ∧
      (decodeAt .sequential ⟨last.assembler.bytes⟩ 6 before.assembler.key).isOk = false := by
  obtain ⟨⟨draft, first⟩, hfirst, htold, hbefore⟩ := exists_eq_ok
    (x := (start 0).run .sequential [] Statement.selfReferring)
    (p := fun outcome => outcome.2.assembler.labels.key "end" = 957999 ∧
      (((start 0).run .sequential outcome.2.assembler.labels
        (Statement.selfReferring.take 1)).toOption.any fun middle =>
          middle.2.assembler.key = 960057) = true) (by decide +kernel)
  obtain ⟨⟨done, before⟩, hdone, hkey⟩ := exists_eq_ok hbefore
  obtain ⟨⟨steps, last⟩, hok, hlost⟩ := exists_eq_ok
    (x := assemble .sequential 0 Statement.selfReferring)
    (p := fun outcome =>
      (decodeAt .sequential ⟨outcome.2.assembler.bytes⟩ 6 960057).isOk = false) (by decide +kernel)
  exact ⟨steps, last, draft, first, done, before, hok, hfirst, hdone, htold, hkey,
    hkey ▸ hlost⟩

end KeyedVM
