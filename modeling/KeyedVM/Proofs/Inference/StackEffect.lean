import KeyedVM.Proofs.Inference.Onward

set_option relaxedAutoImplicit false
set_option autoImplicit false

/-!
# The exact effect of an instruction

How many slots an instruction takes is fixed by its opcode, or depends on the numbers that it takes:
a call takes the parameters that the called function declares, the entry of a protected region what
the kind of the handler asks for, and a helper call what the helper asks for, which may be a method
with parameters of its own.  Parameters and receiver of a method are counted in a word, so that a
method with as many parameters as a word can count takes none.  In every case an instruction takes
the topmost slots, leaves at most one value of its own, writes at most one register, opens or closes
at most one protected region, and goes on under the key that its bytes lead to or with which the
called function returns.

## Main definitions

* `KeyedVM.Transfer.Trades` — a transfer takes a number of slots and leaves a number of values;
* `KeyedVM.HelperCall.counts?`, `KeyedVM.HelperCall.Counts` — what the helpers take and leave;
* `KeyedVM.Finding.Invokes` — an instruction calls an external method;
* `KeyedVM.Context.Counts` — what an instruction takes and leaves;
* `KeyedVM.Context.onward` — where execution goes on, apart from filters and handlers;
* `KeyedVM.Context.Succeeds` — a state in which execution goes on after an instruction;
* `KeyedVM.Effects.Accounted` — the effects of an instruction, for what it takes and leaves.

## Main results

* `KeyedVM.CallFlavour.toNat_arguments` — how many arguments a call of an external method takes;
* `KeyedVM.Transfer.helperCall_trades`, `KeyedVM.Context.enter_trades`,
  `KeyedVM.Context.call_trades` — what helper calls, entries of protected regions and calls take;
* `KeyedVM.Context.Counts.unique` — what an instruction takes and leaves is determined;
* `KeyedVM.Context.execute_accounted` — the exact effect of every instruction.
-/

namespace KeyedVM

/-! ## Slots for values -/

namespace Transfer

variable {t u v : Transfer} {evaluator : Evaluator} {m n k : Nat}

/-- A transfer takes the topmost `pops` slots, which it notes as consumed, and leaves `pushes`
values of its own. -/
def Trades (pops pushes : Nat) (t u : Transfer) : Prop :=
  pops ≤ t.post.stack.length ∧ u = { t with
    post := { t.post with
      stack := List.replicate pushes (.of t.offset) ++ t.post.stack.drop pops }
    consumed := t.consumed ++ t.post.stack.take pops }

namespace Trades

/-- Without a pop or a push nothing is traded. -/
lemma refl (t : Transfer) : t.Trades 0 0 t := ⟨Nat.zero_le _, by simp⟩

/-- Slots that are taken one after the other add up. -/
lemma trans (h : t.Trades m 0 u) (h' : u.Trades n k v) : t.Trades (m + n) k v := by
  obtain ⟨hm, rfl⟩ := h
  obtain ⟨hn, rfl⟩ := h'
  simp only [List.replicate_zero, List.nil_append, List.length_drop] at hn
  refine ⟨by omega, ?_⟩
  simp only [List.replicate_zero, List.nil_append, List.drop_drop, List.append_assoc]
  rw [List.take_add]

/-- Values that are pushed at the end are those that are left. -/
lemma pushMany (h : t.Trades m 0 u) (k : Nat) : t.Trades m k (u.pushMany k) := by
  obtain ⟨hm, rfl⟩ := h
  exact ⟨hm, by simp [pushMany_eq]⟩

/-- What is on top after slots were taken was below them. -/
lemma getElem?_post (h : t.Trades m 0 u) (index : Nat) :
    u.post.stack[index]? = t.post.stack[m + index]? := by
  obtain ⟨-, rfl⟩ := h
  simp

/-- A trade stays with its instruction. -/
lemma offset (h : t.Trades m k u) : u.offset = t.offset := by
  obtain ⟨-, rfl⟩ := h
  rfl

end Trades

/-- Popping a number of slots takes this number. -/
lemma popMany_trades (h : t.popMany n = .ok u) : t.Trades n 0 u := by
  obtain ⟨popped, rest, hstack, rfl, rfl⟩ := popMany_eq_ok_iff.1 h
  exact ⟨by simp [hstack], by simp [hstack]⟩

/-- Popping one slot takes the topmost one. -/
lemma pop_trades {value : Provenance} (h : t.pop = .ok (value, u)) :
    t.Trades 1 0 u ∧ t.post.stack[0]? = some value := by
  obtain ⟨rest, hstack, rfl⟩ := pop_eq_ok_iff.1 h
  exact ⟨⟨by simp [hstack], by simp [hstack]⟩, by simp [hstack]⟩

end Transfer

namespace Evaluator

variable {evaluator : Evaluator} {offset : Offset} {slot? : Option Provenance}
  {number number' : UInt64}

/-- There is a slot, and on behalf of the instruction at `offset` it stands for one number only. -/
def Resolves (evaluator : Evaluator) (offset : Offset) (slot? : Option Provenance)
    (number : UInt64) : Prop :=
  ∃ value, slot? = some value ∧ evaluator.resolve value offset = .ok [number]

/-- A slot resolves to one number at most. -/
lemma Resolves.unique (h : evaluator.Resolves offset slot? number)
    (h' : evaluator.Resolves offset slot? number') : number = number' := by
  obtain ⟨value, rfl, hnumber⟩ := h
  obtain ⟨_, hvalue, hnumber'⟩ := h'
  obtain rfl := Option.some.inj hvalue
  rw [hnumber] at hnumber'
  exact (List.cons.inj (Except.ok.inj hnumber')).1

/-- A single number is the only one of its value. -/
lemma resolve_of_resolveSingle {value : Provenance} {role : String}
    (h : evaluator.resolveSingle value offset role = .ok number) :
    evaluator.resolve value offset = .ok [number] := by
  simp only [resolveSingle, bind_eq_ok_iff] at h
  obtain ⟨candidates, hcandidates, h⟩ := h
  split at h
  · rw [hcandidates, pure_eq_ok_iff.1 h]
  · exact absurd h throw_ne_ok

end Evaluator

/-- Resolving an argument takes the topmost slot, which resolves to the number. -/
lemma Transfer.resolveArgument_trades {evaluator : Evaluator} {t u : Transfer} {role : String}
    {number : UInt64} (h : t.resolveArgument evaluator role = .ok (number, u)) :
    t.Trades 1 0 u ∧ evaluator.Resolves t.offset t.post.stack[0]? number := by
  obtain ⟨value, hpop, hnumber⟩ := resolveArgument_eq_ok_iff.1 h
  obtain ⟨htrades, hvalue⟩ := pop_trades hpop
  rw [htrades.offset] at hnumber
  exact ⟨htrades, value, hvalue, Evaluator.resolve_of_resolveSingle hnumber⟩

/-! ## Helper calls -/

/-- How many slots a helper takes besides its number, and how many values it leaves.  An external
method and a throw have no fixed numbers. -/
def HelperCall.counts? : HelperCall → Option (Nat × Nat)
  | .exit | .breakpoint => some (0, 0)
  | .checkOverflow => some (1, 0)
  | .localAlloc | .checkFinite | .token | .sizeOf => some (1, 1)
  | .initObject => some (2, 0)
  | .cast | .box | .unbox | .loadFunction | .loadField => some (2, 1)
  | .storeField => some (3, 0)
  | .checkRange => some (3, 1)
  | .external | .throwing => none

/-- How many slots a call of an external method takes besides the number of the helper: the method
id, the constraint if there is one, and the arguments. -/
def CallFlavour.takes (flavour : CallFlavour) (method : Method) : Nat :=
  1 + (if flavour = .constrained then 1 else 0) + flavour.arguments method

/-- **The arguments are the declared parameters and the receiver**, with one exception: the count of
a method that has a receiver and declares as many parameters as a word can count wraps around, so
that no argument is left. -/
lemma CallFlavour.toNat_arguments (flavour : CallFlavour) (method : Method) :
    (flavour.arguments method).toNat =
      if flavour.receives method then
        if method.parameters.toNat + 1 = UInt64.size then 0 else method.parameters.toNat + 1
      else method.parameters.toNat := by
  unfold arguments
  by_cases hreceives : flavour.receives method
  · rw [if_pos hreceives, if_pos hreceives, UInt64.toNat_add]
    show (method.parameters.toNat + 1) % UInt64.size = _
    split
    · next hmax => rw [hmax, Nat.mod_self]
    · have hlt : method.parameters.toNat < UInt64.size := method.parameters.toNat_lt
      exact Nat.mod_eq_of_lt (by omega)
  · rw [if_neg hreceives, if_neg hreceives, UInt64.add_zero]

/-- How many values a call of an external method leaves. -/
def CallFlavour.leaves (flavour : CallFlavour) (method : Method) : Nat :=
  if method.returnsValue || flavour == .construct then 1 else 0

/-- How many slots a helper takes besides its number, and how many values it leaves; `slot?` is the
slot below its number. -/
inductive HelperCall.Counts (image : Image) (evaluator : Evaluator) (offset : Offset)
    (slot? : Option Provenance) : HelperCall → Nat → Nat → Prop
  | fixed {call : HelperCall} {takes leaves : Nat} (h : call.counts? = some (takes, leaves)) :
    Counts image evaluator offset slot? call takes leaves
  /-- The method id gives the flavour and the method. -/
  | external {raw : UInt64} {flavour : CallFlavour} {named : NamedReference} {method : Method}
    (hraw : evaluator.Resolves offset slot? raw)
    (hflavour : image.table.flavours.entry? (flavourSelector raw) = some flavour)
    (hnamed : image.references.named offset (raw &&& methodIdMask) = .ok named)
    (hmethod : named.reference.method? = some method) :
    Counts image evaluator offset slot? .external (flavour.takes method) (flavour.leaves method)
  /-- A flag says whether the current exception goes on, and otherwise an exception is taken. -/
  | throwing {flag : UInt64} (hflag : evaluator.Resolves offset slot? flag) :
    Counts image evaluator offset slot? .throwing (1 + if flag = 0 then 1 else 0) 0

/-- How many slots a helper with a given form takes besides its number, and how many values it
leaves. -/
def HelperForm.counts? : HelperForm → Option (Nat × Nat)
  | .naming _ _ pops pushes => some (1 + pops, pushes)
  | .plain pops pushes => some (pops, pushes)
  | .external | .throwing => none

/-- What a helper takes and leaves, where it is fixed, is fixed by its form. -/
lemma HelperCall.counts?_eq (call : HelperCall) : call.counts? = call.form.counts? := by
  cases call <;> rfl

namespace Transfer

variable {t u : Transfer} {image : Image} {evaluator : Evaluator} {call : HelperCall}
  {meaning : Meaning}

/-- A call of an external method takes and leaves what its flavour and the method say. -/
lemma external_trades (h : t.external image evaluator = .ok (meaning, u)) :
    ∃ flavour named constraint? method, meaning = .external flavour named constraint? ∧
      named.reference.method? = some method ∧
      HelperCall.Counts image evaluator t.offset t.post.stack[0]? .external
        (flavour.takes method) (flavour.leaves method) ∧
      t.Trades (flavour.takes method) (flavour.leaves method) u := by
  obtain ⟨flavour, named, constraint?, method, raw, first, constrained, popped, rfl, hmethod,
    hfirst, hflavour, hnamed, hconstrained, hpopped, rfl⟩ := external_cases h
  obtain ⟨hfirst, hraw⟩ := resolveArgument_trades hfirst
  have hconstraint : first.Trades (if flavour = .constrained then 1 else 0) 0 constrained := by
    by_cases hf : flavour = .constrained
    · rw [if_pos hf] at hconstrained ⊢
      obtain ⟨_, hconstrained⟩ := hconstrained
      exact (resolveArgument_trades hconstrained).1
    · rw [if_neg hf] at hconstrained ⊢
      exact hconstrained ▸ .refl first
  exact ⟨flavour, named, constraint?, method, rfl, hmethod,
    .external hraw hflavour (hfirst.offset ▸ hnamed) hmethod,
    ((hfirst.trans hconstraint).trans (popMany_trades hpopped)).pushMany _⟩

/-- A helper of any form takes and leaves what the helper counts. -/
lemma helperForm_trades (h : t.helperForm image evaluator call call.form = .ok (meaning, u)) :
    ∃ takes leaves, call.Counts image evaluator t.offset t.post.stack[0]? takes leaves ∧
      t.Trades takes leaves u := by
  cases hform : call.form with
  | external =>
    rw [hform] at h
    obtain rfl : call = .external := by cases call <;> first | rfl | cases hform
    obtain ⟨_, _, _, _, -, -, hcounts, htrades⟩ := external_trades h
    exact ⟨_, _, hcounts, htrades⟩
  | naming role flagged pops pushes =>
    rw [hform] at h
    simp only [helperForm, bind_eq_ok_iff, Prod.exists, pure_eq_ok_iff, Prod.mk.injEq] at h
    obtain ⟨_, _, hnamed, _, -, popped, hpopped, -, rfl⟩ := h
    refine ⟨1 + pops, pushes, .fixed (by rw [call.counts?_eq, hform]; rfl), ?_⟩
    exact ((resolveArgument_trades hnamed).1.trans (popMany_trades hpopped)).pushMany pushes
  | plain pops pushes =>
    rw [hform] at h
    simp only [helperForm, bind_eq_ok_iff, pure_eq_ok_iff, Prod.mk.injEq] at h
    obtain ⟨popped, hpopped, -, rfl⟩ := h
    exact ⟨pops, pushes, .fixed (by rw [call.counts?_eq, hform]; rfl),
      (popMany_trades hpopped).pushMany pushes⟩
  | throwing =>
    rw [hform] at h
    obtain rfl : call = .throwing := by cases call <;> first | rfl | cases hform
    simp only [helperForm, bind_eq_ok_iff, Prod.exists, pure_eq_ok_iff, Prod.mk.injEq] at h
    obtain ⟨flag, flagged, hflagged, popped, hpopped, -, rfl⟩ := h
    obtain ⟨hflagged, hflag⟩ := resolveArgument_trades hflagged
    exact ⟨_, 0, .throwing hflag, hflagged.trans (popMany_trades hpopped)⟩

/-- **A helper call takes the number of the helper and what the helper takes.** -/
lemma helperCall_trades (h : t.helperCall image evaluator = .ok (call, meaning, u)) :
    ∃ id takes leaves, evaluator.Resolves t.offset t.post.stack[0]? id ∧
      image.table.helper? id = some call ∧
      call.Counts image evaluator t.offset t.post.stack[1]? takes leaves ∧
      t.Trades (1 + takes) leaves u := by
  simp only [helperCall, bind_eq_ok_iff, Prod.exists] at h
  obtain ⟨id, resolved, hresolved, h⟩ := h
  split at h
  · exact absurd h throw_ne_ok
  next named hnamed =>
  simp only [bind_eq_ok_iff, Prod.exists, pure_eq_ok_iff, Prod.mk.injEq] at h
  obtain ⟨_, _, hform, rfl, rfl, rfl⟩ := h
  obtain ⟨hresolved, hid⟩ := resolveArgument_trades hresolved
  obtain ⟨takes, leaves, hcounts, htrades⟩ := helperForm_trades hform
  rw [hresolved.offset, hresolved.getElem?_post] at hcounts
  exact ⟨id, takes, leaves, hid, hnamed, hcounts, hresolved.trans htrades⟩

/-- The helper call that a meaning names is counted by the flavour and the method in it. -/
lemma counts_of_helperCall {flavour : CallFlavour} {named : NamedReference}
    {constraint? : Option NamedReference} {method : Method}
    (hmethod : named.reference.method? = some method)
    (h : t.helperCall image evaluator = .ok (call, .external flavour named constraint?, u)) :
    ∃ id, evaluator.Resolves t.offset t.post.stack[0]? id ∧ image.table.helper? id = some call ∧
      call.Counts image evaluator t.offset t.post.stack[1]? (flavour.takes method)
        (flavour.leaves method) := by
  simp only [helperCall, bind_eq_ok_iff, Prod.exists] at h
  obtain ⟨id, resolved, hresolved, h⟩ := h
  split at h
  · exact absurd h throw_ne_ok
  next hnumber =>
  simp only [bind_eq_ok_iff, Prod.exists, pure_eq_ok_iff, Prod.mk.injEq] at h
  obtain ⟨_, _, hform, rfl, rfl, rfl⟩ := h
  obtain ⟨hresolved, hid⟩ := resolveArgument_trades hresolved
  obtain rfl := Option.some.inj (helper?_of_helperForm hform)
  obtain ⟨_, _, _, method', hmeaning, hmethod', hcounts, -⟩ := external_trades hform
  obtain ⟨rfl, rfl, rfl⟩ := Meaning.external.inj hmeaning
  obtain rfl : method = method' := Option.some.inj (hmethod.symm.trans hmethod')
  rw [hresolved.offset, hresolved.getElem?_post] at hcounts
  exact ⟨id, hid, hnumber, hcounts⟩

end Transfer

namespace HelperCall.Counts

variable {image : Image} {evaluator : Evaluator} {offset : Offset} {slot? : Option Provenance}
  {call : HelperCall} {takes takes' leaves leaves' : Nat}

/-- What a helper takes and leaves is determined. -/
lemma unique (h : call.Counts image evaluator offset slot? takes leaves)
    (h' : call.Counts image evaluator offset slot? takes' leaves') :
    takes = takes' ∧ leaves = leaves' := by
  cases h with
  | fixed h =>
    cases h' with
    | fixed h' => simpa [h] using h'
    | external | throwing => cases h
  | external hraw hflavour hnamed hmethod =>
    cases h' with
    | fixed h' => cases h'
    | external hraw' hflavour' hnamed' hmethod' =>
      obtain rfl := hraw.unique hraw'
      obtain rfl := Option.some.inj (hflavour.symm.trans hflavour')
      obtain rfl := Except.ok.inj (hnamed.symm.trans hnamed')
      obtain rfl := Option.some.inj (hmethod.symm.trans hmethod')
      exact ⟨rfl, rfl⟩
  | throwing hflag =>
    cases h' with
    | fixed h' => cases h'
    | throwing hflag' =>
      obtain rfl := hflag.unique hflag'
      exact ⟨rfl, rfl⟩

/-- A helper leaves at most one value. -/
lemma leaves_le_one (h : call.Counts image evaluator offset slot? takes leaves) : leaves ≤ 1 := by
  cases h with
  | fixed h => cases call <;> cases h <;> decide
  | external =>
    unfold CallFlavour.leaves
    split <;> decide
  | throwing => exact Nat.zero_le 1

end HelperCall.Counts

/-! ## What an instruction takes and leaves -/

/-- An instruction calls an external method, in the way that a flavour names. -/
def Finding.Invokes (finding : Finding) (flavour : CallFlavour) (method : Method) : Prop :=
  ∃ named constraint?, finding.meaning? = some (.external flavour named constraint?) ∧
    named.reference.method? = some method

namespace Context

variable {context : Context} {findings : Findings} {finding : Finding}
  {pops pops' pushes pushes' : Nat}

/-- The number of slots that an instruction takes and the number of values that it leaves. -/
def Counts (context : Context) (findings : Findings) (finding : Finding) (pops pushes : Nat) :
    Prop :=
  let evaluator : Evaluator := ⟨findings, context.settings⟩
  let resolves := evaluator.Resolves finding.offset finding.state.stack[0]?
  match finding.flow with
  | .sequential => pops = finding.opcode.pops ∧ pushes = finding.opcode.pushes
  | .jump | .ret | .leave => pops = 1 ∧ pushes = 0
  | .conditionalJump | .switch => pops = 2 ∧ pushes = 0
  | .call =>
    -- the address, and the parameters that the function at the address declares
    ∃ address, resolves address ∧ pops = 1 + (context.image.exports.atOffset? address).elim 0
      (fun callee => callee.signature.parameters.length) ∧ pushes = 0
  | .enter =>
    -- the kind of the handler, the caught type or the filter, and the handler
    ∃ raw kind, resolves raw ∧ context.image.table.handlerKind? raw = some kind ∧
      pops = (if kind ∈ [HandlerKind.typed, .filtered] then 3 else 2) ∧ pushes = 0
  | .helper =>
    -- the number of the helper, and what the helper takes
    ∃ id call takes, resolves id ∧ context.image.table.helper? id = some call ∧
      call.Counts context.image evaluator finding.offset finding.state.stack[1]? takes pushes ∧
      pops = 1 + takes

/-- What an instruction takes and leaves is determined. -/
lemma Counts.unique (h : context.Counts findings finding pops pushes)
    (h' : context.Counts findings finding pops' pushes') : pops = pops' ∧ pushes = pushes' := by
  unfold Counts at h h'
  cases hflow : finding.flow <;> simp only [hflow] at h h'
  case sequential | jump | conditionalJump | switch | ret | leave =>
    exact ⟨h.1.trans h'.1.symm, h.2.trans h'.2.symm⟩
  case call =>
    obtain ⟨address, haddress, rfl, rfl⟩ := h
    obtain ⟨_, haddress', rfl, rfl⟩ := h'
    obtain rfl := haddress.unique haddress'
    exact ⟨rfl, rfl⟩
  case enter =>
    obtain ⟨raw, kind, hraw, hkind, rfl, rfl⟩ := h
    obtain ⟨_, _, hraw', hkind', rfl, rfl⟩ := h'
    obtain rfl := hraw.unique hraw'
    obtain rfl := Option.some.inj (hkind.symm.trans hkind')
    exact ⟨rfl, rfl⟩
  case helper =>
    obtain ⟨id, call, takes, hid, hcall, hcounts, rfl⟩ := h
    obtain ⟨_, _, takes', hid', hcall', hcounts', rfl⟩ := h'
    obtain rfl := hid.unique hid'
    obtain rfl := Option.some.inj (hcall.symm.trans hcall')
    obtain ⟨rfl, rfl⟩ := hcounts.unique hcounts'
    exact ⟨rfl, rfl⟩

/-- No instruction leaves more than one value. -/
lemma Counts.pushes_le_one (h : context.Counts findings finding pops pushes) : pushes ≤ 1 := by
  unfold Counts at h
  cases hflow : finding.flow <;> simp only [hflow] at h
  case sequential => exact h.2.trans_le finding.opcode.pushes_le_one
  case helper =>
    obtain ⟨_, _, _, -, -, hcounts, -⟩ := h
    exact hcounts.leaves_le_one
  all_goals grind

end Context

/-! ## The states behind an instruction -/

/-- Exits of protected regions are the only opcode with that effect on control flow. -/
lemma Opcode.flow_eq_leave_iff {opcode : Opcode} : opcode.flow = .leave ↔ opcode = .leave := by
  cases opcode <;> simp [Opcode.flow]

namespace Instruction

variable {instruction : Instruction} {settings : Settings}

/-- The register that a push of a register pushes. -/
def pushed? (instruction : Instruction) : Option Register :=
  if instruction.opcode.readsRegister then instruction.operand.register? else none

/-- The register that an instruction writes before execution goes on behind it or at a target: a
call that of results, a `POP` its operand, and arithmetic the flags. -/
def result? (settings : Settings) (instruction : Instruction) : Option Register :=
  if instruction.opcode = .call then some settings.returnRegister else instruction.written?

/-- The register that an instruction reads is the one that it pushes, if it has the operand that its
opcode takes. -/
lemma WellFormed.read?_eq_pushed? (h : instruction.WellFormed) :
    instruction.read? = instruction.pushed? := by
  cases hread : instruction.read? with
  | some register =>
    obtain ⟨part, hpart, hregister⟩ := h.exists_pushr hread
    simp [pushed?, hpart, Opcode.readsRegister, hregister]
  | none =>
    symm
    rw [pushed?, ite_eq_right_iff]
    intro hreads
    have hpop : instruction.opcode ≠ .pop := by
      intro hpop
      simp [hpop, Opcode.readsRegister] at hreads
    rwa [read?, if_neg hpop] at hread

/-- Only an instruction without influence on control flow pushes a register. -/
lemma pushed?_eq_none (hflow : instruction.flow ≠ .sequential) : instruction.pushed? = none := by
  rw [pushed?, ite_eq_right_iff]
  intro hreads
  obtain ⟨part, hpart⟩ : ∃ part, instruction.opcode = .pushr part := by
    cases hopcode : instruction.opcode <;> simp [hopcode, Opcode.readsRegister] at hreads ⊢
  exact absurd (by rw [flow, hpart]; rfl) hflow

/-- Of the instructions that influence control flow, only a call writes a register in the course of
execution. -/
lemma result?_eq_none (hflow : instruction.flow ∉ [Flow.sequential, .call]) :
    instruction.result? settings = none := by
  unfold flow at hflow
  cases hopcode : instruction.opcode <;>
    simp [result?, written?, hopcode, Opcode.flow, Opcode.writesFlags] at hflow ⊢

end Instruction

/-- An instruction that is about to be executed, with the key behind it. -/
def Finding.begun (finding : Finding) (key : Key) : Transfer :=
  { offset := finding.offset, post := { finding.state with ip := finding.next, key } }

/-- The state in which a filter or a handler of a region starts that an instruction opens. -/
def Finding.rescue (settings : Settings) (finding : Finding) (key : Key) (entry : Offset) :
    State where
  ip := entry
  key
  registers := finding.state.registers.set settings.exceptionRegister (.of finding.offset)
  regions := finding.state.regions

/-- The function that an instruction calls, if it is known. -/
def Context.callee? (context : Context) (finding : Finding) : Option Export :=
  match finding.opcode, finding.meaning? with
  | .call, some (.call site) => context.image.exports.atOffset? site.address
  | _, _ => none

/-- Only calls have a callee. -/
lemma Context.callee?_eq_none {context : Context} {finding : Finding}
    (h : finding.flow ≠ .call) : context.callee? finding = none := by
  unfold callee?
  split
  · next hopcode _ => exact absurd (Opcode.flow_eq_call_iff.2 hopcode) h
  · rfl

/-- A helper call ends its path exactly if the helper does not come back. -/
lemma Finding.endsPath_of_helper {finding : Finding} {meaning : Meaning} {call : HelperCall}
    (hopcode : finding.opcode = .vcall) (hmeaning : finding.meaning? = some meaning)
    (hcall : meaning.helper? = some call) : finding.endsPath = call.endsPath := by
  rw [endsPath, hopcode, hmeaning]
  cases meaning with
  | jump | call => cases hcall
  | box | cast | external | loadFunction | helper =>
    obtain rfl := Option.some.inj hcall
    rfl

/-- Where execution goes on after an instruction, apart from filters and handlers: at the targets of
a jump, or behind the instruction, unless it does not come back or waits for an exit key. -/
def Context.onward (context : Context) (finding : Finding) : List Offset :=
  match finding.flow with
  | .sequential | .enter | .leave => [finding.next]
  | .jump | .conditionalJump | .switch => finding.targets
  | .call => if (context.callee? finding).any (·.exitKey?.isNone) then [] else [finding.next]
  | .ret => []
  | .helper => if finding.endsPath then [] else [finding.next]

/-- A state in which execution goes on after an instruction that takes `pops` slots and leaves
`pushes` values; `key` is the key that the bytes of the instruction lead to. -/
structure Context.Succeeds (context : Context) (finding : Finding) (effects : Effects)
    (pops pushes : Nat) (key : Key) (successor : State) : Prop where
  stack : successor.stack =
    List.replicate pushes (.of finding.offset) ++ finding.state.stack.drop pops
  registers : successor.registers = (finding.result? context.settings).elim finding.state.registers
    fun register => finding.state.registers.set register (.of finding.offset)
  opened : finding.opcode = .enter → ∃ region, effects.region? = some region ∧
    successor.regions = region :: finding.state.regions
  closed : finding.opcode = .leave → ∃ region, finding.state.regions = region :: successor.regions
  kept : finding.opcode ∉ [Opcode.enter, .leave] → successor.regions = finding.state.regions
  /-- A known function hands back its exit key. -/
  key : (context.callee? finding).elim (some key) Export.exitKey? = some successor.key

/-- The effects of an instruction that takes `pops` slots and leaves `pushes` values; `key` is the
key that the bytes of the instruction lead to. -/
structure Effects.Accounted (context : Context) (finding : Finding) (pops pushes : Nat) (key : Key)
    (effects : Effects) : Prop where
  depth : pops ≤ finding.state.depth
  /-- The slots are consumed, and the register that is pushed. -/
  consumed : finding.consumed =
    finding.state.stack.take pops ++ (finding.pushed?.map finding.state.registers.get).toList
  /-- Only the entry of a protected region opens one. -/
  region : finding.opcode ≠ .enter → effects.region? = none
  /-- The filter and the handler of a region that is opened come first. -/
  successors : ∃ onward, effects.successors = (effects.region?.elim [] Region.entries).map
      (finding.rescue context.settings key) ++ onward ∧
    onward.map (·.ip) = context.onward finding ∧
    ∀ successor ∈ onward, context.Succeeds finding effects pops pushes key successor

namespace Context

variable {context : Context} {evaluator : Evaluator} {finding : Finding} {effects : Effects}
  {pops pushes : Nat} {key : Key} {t u : Transfer}

/-- The effects of an instruction that neither pushes a register nor opens a protected region. -/
lemma accounted_of_succeeds (hflow : finding.flow ≠ .sequential)
    (hu : (finding.begun key).Trades pops pushes u) (hconsumed : finding.consumed = u.consumed)
    (hregion : effects.region? = none)
    (honward : effects.successors.map (·.ip) = context.onward finding)
    (hsucceeds : ∀ successor ∈ effects.successors,
      context.Succeeds finding effects pops pushes key successor) :
    effects.Accounted context finding pops pushes key where
  depth := hu.1
  consumed := by
    obtain ⟨-, rfl⟩ := hu
    rw [hconsumed, Instruction.pushed?_eq_none hflow]
    simp [Finding.begun]
  region _ := hregion
  successors := ⟨effects.successors, by simp [hregion], honward, hsucceeds⟩

/-- The effects of an instruction that only works on the stack. -/
lemma accounted_of_trades (hflow : finding.flow ∉ [Flow.sequential, .call, .enter, .leave])
    (hu : (finding.begun key).Trades pops pushes u) (hconsumed : finding.consumed = u.consumed)
    (hregion : effects.region? = none)
    (hsuccessors : effects.successors = (context.onward finding).map ({ u.post with ip := · })) :
    effects.Accounted context finding pops pushes key := by
  simp only [List.mem_cons, List.not_mem_nil, or_false, not_or] at hflow
  obtain ⟨hsequential, hcall, henter, hleave⟩ := hflow
  refine accounted_of_succeeds hsequential hu hconsumed hregion ?_ fun successor hmem => ?_
  · rw [hsuccessors, List.map_map]
    exact List.map_id _
  rw [hsuccessors] at hmem
  obtain ⟨ip, -, rfl⟩ := List.mem_map.1 hmem
  obtain ⟨-, rfl⟩ := hu
  exact {
    stack := rfl
    registers := by
      rw [Instruction.result?_eq_none (by simp [hsequential, hcall])]
      rfl
    opened := fun hopcode => absurd (Opcode.flow_eq_enter_iff.2 hopcode) henter
    closed := fun hopcode => absurd (Opcode.flow_eq_leave_iff.2 hopcode) hleave
    kept := fun _ => rfl
    key := by rw [callee?_eq_none hcall]; rfl }

/-- An instruction without effect on control flow takes and leaves what its opcode says. -/
lemma sequential_accounted (hform : finding.WellFormed) (hflow : finding.flow = .sequential)
    (hconsumed : finding.consumed = effects.consumed)
    (h : sequential finding.toInstruction (finding.begun key) = .ok effects) :
    effects.Accounted context finding finding.opcode.pops finding.opcode.pushes key := by
  obtain ⟨hpops, rfl⟩ := (sequential_eq_ok_iff rfl).1 h
  have hother : ∀ {flow : Flow}, flow ≠ .sequential → finding.opcode.flow ≠ flow :=
    fun hne hopcode => hne (hopcode.symm.trans hflow)
  have hcall : finding.opcode ≠ .call := mt Opcode.flow_eq_call_iff.2 (hother (by decide))
  refine ⟨hpops, ?_, fun _ => rfl, [finding.after (finding.begun key).post], rfl, ?_, ?_⟩
  · rw [hconsumed, ← hform.read?_eq_pushed?]
    rfl
  · rw [onward, hflow]
    rfl
  · intro successor hmem
    obtain rfl := List.mem_singleton.1 hmem
    exact {
      stack := rfl
      registers := by
        rw [Instruction.result?, if_neg hcall]
        rfl
      opened := fun hopcode => absurd (Opcode.flow_eq_enter_iff.2 hopcode) (hother (by decide))
      closed := fun hopcode => absurd (Opcode.flow_eq_leave_iff.2 hopcode) (hother (by decide))
      kept := fun _ => rfl
      key := by rw [callee?_eq_none (hother (by decide))]; rfl }

/-- **A call takes the address and the parameters that the called function declares.**  Execution
goes on with the result in its register, under the exit key of the function if it is known. -/
lemma call_trades (h : context.call evaluator t = .ok effects) : ∃ site u,
    effects.meaning? = some (.call site) ∧ effects.consumed = u.consumed ∧
    evaluator.Resolves t.offset t.post.stack[0]? site.address ∧
    t.Trades (1 + (context.image.exports.atOffset? site.address).elim 0
      fun callee => callee.signature.parameters.length) 0 u ∧
    effects.successors = ((context.image.exports.atOffset? site.address).elim (some t.post.key)
      Export.exitKey?).toList.map
        ({ (u.write context.settings.returnRegister).post with key := · }) := by
  simp only [call, bind_eq_ok_iff, Prod.exists] at h
  obtain ⟨address, resolved, hresolved, h⟩ := h
  obtain ⟨hresolved, haddress⟩ := Transfer.resolveArgument_trades hresolved
  split at h
  · next hcallee =>
    obtain rfl := pure_eq_ok_iff.1 h
    refine ⟨_, resolved, rfl, rfl, haddress, by simpa [hcallee] using hresolved, ?_⟩
    obtain ⟨-, rfl⟩ := hresolved
    rw [hcallee]
    rfl
  · next callee hcallee =>
    simp only [bind_eq_ok_iff, pure_eq_ok_iff] at h
    obtain ⟨popped, hpopped, rfl⟩ := h
    refine ⟨_, popped, rfl, rfl, haddress, ?_, ?_⟩
    · rw [hcallee]
      exact hresolved.trans (Transfer.popMany_trades hpopped)
    · rw [hcallee]
      cases hkey : callee.exitKey? <;> simp [hkey]

/-- A call takes its target and the parameters of the function there, and leaves nothing. -/
lemma call_accounted (hopcode : finding.opcode = .call)
    (hmeaning : finding.meaning? = effects.meaning?)
    (hconsumed : finding.consumed = effects.consumed) (hregion : effects.region? = none)
    (h : context.call evaluator (finding.begun key) = .ok effects) : ∃ address,
    evaluator.Resolves finding.offset finding.state.stack[0]? address ∧
      effects.Accounted context finding (1 + (context.image.exports.atOffset? address).elim 0
        fun callee => callee.signature.parameters.length) 0 key := by
  obtain ⟨site, u, hsite, hu, haddress, htrades, hsuccessors⟩ := call_trades h
  have hflow : finding.flow = .call := Opcode.flow_eq_call_iff.2 hopcode
  have hcallee : context.callee? finding = context.image.exports.atOffset? site.address := by
    rw [callee?, hopcode, hmeaning, hsite]
  rw [← hcallee] at hsuccessors
  refine ⟨site.address, haddress,
    accounted_of_succeeds (by simp [hflow]) htrades (hconsumed.trans hu) hregion ?_ ?_⟩
  all_goals obtain ⟨-, rfl⟩ := htrades
  · rw [hsuccessors, onward, hflow]
    cases context.callee? finding with
    | none => rfl
    | some callee =>
      cases hkey : callee.exitKey? <;>
        simp [hkey, Finding.begun, Transfer.write, State.setRegister]
  · intro successor hmem
    rw [hsuccessors] at hmem
    obtain ⟨key', hkey, rfl⟩ := List.mem_map.1 hmem
    exact {
      stack := rfl
      registers := by
        rw [Instruction.result?, if_pos hopcode]
        rfl
      opened := by simp [hopcode]
      closed := by simp [hopcode]
      kept := fun _ => rfl
      key := Option.mem_toList.1 hkey }

/-- **The entry of a protected region takes the kind of the handler, what the kind asks for, and the
handler.** -/
lemma enter_trades (h : context.enter evaluator t = .ok effects) : ∃ raw u region,
    evaluator.Resolves t.offset t.post.stack[0]? raw ∧
    context.image.table.handlerKind? raw = some region.kind ∧
    t.Trades (if region.kind ∈ [HandlerKind.typed, .filtered] then 3 else 2) 0 u ∧
    effects = opening context.settings u region := by
  obtain ⟨raw, kinded, argued, u, region, hkinded, hkind, hargued, hu, -, rfl⟩ := enter_cases h
  obtain ⟨hkinded, hraw⟩ := Transfer.resolveArgument_trades hkinded
  have hhandler := (Transfer.resolveArgument_trades hu).1
  refine ⟨raw, u, region, hraw, hkind, ?_, rfl⟩
  rcases hargued with ⟨hmem, _, _, hargued⟩ | ⟨hmem, rfl⟩
  · rw [if_pos hmem]
    exact (hkinded.trans (Transfer.resolveArgument_trades hargued).1).trans hhandler
  · rw [if_neg (by revert hmem; cases region.kind <;> decide)]
    exact hkinded.trans hhandler

/-- The entry of a region takes the kind, the handler and, for two kinds of handlers, one slot
more. -/
lemma enter_accounted (hopcode : finding.opcode = .enter)
    (hconsumed : finding.consumed = effects.consumed)
    (h : context.enter evaluator (finding.begun key) = .ok effects) : ∃ raw kind,
    evaluator.Resolves finding.offset finding.state.stack[0]? raw ∧
      context.image.table.handlerKind? raw = some kind ∧
      effects.Accounted context finding
        (if kind ∈ [HandlerKind.typed, .filtered] then 3 else 2) 0 key := by
  obtain ⟨raw, u, region, hraw, hkind, htrades, rfl⟩ := enter_trades h
  have hflow : finding.flow = .enter := Opcode.flow_eq_enter_iff.2 hopcode
  refine ⟨raw, region.kind, hraw, hkind, htrades.1, ?_, fun hne => absurd hopcode hne,
    [{ u.post with regions := region :: u.post.regions }], ?_, ?_, ?_⟩
  all_goals obtain ⟨-, rfl⟩ := htrades
  · rw [hconsumed, Instruction.pushed?_eq_none (by simp [hflow])]
    simp [opening, Finding.begun]
  · rfl
  · rw [onward, hflow]
    rfl
  · intro successor hmem
    obtain rfl := List.mem_singleton.1 hmem
    exact {
      stack := rfl
      registers := by
        rw [Instruction.result?_eq_none (by simp [hflow])]
        rfl
      opened := fun _ => ⟨region, rfl, rfl⟩
      closed := by simp [hopcode]
      kept := by simp [hopcode]
      key := by rw [callee?_eq_none (by simp [hflow])]; rfl }

/-- The end of a region takes its handler and leaves nothing. -/
lemma leave_accounted (hopcode : finding.opcode = .leave)
    (hconsumed : finding.consumed = effects.consumed)
    (h : leave evaluator (finding.begun key) = .ok effects) :
    effects.Accounted context finding 1 0 key := by
  obtain ⟨u, region, outer, hu, houter, rfl⟩ := leave_cases h
  have htrades := (Transfer.resolveArgument_trades hu).1
  have hflow : finding.flow = .leave := Opcode.flow_eq_leave_iff.2 hopcode
  refine accounted_of_succeeds (by simp [hflow]) htrades hconsumed rfl ?_ ?_
  all_goals obtain ⟨-, rfl⟩ := htrades
  · rw [onward, hflow]
    rfl
  · intro successor hmem
    obtain rfl := List.mem_singleton.1 hmem
    exact {
      stack := rfl
      registers := by
        rw [Instruction.result?_eq_none (by simp [hflow])]
        rfl
      opened := by simp [hopcode]
      closed := fun _ => ⟨region, houter⟩
      kept := by simp [hopcode]
      key := by rw [callee?_eq_none (by simp [hflow])]; rfl }

/-- A helper call takes the number of the helper and what the helper counts. -/
lemma helper_accounted (hopcode : finding.opcode = .vcall)
    (hmeaning : finding.meaning? = effects.meaning?)
    (hconsumed : finding.consumed = effects.consumed)
    (h : helper context.image evaluator (finding.begun key) = .ok effects) :
    ∃ id call takes leaves, evaluator.Resolves finding.offset finding.state.stack[0]? id ∧
      context.image.table.helper? id = some call ∧
      call.Counts context.image evaluator finding.offset finding.state.stack[1]? takes leaves ∧
      effects.Accounted context finding (1 + takes) leaves key := by
  simp only [helper, bind_eq_ok_iff, Prod.exists, pure_eq_ok_iff] at h
  obtain ⟨call, meaning, called, hcalled, rfl⟩ := h
  obtain ⟨id, takes, leaves, hid, hcall, hcounts, htrades⟩ := Transfer.helperCall_trades hcalled
  have hflow : finding.flow = .helper := Opcode.flow_eq_helper_iff.2 hopcode
  refine ⟨id, call, takes, leaves, hid, hcall, hcounts, ?_⟩
  refine accounted_of_trades (by simp [hflow]) htrades hconsumed rfl ?_
  have hnamed := (Transfer.helperCall_exchanges hcalled).2
  have hends := Finding.endsPath_of_helper hopcode hmeaning hnamed
  obtain ⟨-, rfl⟩ := htrades
  rw [onward, hflow, hends]
  split <;> rfl

/-- A branch only changes where execution goes on. -/
lemma branch_accounted {targets : List Offset}
    (hflow : finding.flow ∈ [Flow.jump, .conditionalJump, .switch])
    (hmeaning : finding.meaning? = (branch u targets).meaning?)
    (hconsumed : finding.consumed = (branch u targets).consumed)
    (hu : (finding.begun key).Trades pops 0 u) :
    (branch u targets).Accounted context finding pops 0 key := by
  have htargets : finding.targets = targets := by
    rw [Finding.targets, hmeaning]
    rfl
  have honward : context.onward finding = targets := by
    rw [← htargets, onward]
    revert hflow
    cases finding.flow <;> simp
  refine accounted_of_trades (by revert hflow; cases finding.flow <;> decide) hu hconsumed rfl ?_
  rw [honward]
  rfl

/-- Every transfer has the effects of an instruction that takes and leaves what it is to take and
leave. -/
lemma transfer_accounted {findings : Findings} (hform : finding.WellFormed)
    (hmeaning : finding.meaning? = effects.meaning?)
    (hconsumed : finding.consumed = effects.consumed)
    (h : context.transfer findings finding.toInstruction finding.state key = .ok effects) :
    ∃ pops pushes, context.Counts findings finding pops pushes ∧
      effects.Accounted context finding pops pushes key := by
  have hregion := (transfer_plain h).2
  unfold transfer at h
  unfold Counts
  cases hflow : finding.flow <;> simp only [hflow] at h ⊢
  case sequential =>
    exact ⟨_, _, ⟨rfl, rfl⟩, sequential_accounted hform hflow hconsumed h⟩
  case jump =>
    simp only [jump, bind_eq_ok_iff, Prod.exists, pure_eq_ok_iff] at h
    obtain ⟨_, u, hu, targets, -, rfl⟩ := h
    exact ⟨_, _, ⟨rfl, rfl⟩,
      branch_accounted (by simp [hflow]) hmeaning hconsumed (Transfer.pop_trades hu).1⟩
  case conditionalJump =>
    simp only [conditionalJump, bind_eq_ok_iff, Prod.exists, pure_eq_ok_iff] at h
    obtain ⟨_, u, hu, _, v, hv, targets, -, rfl⟩ := h
    have hv := (Transfer.pop_trades hu).1.trans (Transfer.pop_trades hv).1
    exact ⟨_, _, ⟨rfl, rfl⟩, branch_accounted (by simp [hflow]) hmeaning hconsumed hv⟩
  case switch =>
    simp only [switch, bind_eq_ok_iff, Prod.exists, pure_eq_ok_iff] at h
    obtain ⟨_, u, hu, _, v, hv, _, -, targets, -, rfl⟩ := h
    have hv := (Transfer.pop_trades hu).1.trans (Transfer.pop_trades hv).1
    exact ⟨_, _, ⟨rfl, rfl⟩, branch_accounted (by simp [hflow]) hmeaning hconsumed hv⟩
  case call =>
    have hopcode := Opcode.flow_eq_call_iff.1 hflow
    obtain ⟨address, haddress, haccounted⟩ :=
      call_accounted hopcode hmeaning hconsumed (hregion (by simp [hflow])) h
    exact ⟨_, _, ⟨address, haddress, rfl, rfl⟩, haccounted⟩
  case ret =>
    simp only [ret, bind_eq_ok_iff, Prod.exists, pure_eq_ok_iff] at h
    obtain ⟨_, u, hu, rfl⟩ := h
    refine ⟨_, _, ⟨rfl, rfl⟩,
      accounted_of_trades (by simp [hflow]) (Transfer.pop_trades hu).1 hconsumed rfl ?_⟩
    rw [onward, hflow]
    rfl
  case enter =>
    obtain ⟨raw, kind, hraw, hkind, haccounted⟩ :=
      enter_accounted (Opcode.flow_eq_enter_iff.1 hflow) hconsumed h
    exact ⟨_, _, ⟨raw, kind, hraw, hkind, rfl, rfl⟩, haccounted⟩
  case leave =>
    exact ⟨_, _, ⟨rfl, rfl⟩, leave_accounted (Opcode.flow_eq_leave_iff.1 hflow) hconsumed h⟩
  case helper =>
    obtain ⟨id, call, takes, leaves, hid, hcall, hcounts, haccounted⟩ :=
      helper_accounted (Opcode.flow_eq_helper_iff.1 hflow) hmeaning hconsumed h
    exact ⟨_, _, ⟨id, call, takes, hid, hcall, hcounts, rfl⟩, haccounted⟩

/-- A call of an external method is counted by its flavour and the method. -/
lemma counts_of_invokes {findings : Findings} {flavour : CallFlavour} {method : Method}
    (hinvokes : finding.Invokes flavour method) (hmeaning : finding.meaning? = effects.meaning?)
    (h : context.transfer findings finding.toInstruction finding.state key = .ok effects) :
    context.Counts findings finding (1 + flavour.takes method) (flavour.leaves method) := by
  obtain ⟨named, constraint?, hexternal, hmethod⟩ := hinvokes
  have hflow : finding.flow = .helper := by
    by_contra hflow
    have hnone := (transfer_plain h).1 hflow
    rw [← hmeaning, hexternal] at hnone
    cases hnone
  simp only [transfer, hflow, helper, bind_eq_ok_iff, Prod.exists, pure_eq_ok_iff] at h
  obtain ⟨call, meaning, u, hcalled, rfl⟩ := h
  obtain rfl : meaning = .external flavour named constraint? :=
    Option.some.inj (hmeaning.symm.trans hexternal)
  obtain ⟨id, hid, hcall, hcounts⟩ := Transfer.counts_of_helperCall hmethod hcalled
  simp only [Counts, hflow]
  exact ⟨id, call, flavour.takes method, hid, hcall, hcounts, rfl⟩

/-- **The exact effect of every instruction.**  It takes the topmost slots and leaves at most one
value of its own, both as many as its opcode and the numbers on top of the stack say; and the states
behind it differ from the state before it only in what it takes, leaves, writes, opens or closes,
and in the key.  A call of an external method takes the number of the helper, the method id, the
constraint if there is one, the declared parameters and the receiver; but where parameters and
receiver are more than a word can count, it takes neither.

**Proof sketch.** Decoding gives the instruction, and the key behind its bytes is the replayed one.
Each effect on control flow has a lemma of its own above, which adds up the slots that are popped
one after the other. -/
theorem execute_accounted {findings : Findings} {state : State}
    (hblob : context.image.blob.Addressable)
    (h : context.execute findings state = .ok (finding, effects)) :
    finding.state = state ∧ finding.offset = state.ip ∧ ∃ pops pushes key,
      (∀ m n, context.Counts findings finding m n ↔ m = pops ∧ n = pushes) ∧ pushes ≤ 1 ∧
      RollingKey.replay context.image.blob finding.offset state.key finding.next = .ok key ∧
      effects.Accounted context finding pops pushes key ∧
      ∀ flavour method, finding.Invokes flavour method →
        pops = 2 + (if flavour = .constrained then 1 else 0) +
          if flavour.receives method then
            if method.parameters.toNat + 1 = UInt64.size then 0 else method.parameters.toNat + 1
          else method.parameters.toNat := by
  obtain ⟨instruction, key, hdecode, htransfer, hfinding⟩ := execute_eq_ok_iff.1 h
  obtain ⟨rfl, rfl, hmeaning, hconsumed⟩ : instruction = finding.toInstruction ∧
      state = finding.state ∧ finding.meaning? = effects.meaning? ∧
      finding.consumed = effects.consumed := by simp [hfinding]
  obtain ⟨pops, pushes, hcounts, haccounted⟩ :=
    transfer_accounted (wellFormed_of_decodeAt hdecode) hmeaning hconsumed htransfer
  refine ⟨rfl, offset_of_decodeAt hdecode, pops, pushes, key, fun m n => ⟨fun h => ?_, ?_⟩,
    hcounts.pushes_le_one, replay_of_decodeAt hblob hdecode, haccounted,
    fun flavour method hinvokes => ?_⟩
  · exact h.unique hcounts
  · rintro ⟨rfl, rfl⟩
    exact hcounts
  · have hexternal := counts_of_invokes hinvokes hmeaning htransfer
    rw [(hcounts.unique hexternal).1, CallFlavour.takes, ← flavour.toNat_arguments method]
    omega

/-- A method with a receiver that declares as many parameters as a word can count. -/
def boundlessMethod : Method where
  declaring := "System.Array"
  name := "Fill"
  parameters := 0xFFFFFFFFFFFFFFFF
  hasThis := true
  returnsValue := false

/-- A call of the boundless method, which has the number 5: `PUSHI 7`, `PUSHI 5`, `PUSHI 2`,
`VCALL`, `RET`. -/
def boundless : Context :=
  let code := ofBlocks [(0, [(.pushi .dword, .dword 7), (.pushi .dword, .dword 5),
    (.pushi .dword, .dword 2), (.vcall, .none), (.ret, .none)])]
  { code with
    image.references := .ofList [((5 : ReferenceId), Reference.method boundlessMethod)] }

/-- Where a region lies inside another one, the inner `TRY` takes the kind of its handler and the
handler, and execution goes on at the handler or inside the region.  A call of a method with
boundless parameters takes no arguments: the slot below the method id stays. -/
theorem execute_accounted_guardedTwice_boundless :
    (guardedTwice.image.blob.Addressable ∧
      ∃ inference stored finding effects, (guardedTwice.infer {}).2 = .ok inference ∧
        inference.findings[(26 : Offset)]? = some stored ∧
        guardedTwice.execute inference.findings stored.state = .ok (finding, effects) ∧
        finding.opcode = .enter ∧ effects.successors.length = 2 ∧ ∃ key,
          (∀ m n, guardedTwice.Counts inference.findings finding m n ↔ m = 2 ∧ n = 0) ∧
          effects.Accounted guardedTwice finding 2 0 key) ∧
    (boundless.image.blob.Addressable ∧
      ∃ inference stored finding effects, (boundless.infer {}).2 = .ok inference ∧
        inference.findings[(18 : Offset)]? = some stored ∧ stored.state.stack.length = 3 ∧
        boundless.execute inference.findings stored.state = .ok (finding, effects) ∧
        finding.Invokes .direct boundlessMethod ∧ ∃ pushes key,
          (∀ m n, boundless.Counts inference.findings finding m n ↔ m = 2 ∧ n = pushes) ∧
          effects.Accounted boundless finding 2 pushes key) := by
  constructor
  · have hblob : guardedTwice.image.blob.size < UInt64.size := by decide +kernel
    obtain ⟨inference, hinfer, hstored⟩ : ∃ inference, (guardedTwice.infer {}).2 = .ok inference ∧
        (inference.findings[(26 : Offset)]?.any fun stored =>
          (guardedTwice.execute inference.findings stored.state).toOption.any fun last =>
            last.1.opcode = .enter ∧ last.1.consumed.length = 2 ∧ last.2.successors.length = 2) :=
      exists_eq_ok (by decide +kernel)
    obtain ⟨stored, hmem, hlast⟩ := (Option.any_eq_true _ _).1 hstored
    obtain ⟨⟨finding, effects⟩, hexecute, hopcode, hlength, hsuccessors⟩ := exists_eq_ok hlast
    obtain ⟨-, -, pops, pushes, key, hcounts, -, -, haccounted, -⟩ :=
      execute_accounted hblob hexecute
    have hflow : finding.flow = .enter := Opcode.flow_eq_enter_iff.2 hopcode
    obtain rfl : pops = 2 := by
      have hdepth : min pops finding.state.stack.length = pops := Nat.min_eq_left haccounted.depth
      rw [haccounted.consumed, Instruction.pushed?_eq_none (by simp [hflow])] at hlength
      simpa [hdepth] using hlength
    obtain rfl : pushes = 0 := by
      have hthis := (hcounts 2 pushes).2 ⟨rfl, rfl⟩
      simp only [Counts, hflow] at hthis
      obtain ⟨_, _, -, -, -, hpushes⟩ := hthis
      exact hpushes
    exact ⟨hblob, inference, stored, finding, effects, hinfer, hmem, hexecute, hopcode, hsuccessors,
      key, hcounts, haccounted⟩
  · have hblob : boundless.image.blob.size < UInt64.size := by decide +kernel
    obtain ⟨inference, hinfer, hstored⟩ : ∃ inference, (boundless.infer {}).2 = .ok inference ∧
        (inference.findings[(18 : Offset)]?.any fun stored => stored.state.stack.length = 3 ∧
          (boundless.execute inference.findings stored.state).toOption.any fun last =>
            last.1.meaning? = some (.external .direct ⟨5, .method boundlessMethod⟩ none)) :=
      exists_eq_ok (by decide +kernel)
    obtain ⟨stored, hmem, hlast⟩ := (Option.any_eq_true _ _).1 hstored
    obtain ⟨hdepth, hlast⟩ := of_decide_eq_true hlast
    obtain ⟨⟨finding, effects⟩, hexecute, hmeaning⟩ := exists_eq_ok hlast
    have hinvokes : finding.Invokes .direct boundlessMethod := ⟨_, none, hmeaning, rfl⟩
    obtain ⟨-, -, pops, pushes, key, hcounts, -, -, haccounted, hexternal⟩ :=
      execute_accounted hblob hexecute
    obtain rfl : pops = 2 := hexternal .direct boundlessMethod hinvokes
    exact ⟨hblob, inference, stored, finding, effects, hinfer, hmem, hdepth, hexecute, hinvokes,
      pushes, key, hcounts, haccounted⟩

end Context

end KeyedVM
