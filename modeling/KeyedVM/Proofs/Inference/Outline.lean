import KeyedVM.Proofs.Inference.Effects

set_option relaxedAutoImplicit false
set_option autoImplicit false

/-!
# Where an execution leads

Whatever an instruction does, control goes on in one of three ways: at the place behind the
instruction, at a target that is part of its meaning, or at the filter or the handler of a protected
region that it opens.  The last two kinds of places are also noted as starts of blocks.

## Main definitions

* `KeyedVM.Region.entries` — the filter and the handler of a protected region;
* `KeyedVM.Meaning.pushes` — the number of values that an instruction with a given meaning pushes;
* `KeyedVM.Transfer.Exchanges` — a transfer pops slots and then pushes values of its own;
* `KeyedVM.Context.opening` — the effects of the entry of a protected region;
* `KeyedVM.Effects.Outlined` — how the parts of the effects of an instruction hang together.

## Main results

* `KeyedVM.Transfer.helperCall_exchanges` — a helper call works on the stack only, and its meaning
  says what it pushes;
* `KeyedVM.Context.call_cases`, `KeyedVM.Context.enter_cases` — what a call and the entry of a
  protected region do;
* `KeyedVM.Context.execute_outlined` — the effects of every execution hang together.
-/

namespace KeyedVM

/-- The places where control enters the code that belongs to a protected region: its filter, if it
has one, and its handler. -/
def Region.entries (region : Region) : List Offset := region.filter?.toList ++ [region.handler]

/-! ## What a helper leaves on the stack -/

/-- The number of values that a helper leaves.  That of an external method is not fixed by the
helper. -/
def HelperForm.pushes : HelperForm → Nat
  | .naming _ _ _ pushes | .plain _ pushes => pushes
  | .external | .throwing => 0

/-- The number of values that an instruction with a given meaning pushes: what the external method
leaves or what the helper does. -/
def Meaning.pushes : Meaning → Nat
  | .external flavour method _ =>
    if method.reference.method?.any (·.returnsValue) || flavour == .construct then 1 else 0
  | meaning => (meaning.helper?.map (·.form.pushes)).getD 0

/-- What a meaning pushes is what its helper leaves, unless an external method is called. -/
lemma Meaning.pushes_eq {meaning : Meaning} {call : HelperCall}
    (h : meaning.helper? = some call) (hform : call.form ≠ .external) :
    meaning.pushes = call.form.pushes := by
  cases meaning with
  | external =>
    obtain rfl := Option.some.inj h
    exact absurd rfl hform
  | jump | call | box | cast | loadFunction | helper => simp [pushes, h]

/-- Where no helper is named, nothing is pushed. -/
lemma Meaning.pushes_eq_zero {meaning? : Option Meaning} (h : meaning?.bind helper? = none) :
    (meaning?.map pushes).getD 0 = 0 := by
  cases meaning? with
  | none => rfl
  | some meaning =>
    cases meaning with
    | jump | call => rfl
    | box | cast | external | loadFunction | helper => cases h

/-! ## What a transfer does to the stack -/

namespace Transfer

variable {t u v : Transfer} {evaluator : Evaluator} {n : Nat}

/-- A transfer pops some slots, notes them as consumed, and then pushes `n` values of its own. -/
def Exchanges (n : Nat) (t u : Transfer) : Prop :=
  ∃ popped rest, t.post.stack = popped ++ rest ∧
    u = { t with
      post := { t.post with stack := List.replicate n (.of t.offset) ++ rest }
      consumed := t.consumed ++ popped }

namespace Exchanges

/-- Without a pop or a push nothing is exchanged. -/
lemma refl (t : Transfer) : t.Exchanges 0 t := ⟨[], t.post.stack, rfl, by simp⟩

/-- Pops come first. -/
lemma trans (h : t.Exchanges 0 u) (h' : u.Exchanges n v) : t.Exchanges n v := by
  obtain ⟨popped, rest, hstack, rfl⟩ := h
  obtain ⟨popped', rest', hstack', rfl⟩ := h'
  simp only [List.replicate_zero, List.nil_append] at hstack'
  exact ⟨popped ++ popped', rest', by simp [hstack, hstack'], by simp⟩

/-- Values that are pushed at the end are those that are left. -/
lemma pushMany (h : t.Exchanges 0 u) (n : Nat) : t.Exchanges n (u.pushMany n) := by
  obtain ⟨popped, rest, hstack, rfl⟩ := h
  exact ⟨popped, rest, hstack, by simp [pushMany_eq]⟩

/-- An exchange stays with its instruction. -/
lemma offset (h : t.Exchanges n u) : u.offset = t.offset := by
  obtain ⟨popped, rest, -, rfl⟩ := h
  rfl

/-- Only the stack changes. -/
lemma post (h : t.Exchanges n u) : u.post = { t.post with stack := u.post.stack } := by
  obtain ⟨popped, rest, -, rfl⟩ := h
  rfl

/-- The place behind the instruction stays. -/
lemma ip (h : t.Exchanges n u) : u.post.ip = t.post.ip := by
  rw [h.post]

/-- The values that are pushed lie on slots that were there. -/
lemma exists_suffix (h : t.Exchanges n u) : ∃ rest, rest <:+ t.post.stack ∧
    u.post.stack = List.replicate n (.of t.offset) ++ rest := by
  obtain ⟨popped, rest, hstack, rfl⟩ := h
  exact ⟨rest, hstack ▸ List.suffix_append popped rest, rfl⟩

/-- What is consumed was consumed before or was on the stack. -/
lemma mem_consumed (h : t.Exchanges n u) {value : Provenance} (hmem : value ∈ u.consumed) :
    value ∈ t.consumed ∨ value ∈ t.post.stack := by
  obtain ⟨popped, rest, hstack, rfl⟩ := h
  rw [hstack]
  exact (List.mem_append.1 hmem).imp_right (List.mem_append_left rest)

end Exchanges

/-- Popping a number of slots leaves no value. -/
lemma popMany_exchanges (h : t.popMany n = .ok u) : t.Exchanges 0 u := by
  obtain ⟨popped, rest, hstack, -, rfl⟩ := popMany_eq_ok_iff.1 h
  exact ⟨popped, rest, hstack, rfl⟩

/-- Popping one slot leaves no value. -/
lemma pop_exchanges {value : Provenance} (h : t.pop = .ok (value, u)) : t.Exchanges 0 u := by
  obtain ⟨rest, hstack, rfl⟩ := pop_eq_ok_iff.1 h
  exact ⟨[value], rest, hstack, rfl⟩

/-- Resolving an argument leaves no value. -/
lemma resolveArgument_exchanges {role : String} {number : UInt64}
    (h : t.resolveArgument evaluator role = .ok (number, u)) : t.Exchanges 0 u := by
  obtain ⟨value, hpop, -⟩ := resolveArgument_eq_ok_iff.1 h
  exact pop_exchanges hpop

/-- A call of an external method leaves a value if the method does or constructs an object. -/
lemma external_exchanges {image : Image} {meaning : Meaning}
    (h : t.external image evaluator = .ok (meaning, u)) : t.Exchanges meaning.pushes u := by
  obtain ⟨flavour, named, _, method, _, first, constrained, popped, rfl, hmethod, hfirst,
    -, -, hconstrained, hpopped, rfl⟩ := external_cases h
  have hconstraint : first.Exchanges 0 constrained := by
    by_cases hf : flavour = .constrained
    · rw [if_pos hf] at hconstrained
      obtain ⟨_, hconstrained⟩ := hconstrained
      exact resolveArgument_exchanges hconstrained
    · rw [if_neg hf] at hconstrained
      exact hconstrained ▸ .refl first
  have hpops := (resolveArgument_exchanges hfirst).trans
    (hconstraint.trans (popMany_exchanges hpopped))
  simpa only [Meaning.pushes, hmethod, Option.any_some] using hpops.pushMany _

/-- A helper leaves as many values as its form says, unless it calls an external method. -/
lemma helperForm_exchanges {image : Image} {call : HelperCall} {form : HelperForm}
    {meaning : Meaning} (h : t.helperForm image evaluator call form = .ok (meaning, u))
    (hform : form ≠ .external) : t.Exchanges form.pushes u := by
  cases form with
  | external => exact absurd rfl hform
  | naming role flagged pops pushes =>
    simp only [helperForm, bind_eq_ok_iff, Prod.exists, pure_eq_ok_iff, Prod.mk.injEq] at h
    obtain ⟨_, named, hnamed, _, -, popped, hpopped, -, rfl⟩ := h
    exact ((resolveArgument_exchanges hnamed).trans (popMany_exchanges hpopped)).pushMany pushes
  | plain pops pushes =>
    simp only [helperForm, bind_eq_ok_iff, pure_eq_ok_iff, Prod.mk.injEq] at h
    obtain ⟨popped, hpopped, -, rfl⟩ := h
    exact (popMany_exchanges hpopped).pushMany pushes
  | throwing =>
    simp only [helperForm, bind_eq_ok_iff, Prod.exists, pure_eq_ok_iff, Prod.mk.injEq] at h
    obtain ⟨_, flagged, hflagged, popped, hpopped, -, rfl⟩ := h
    exact (resolveArgument_exchanges hflagged).trans (popMany_exchanges hpopped)

/-- **The meaning of a helper call names the helper and says what it pushes.** -/
theorem helperCall_exchanges {image : Image} {call : HelperCall} {meaning : Meaning}
    (h : t.helperCall image evaluator = .ok (call, meaning, u)) :
    t.Exchanges meaning.pushes u ∧ meaning.helper? = some call := by
  simp only [helperCall, bind_eq_ok_iff, Prod.exists] at h
  obtain ⟨id, resolved, hresolved, h⟩ := h
  split at h
  · exact absurd h throw_ne_ok
  next named _ =>
  simp only [bind_eq_ok_iff, Prod.exists, pure_eq_ok_iff, Prod.mk.injEq] at h
  obtain ⟨_, _, hform, rfl, rfl, rfl⟩ := h
  refine ⟨(resolveArgument_exchanges hresolved).trans ?_, helper?_of_helperForm hform⟩
  by_cases hexternal : named.form = .external
  · rw [hexternal] at hform
    exact external_exchanges hform
  · rw [Meaning.pushes_eq (helper?_of_helperForm hform) hexternal]
    exact helperForm_exchanges hform hexternal

end Transfer

/-! ## How effects hang together -/

namespace Effects

/-- The targets of a jump; empty for other instructions. -/
def targets (effects : Effects) : List Offset := (effects.meaning?.bind Meaning.targets?).getD []

/-- A place is noted as the start of a block, and control may go on there. -/
def Enters (effects : Effects) (offset : Offset) : Prop :=
  offset ∈ effects.headers ∧ ∃ successor ∈ effects.successors, successor.ip = offset

/-- How the parts of the effects of an instruction hang together. -/
structure Outlined (instruction : Instruction) (effects : Effects) : Prop where
  /-- Every target is entered. -/
  targets : ∀ target ∈ effects.targets, effects.Enters target
  /-- A region is opened by the instruction, and its filter and its handler are entered. -/
  region : ∀ region, effects.region? = some region → region.opener = instruction.offset ∧
    ∀ entry ∈ region.entries, effects.Enters entry
  /-- Control goes on behind the instruction, at a target, or at a filter or handler. -/
  successors : ∀ successor ∈ effects.successors,
    (instruction.opcode.endsPath = false ∧ successor.ip = instruction.next) ∨
    successor.ip ∈ effects.targets ∨
    ∃ region, effects.region? = some region ∧ successor.ip ∈ region.entries

/-- Effects hang together if they have no targets and open no region, and control goes on behind
the instruction or not at all. -/
lemma Outlined.of_next {instruction : Instruction} {effects : Effects}
    (htargets : effects.targets = []) (hregion : effects.region? = none)
    (hends : instruction.opcode.endsPath = false)
    (hnext : ∀ successor ∈ effects.successors, successor.ip = instruction.next) :
    effects.Outlined instruction where
  targets target htarget := by
    rw [htargets] at htarget
    exact absurd htarget List.not_mem_nil
  region region h := by
    rw [hregion] at h
    cases h
  successors successor hmem := Or.inl ⟨hends, hnext successor hmem⟩

/-- A branch enters each of its targets and nothing else. -/
lemma outlined_branch (instruction : Instruction) (t : Transfer) (targets : List Offset) :
    (Context.branch t targets).Outlined instruction where
  targets target htarget := by
    refine ⟨htarget, { t.post with ip := target }, ?_, rfl⟩
    exact List.mem_map.2 ⟨target, htarget, rfl⟩
  region _ h := by cases h
  successors successor hmem := by
    obtain ⟨target, htarget, rfl⟩ := List.mem_map.1 hmem
    exact Or.inr (Or.inl htarget)

end Effects

/-! ## Executions -/

/-- Jumps and returns leave their path, other instructions do not. -/
lemma Opcode.endsPath_eq_false {opcode : Opcode} {flow : Flow} (h : opcode.flow = flow)
    (hflow : flow ∉ [Flow.jump, .conditionalJump, .switch, .ret]) : opcode.endsPath = false := by
  subst h
  unfold endsPath
  split <;> simp_all

/-- Helpers have no targets. -/
lemma Meaning.targets?_eq_none {meaning : Meaning} {call : HelperCall}
    (h : meaning.helper? = some call) : meaning.targets? = none := by
  cases meaning with
  | jump targets => cases h
  | call | box | cast | external | loadFunction | helper => rfl

namespace Context

variable {context : Context} {evaluator : Evaluator} {instruction : Instruction} {t : Transfer}
  {effects : Effects}

/-- An instruction without effect on control flow goes on behind itself. -/
lemma sequential_outlined (hends : instruction.opcode.endsPath = false)
    (hnext : t.post.ip = instruction.next) (h : sequential instruction t = .ok effects) :
    effects.Outlined instruction := by
  simp only [sequential, bind_eq_ok_iff, pure_eq_ok_iff] at h
  obtain ⟨popped, hpopped, rfl⟩ := h
  refine .of_next rfl rfl hends fun successor hmem => ?_
  rw [List.mem_singleton.1 hmem]
  -- registers are written and slots are pushed, but the place behind the instruction stays
  have hpost : popped.post.ip = instruction.next :=
    (Transfer.popMany_exchanges hpopped).ip.trans hnext
  have hpush : ∀ (n : Nat) (t : Transfer), (t.pushMany n).post.ip = t.post.ip := fun n t =>
    ((Transfer.Exchanges.refl t).pushMany n).ip
  split <;> split <;>
    simp only [Transfer.write, Transfer.read, State.setRegister, hpush, hpost]

/-- **What a call does.**  It pops the address and the arguments.  Execution goes on with the result
in its register, with some key. -/
lemma call_cases (h : context.call evaluator t = .ok effects) : ∃ u site, t.Exchanges 0 u ∧
    effects.consumed = u.consumed ∧ effects.meaning? = some (.call site) ∧
    effects.region? = none ∧ ∀ successor ∈ effects.successors, ∃ key,
      successor = { (u.write context.settings.returnRegister).post with key } := by
  simp only [call, bind_eq_ok_iff, Prod.exists] at h
  obtain ⟨address, resolved, hresolved, h⟩ := h
  have hresolved := Transfer.resolveArgument_exchanges hresolved
  split at h
  · obtain rfl := pure_eq_ok_iff.1 h
    refine ⟨resolved, _, hresolved, rfl, rfl, rfl, fun successor hmem => ?_⟩
    exact ⟨resolved.post.key, List.mem_singleton.1 hmem⟩
  · next callee _ =>
    simp only [bind_eq_ok_iff, pure_eq_ok_iff] at h
    obtain ⟨popped, hpopped, rfl⟩ := h
    refine ⟨popped, _, hresolved.trans (Transfer.popMany_exchanges hpopped), rfl, rfl, rfl,
      fun successor hmem => ?_⟩
    cases hkey : callee.exitKey? with
    | none => simp [hkey] at hmem
    | some key =>
      simp only [hkey, List.mem_singleton] at hmem
      exact ⟨key, hmem⟩

/-- A call goes on behind itself or waits for an exit key. -/
lemma call_outlined (hends : instruction.opcode.endsPath = false)
    (hnext : t.post.ip = instruction.next) (h : context.call evaluator t = .ok effects) :
    effects.Outlined instruction := by
  obtain ⟨u, site, hu, -, hmeaning, hregion, hsuccessors⟩ := call_cases h
  refine .of_next (by simp [Effects.targets, hmeaning, Meaning.targets?]) hregion hends
    fun successor hmem => ?_
  obtain ⟨key, rfl⟩ := hsuccessors successor hmem
  exact hu.ip.trans hnext

/-- The effects of the entry of a protected region: execution goes on inside the region, or at its
filter or handler. -/
def opening (settings : Settings) (t : Transfer) (region : Region) : Effects where
  consumed := t.consumed
  successors := region.entries.map (handlerState settings t)
    ++ [{ t.post with regions := region :: t.post.regions }]
  headers := region.entries
  region? := some region

/-- **What the entry of a protected region does.**  It takes the kind of the handler, what the kind
asks for, and the handler; then the region is opened. -/
lemma enter_cases (h : context.enter evaluator t = .ok effects) : ∃ raw kinded argued u region,
    t.resolveArgument evaluator "exception handler type" = .ok (raw, kinded) ∧
    context.image.table.handlerKind? raw = some region.kind ∧
    ((region.kind ∈ [HandlerKind.typed, .filtered] ∧ ∃ role number,
        kinded.resolveArgument evaluator role = .ok (number, argued)) ∨
      (region.kind ∈ [HandlerKind.fault, .cleanup] ∧ argued = kinded)) ∧
    argued.resolveArgument evaluator "handler" = .ok (region.handler, u) ∧
    region.opener = u.offset ∧ effects = opening context.settings u region := by
  simp only [enter, bind_eq_ok_iff, Prod.exists] at h
  obtain ⟨raw, kinded, hkinded, h⟩ := h
  split at h
  · exact absurd h throw_ne_ok
  next kind hkind =>
  simp only [bind_eq_ok_iff, Prod.exists, pure_eq_ok_iff] at h
  obtain ⟨caught?, filter?, argued, hargued, handler, u, hu, rfl⟩ := h
  exact ⟨raw, kinded, argued, u, { opener := u.offset, kind, handler, filter?, caught? }, hkinded,
    hkind, handlerArguments_cases hargued, hu, rfl, rfl⟩

/-- The entry of a protected region pops its operands and opens a region. -/
lemma enter_exchanges (h : context.enter evaluator t = .ok effects) : ∃ u region,
    t.Exchanges 0 u ∧ region.opener = t.offset ∧ effects = opening context.settings u region := by
  obtain ⟨_, kinded, argued, u, region, hkinded, -, hargued, hu, hopener, rfl⟩ := enter_cases h
  have harguments : kinded.Exchanges 0 argued := by
    rcases hargued with ⟨-, _, _, hresolved⟩ | ⟨-, rfl⟩
    · exact Transfer.resolveArgument_exchanges hresolved
    · exact .refl argued
  have hexchanges : t.Exchanges 0 u := (Transfer.resolveArgument_exchanges hkinded).trans
    (harguments.trans (Transfer.resolveArgument_exchanges hu))
  exact ⟨u, region, hexchanges, hopener.trans hexchanges.offset, rfl⟩

/-- The entry of a protected region enters the filter and the handler of the region, and goes on
inside it. -/
lemma enter_outlined (hends : instruction.opcode.endsPath = false)
    (hoffset : t.offset = instruction.offset) (hnext : t.post.ip = instruction.next)
    (h : context.enter evaluator t = .ok effects) :
    effects.Outlined instruction := by
  obtain ⟨u, region, hu, hopener, rfl⟩ := enter_exchanges h
  refine ⟨fun target htarget => absurd htarget List.not_mem_nil, ?_, ?_⟩
  · intro opened hopened
    obtain rfl := Option.some.inj hopened
    refine ⟨hopener.trans hoffset, fun entry hentry => ⟨hentry, ?_⟩⟩
    refine ⟨handlerState context.settings u entry, ?_, rfl⟩
    exact List.mem_append_left _ (List.mem_map.2 ⟨entry, hentry, rfl⟩)
  · intro successor hmem
    rcases List.mem_append.1 hmem with hmem | hmem
    · obtain ⟨entry, hentry, rfl⟩ := List.mem_map.1 hmem
      exact Or.inr (Or.inr ⟨_, rfl, hentry⟩)
    · rw [List.mem_singleton.1 hmem]
      exact Or.inl ⟨hends, hu.ip.trans hnext⟩

/-- The end of a region goes on behind itself. -/
lemma leave_outlined (hends : instruction.opcode.endsPath = false)
    (hnext : t.post.ip = instruction.next) (h : leave evaluator t = .ok effects) :
    effects.Outlined instruction := by
  obtain ⟨resolved, region, outer, hresolved, -, rfl⟩ := leave_cases h
  refine .of_next rfl rfl hends fun successor hmem => ?_
  rw [List.mem_singleton.1 hmem]
  exact (Transfer.resolveArgument_exchanges hresolved).ip.trans hnext

/-- A helper call goes on behind itself, unless the helper ends the path. -/
lemma helper_outlined {image : Image} (hends : instruction.opcode.endsPath = false)
    (hnext : t.post.ip = instruction.next) (h : helper image evaluator t = .ok effects) :
    effects.Outlined instruction := by
  simp only [helper, bind_eq_ok_iff, Prod.exists, pure_eq_ok_iff] at h
  obtain ⟨call, meaning, called, hcalled, rfl⟩ := h
  obtain ⟨hexchanges, hhelper⟩ := Transfer.helperCall_exchanges hcalled
  refine .of_next ?_ rfl hends fun successor hmem => ?_
  · simp only [Effects.targets, Option.bind_some, Meaning.targets?_eq_none hhelper,
      Option.getD_none]
  · split at hmem
    · exact absurd hmem List.not_mem_nil
    · rw [List.mem_singleton.1 hmem]
      exact hexchanges.ip.trans hnext

/-- The effects of every transfer hang together. -/
lemma transfer_outlined {findings : Findings} {state : State} {key : Key}
    (h : context.transfer findings instruction state key = .ok effects) :
    effects.Outlined instruction := by
  unfold transfer at h
  cases hflow : instruction.flow <;> simp only [hflow] at h
  case sequential => exact sequential_outlined (Opcode.endsPath_eq_false hflow (by decide)) rfl h
  case jump =>
    simp only [jump, bind_eq_ok_iff, Prod.exists, pure_eq_ok_iff] at h
    obtain ⟨_, t₁, -, targets, -, rfl⟩ := h
    exact Effects.outlined_branch instruction t₁ targets
  case conditionalJump =>
    simp only [conditionalJump, bind_eq_ok_iff, Prod.exists, pure_eq_ok_iff] at h
    obtain ⟨_, _, -, _, t₂, -, targets, -, rfl⟩ := h
    exact Effects.outlined_branch instruction t₂ _
  case switch =>
    simp only [switch, bind_eq_ok_iff, Prod.exists, pure_eq_ok_iff] at h
    obtain ⟨_, _, -, _, t₂, -, _, -, targets, -, rfl⟩ := h
    exact Effects.outlined_branch instruction t₂ _
  case call => exact call_outlined (Opcode.endsPath_eq_false hflow (by decide)) rfl h
  case ret =>
    simp only [ret, bind_eq_ok_iff, Prod.exists, pure_eq_ok_iff] at h
    obtain ⟨_, _, -, rfl⟩ := h
    refine ⟨fun _ hmem => absurd hmem List.not_mem_nil, fun _ hregion => ?_,
      fun _ hmem => absurd hmem List.not_mem_nil⟩
    exact absurd hregion (Option.some_ne_none _).symm
  case enter => exact enter_outlined (Opcode.endsPath_eq_false hflow (by decide)) rfl rfl h
  case leave => exact leave_outlined (Opcode.endsPath_eq_false hflow (by decide)) rfl h
  case helper => exact helper_outlined (Opcode.endsPath_eq_false hflow (by decide)) rfl h

/-- **The effects of every execution hang together**: every target, and every filter and handler of
a region that is opened, is noted as the start of a block and followed; and control goes on there or
behind the instruction and nowhere else. -/
theorem execute_outlined {findings : Findings} {state : State} {finding : Finding}
    (h : context.execute findings state = .ok (finding, effects)) :
    effects.Outlined finding.toInstruction ∧ finding.targets = effects.targets := by
  obtain ⟨instruction, key, -, htransfer, rfl⟩ := execute_eq_ok_iff.1 h
  exact ⟨transfer_outlined htransfer, rfl⟩

end Context

end KeyedVM
