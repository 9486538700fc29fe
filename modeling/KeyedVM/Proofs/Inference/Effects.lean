import KeyedVM.Inference.Execution
import KeyedVM.Proofs.Outcome

set_option relaxedAutoImplicit false
set_option autoImplicit false

/-!
# Effects of one execution

Executing an instruction reads the findings so far only to resolve its computed operands, and what
was resolved is recorded as its meaning.  Two executions on the same state that give the same
meaning are therefore the same execution, whatever findings they were based on.  The entry of a
protected region is the exception: it has no meaning, although its operands are computed.

## Main results

* `KeyedVM.Transfer.pop_eq_ok_iff`, `popMany_eq_ok_iff`, `pushMany_eq` — the stack of a transfer;
* `KeyedVM.Context.execute_eq_ok_iff` — execution is decoding followed by a transfer;
* `KeyedVM.Transfer.helperCall_unique` — the meaning of a helper call determines its effect;
* `KeyedVM.Context.execute_unique` — the meaning of an instruction determines its effects.
-/

namespace KeyedVM

/-! ## The stack of a transfer -/

namespace Transfer

/-- A pop takes the top slot and notes it as consumed. -/
lemma pop_eq_ok_iff {t t' : Transfer} {v : Provenance} :
    t.pop = .ok (v, t') ↔ ∃ rest, t.post.stack = v :: rest ∧
      t' = { t with post := { t.post with stack := rest }, consumed := t.consumed ++ [v] } := by
  cases hs : t.post.stack with
  | nil => simp only [pop, State.pop, hs, bind_eq_ok_iff, reduceCtorEq, false_and, exists_false]
  | cons top rest =>
    simp only [pop, State.pop, hs, bind_eq_ok_iff, pure_eq_ok_iff, Prod.exists]
    grind

/-- Several pops take the topmost slots, in the order of popping. -/
lemma popMany_eq_ok_iff {n : Nat} {t t' : Transfer} :
    t.popMany n = .ok t' ↔ ∃ popped rest, t.post.stack = popped ++ rest ∧ popped.length = n ∧
      t' = { t with post := { t.post with stack := rest },
                    consumed := t.consumed ++ popped } := by
  induction n generalizing t with
  | zero =>
    simp only [popMany, Except.ok.injEq]
    constructor
    · rintro rfl
      exact ⟨[], t.post.stack, by simp⟩
    · rintro ⟨popped, rest, hs, hn, rfl⟩
      obtain rfl := List.length_eq_zero_iff.1 hn
      simp only [List.nil_append] at hs
      simp [← hs]
  | succ n ih =>
    simp only [popMany, bind_eq_ok_iff, Prod.exists, pop_eq_ok_iff, ih]
    constructor
    · rintro ⟨v, t₁, ⟨rest, hs, rfl⟩, popped, rest', hs', hn, rfl⟩
      exact ⟨v :: popped, rest', by simp_all, by simp [hn], by simp⟩
    · rintro ⟨popped, rest, hs, hn, rfl⟩
      obtain ⟨v, popped, rfl⟩ := List.exists_cons_of_length_eq_add_one hn
      exact ⟨v, _, ⟨popped ++ rest, by simp [hs], rfl⟩, popped, rest, rfl, by simpa using hn,
        by simp⟩

/-- Several pushes put as many copies of the instruction's own offset on the stack. -/
lemma pushMany_eq (n : Nat) (t : Transfer) :
    t.pushMany n = { t with post :=
      { t.post with stack := List.replicate n (.of t.offset) ++ t.post.stack } } := by
  induction n generalizing t with
  | zero => rfl
  | succ n ih =>
    rw [pushMany, ih]
    simp only [push, State.push, mk.injEq, State.mk.injEq, true_and, and_true]
    rw [List.replicate_succ', List.append_assoc]
    rfl

/-- Reducing an argument to a number is a pop followed by an evaluation. -/
lemma resolveArgument_eq_ok_iff {evaluator : Evaluator} {role : String} {t t' : Transfer}
    {number : UInt64} : t.resolveArgument evaluator role = .ok (number, t') ↔
      ∃ v, t.pop = .ok (v, t') ∧ evaluator.resolveSingle v t'.offset role = .ok number := by
  simp only [resolveArgument, bind_eq_ok_iff, Prod.exists, pure_eq_ok_iff, Prod.mk.injEq]
  constructor
  · rintro ⟨v, t₁, hp, n, hn, rfl, rfl⟩
    exact ⟨v, hp, hn⟩
  · rintro ⟨v, hp, hn⟩
    exact ⟨v, t', hp, number, hn, rfl, rfl⟩

/-- Which slot an argument is taken from does not depend on what it evaluates to. -/
lemma resolveArgument_unique {evaluator evaluator' : Evaluator} {role role' : String}
    {t t₁ t₂ : Transfer} {m n : UInt64}
    (h₁ : t.resolveArgument evaluator role = .ok (m, t₁))
    (h₂ : t.resolveArgument evaluator' role' = .ok (n, t₂)) : t₁ = t₂ := by
  obtain ⟨v, hv, -⟩ := resolveArgument_eq_ok_iff.1 h₁
  obtain ⟨w, hw, -⟩ := resolveArgument_eq_ok_iff.1 h₂
  rw [hv] at hw
  simp only [Except.ok.injEq, Prod.mk.injEq] at hw
  exact hw.2

end Transfer

/-! ## Helper calls -/

/-- The helper that a meaning belongs to. -/
def Meaning.helper? : Meaning → Option HelperCall
  | .jump _ | .call _ => none
  | .box _ => some .box
  | .cast _ _ => some .cast
  | .external _ _ _ => some .external
  | .loadFunction _ => some .loadFunction
  | .helper name _ _ => some name

namespace Transfer

/-- What a call of an external method does to the stack, given the flavour of the call and the
method, which the tables give for the method id: the method id and the constraint are popped first,
then the arguments. -/
lemma external_cases {image : Image} {evaluator : Evaluator} {t t' : Transfer}
    {meaning : Meaning} (h : t.external image evaluator = .ok (meaning, t')) :
    ∃ flavour named constraint? method raw u v w,
      meaning = .external flavour named constraint? ∧
      named.reference.method? = some method ∧
      t.resolveArgument evaluator "ecall method" = .ok (raw, u) ∧
      image.table.flavours.entry? (flavourSelector raw) = some flavour ∧
      image.references.named u.offset (raw &&& methodIdMask) = .ok named ∧
      (if flavour = .constrained then
        ∃ raw', u.resolveArgument evaluator "constraint type" = .ok (raw', v) else v = u) ∧
      v.popMany (flavour.arguments method) = .ok w ∧
      t' = w.pushMany (if method.returnsValue || flavour == .construct then 1 else 0) := by
  simp only [external, bind_eq_ok_iff, Prod.exists] at h
  obtain ⟨raw, u, hu, h⟩ := h
  split at h
  · exact absurd h throw_ne_ok
  next flavour hflavour =>
  simp only [bind_eq_ok_iff] at h
  obtain ⟨named, hnamed, h⟩ := h
  split at h
  · exact absurd h throw_ne_ok
  next method hm =>
  split at h
  · next hf =>
    simp only [bind_eq_ok_iff, Prod.exists, pure_eq_ok_iff, Prod.mk.injEq] at h
    obtain ⟨raw', v, hv, constraint, -, _, _, ⟨rfl, rfl⟩, w, hw, rfl, rfl⟩ := h
    exact ⟨flavour, named, some constraint, method, raw, u, v, w, rfl, hm, hu,
      hflavour, hnamed, by rw [if_pos hf]; exact ⟨raw', hv⟩, hw, rfl⟩
  · next hf =>
    simp only [bind_eq_ok_iff, Prod.exists, pure_eq_ok_iff, Prod.mk.injEq] at h
    obtain ⟨_, _, ⟨rfl, rfl⟩, w, hw, rfl, rfl⟩ := h
    exact ⟨flavour, named, none, method, raw, u, u, w, rfl, hm, hu, hflavour, hnamed,
      by rw [if_neg hf], hw, rfl⟩

/-- The meaning that is given to a helper call names the helper. -/
lemma helper?_of_helperForm {image : Image} {evaluator : Evaluator} {call : HelperCall}
    {t t' : Transfer} {meaning : Meaning}
    (h : t.helperForm image evaluator call call.form = .ok (meaning, t')) :
    meaning.helper? = some call := by
  cases hf : call.form with
  | external =>
    rw [hf] at h
    have hcall : call = .external := by cases call <;> simp_all [HelperCall.form]
    obtain ⟨_, _, _, _, _, _, _, _, rfl, -⟩ := external_cases h
    rw [hcall]
    rfl
  | naming role flagged pops pushes =>
    rw [hf] at h
    simp only [helperForm, bind_eq_ok_iff, Prod.exists, pure_eq_ok_iff, Prod.mk.injEq] at h
    obtain ⟨raw, t₁, -, named, -, t₂, -, rfl, -⟩ := h
    cases call <;> rfl
  | plain pops pushes =>
    rw [hf] at h
    simp only [helperForm, bind_eq_ok_iff, pure_eq_ok_iff, Prod.mk.injEq] at h
    obtain ⟨t₁, -, rfl, -⟩ := h
    rfl
  | throwing =>
    rw [hf] at h
    simp only [helperForm, bind_eq_ok_iff, Prod.exists, pure_eq_ok_iff, Prod.mk.injEq] at h
    obtain ⟨rethrow, t₁, -, t₂, -, rfl, -⟩ := h
    rfl

/-- Two calls of the same external method pop the same slots.

**Proof sketch.** The method id is the first argument of both.  The meaning names the flavour and
the method; the flavour decides whether a constraint is popped, and both together decide how many
arguments are. -/
lemma external_unique {image : Image} {evaluator evaluator' : Evaluator} {t t₁ t₂ : Transfer}
    {meaning : Meaning} (h₁ : t.external image evaluator = .ok (meaning, t₁))
    (h₂ : t.external image evaluator' = .ok (meaning, t₂)) : t₁ = t₂ := by
  obtain ⟨flavour, named, constraint₁, method₁, _, u₁, v₁, w₁, rfl, hm₁, hu₁, -, -, hv₁, hw₁,
    rfl⟩ := external_cases h₁
  obtain ⟨_, _, constraint₂, method₂, _, u₂, v₂, w₂, hmeaning, hm₂, hu₂, -, -, hv₂, hw₂,
    rfl⟩ := external_cases h₂
  obtain ⟨rfl, rfl, rfl⟩ := Meaning.external.inj hmeaning
  obtain rfl : method₁ = method₂ := Option.some.inj (hm₁.symm.trans hm₂)
  obtain rfl := resolveArgument_unique hu₁ hu₂
  have hv : v₁ = v₂ := by
    by_cases hf : flavour = .constrained
    · rw [if_pos hf] at hv₁ hv₂
      obtain ⟨_, hv₁⟩ := hv₁
      obtain ⟨_, hv₂⟩ := hv₂
      exact resolveArgument_unique hv₁ hv₂
    · rw [if_neg hf] at hv₁ hv₂
      rw [hv₁, hv₂]
  rw [hv, hw₂] at hw₁
  rw [Except.ok.inj hw₁]

/-- Two calls of one helper with the same meaning pop and push the same slots. -/
lemma helperForm_unique {image : Image} {evaluator evaluator' : Evaluator} {call : HelperCall}
    {form : HelperForm} {t t₁ t₂ : Transfer} {meaning : Meaning}
    (h₁ : t.helperForm image evaluator call form = .ok (meaning, t₁))
    (h₂ : t.helperForm image evaluator' call form = .ok (meaning, t₂)) : t₁ = t₂ := by
  cases form with
  | external => exact external_unique h₁ h₂
  | naming role flagged pops pushes =>
    simp only [helperForm, bind_eq_ok_iff, Prod.exists, pure_eq_ok_iff, Prod.mk.injEq] at h₁ h₂
    obtain ⟨_, u₁, hu₁, _, -, v₁, hv₁, -, rfl⟩ := h₁
    obtain ⟨_, u₂, hu₂, _, -, v₂, hv₂, -, rfl⟩ := h₂
    rw [resolveArgument_unique hu₁ hu₂, hv₂] at hv₁
    rw [Except.ok.inj hv₁]
  | plain pops pushes =>
    rw [helperForm] at h₁ h₂
    rw [h₁] at h₂
    simpa using h₂
  | throwing =>
    simp only [helperForm, bind_eq_ok_iff, Prod.exists, pure_eq_ok_iff, Prod.mk.injEq] at h₁ h₂
    obtain ⟨r₁, u₁, hu₁, v₁, hv₁, hm₁, rfl⟩ := h₁
    obtain ⟨r₂, u₂, hu₂, v₂, hv₂, hm₂, rfl⟩ := h₂
    -- the flag that decides how many slots are popped is part of the meaning
    obtain rfl : r₁ = r₂ := by simpa using hm₁.trans hm₂.symm
    rw [resolveArgument_unique hu₁ hu₂, hv₂] at hv₁
    exact (Except.ok.inj hv₁).symm

/-- The meaning of a helper call determines the helper and the transfer behind it. -/
lemma helperCall_unique {image : Image} {evaluator evaluator' : Evaluator} {t t₁ t₂ : Transfer}
    {call₁ call₂ : HelperCall} {meaning : Meaning}
    (h₁ : t.helperCall image evaluator = .ok (call₁, meaning, t₁))
    (h₂ : t.helperCall image evaluator' = .ok (call₂, meaning, t₂)) :
    call₁ = call₂ ∧ t₁ = t₂ := by
  simp only [helperCall, bind_eq_ok_iff, Prod.exists] at h₁ h₂
  obtain ⟨id₁, u₁, hu₁, h₁⟩ := h₁
  obtain ⟨id₂, u₂, hu₂, h₂⟩ := h₂
  obtain rfl := resolveArgument_unique hu₁ hu₂
  split at h₁
  · exact absurd h₁ throw_ne_ok
  split at h₂
  · exact absurd h₂ throw_ne_ok
  simp only [bind_eq_ok_iff, Prod.exists, pure_eq_ok_iff, Prod.mk.injEq] at h₁ h₂
  obtain ⟨_, _, hf₁, rfl, rfl, rfl⟩ := h₁
  obtain ⟨_, _, hf₂, rfl, rfl, rfl⟩ := h₂
  have hcall := (helper?_of_helperForm hf₁).symm.trans (helper?_of_helperForm hf₂)
  obtain rfl := Option.some.inj hcall
  exact ⟨rfl, helperForm_unique hf₁ hf₂⟩

end Transfer

/-! ## Execution -/

/-- The opener of a protected region is the only opcode with that effect on control flow. -/
lemma Opcode.flow_eq_enter_iff {opcode : Opcode} :
    opcode.flow = .enter ↔ opcode = .enter := by
  cases opcode <;> simp [Opcode.flow]

namespace Context

/-- The meaning of a branch lists its targets, so it determines the branch. -/
lemma branch_unique {t : Transfer} {targets targets' : List Offset}
    (h : (branch t targets).meaning? = (branch t targets').meaning?) :
    branch t targets = branch t targets' := by
  have htargets : targets = targets' := by simpa [branch] using h
  rw [htargets]

/-- The effects of a jump are determined by what it is found to mean. -/
lemma jump_unique {evaluator evaluator' : Evaluator} {t : Transfer} {e e' : Effects}
    (h : jump evaluator t = .ok e) (h' : jump evaluator' t = .ok e')
    (hm : e.meaning? = e'.meaning?) : e = e' := by
  simp only [jump, bind_eq_ok_iff, Prod.exists, pure_eq_ok_iff] at h h'
  obtain ⟨v, t₁, hp, targets, -, rfl⟩ := h
  obtain ⟨v', t₁', hp', targets', -, rfl⟩ := h'
  obtain ⟨rfl, rfl⟩ : v = v' ∧ t₁ = t₁' := by simpa using hp.symm.trans hp'
  exact branch_unique hm

/-- The effects of a conditional jump are determined by what it is found to mean. -/
lemma conditionalJump_unique {evaluator evaluator' : Evaluator} {t : Transfer} {e e' : Effects}
    (h : conditionalJump evaluator t = .ok e) (h' : conditionalJump evaluator' t = .ok e')
    (hm : e.meaning? = e'.meaning?) : e = e' := by
  simp only [conditionalJump, bind_eq_ok_iff, Prod.exists, pure_eq_ok_iff] at h h'
  obtain ⟨v, t₁, hp, c, t₂, hc, targets, -, rfl⟩ := h
  obtain ⟨v', t₁', hp', c', t₂', hc', targets', -, rfl⟩ := h'
  obtain ⟨rfl, rfl⟩ : v = v' ∧ t₁ = t₁' := by simpa using hp.symm.trans hp'
  obtain ⟨rfl, rfl⟩ : c = c' ∧ t₂ = t₂' := by simpa using hc.symm.trans hc'
  exact branch_unique hm

/-- The effects of a switch are determined by what it is found to mean. -/
lemma switch_unique {image : Image} {evaluator evaluator' : Evaluator} {t : Transfer}
    {e e' : Effects} (h : switch image evaluator t = .ok e)
    (h' : switch image evaluator' t = .ok e') (hm : e.meaning? = e'.meaning?) : e = e' := by
  simp only [switch, bind_eq_ok_iff, Prod.exists, pure_eq_ok_iff] at h h'
  obtain ⟨v, t₁, hp, c, t₂, hc, _, -, targets, -, rfl⟩ := h
  obtain ⟨v', t₁', hp', c', t₂', hc', _, -, targets', -, rfl⟩ := h'
  obtain ⟨rfl, rfl⟩ : v = v' ∧ t₁ = t₁' := by simpa using hp.symm.trans hp'
  obtain ⟨rfl, rfl⟩ : c = c' ∧ t₂ = t₂' := by simpa using hc.symm.trans hc'
  exact branch_unique hm

/-- The address of the called code is part of the meaning of a call and decides everything
else. -/
lemma call_unique {context : Context} {evaluator evaluator' : Evaluator} {t : Transfer}
    {e e' : Effects} (h : context.call evaluator t = .ok e)
    (h' : context.call evaluator' t = .ok e') (hm : e.meaning? = e'.meaning?) : e = e' := by
  simp only [call, bind_eq_ok_iff, Prod.exists] at h h'
  obtain ⟨address, t₁, ht, h⟩ := h
  obtain ⟨address', t₁', ht', h'⟩ := h'
  obtain rfl := Transfer.resolveArgument_unique ht ht'
  suffices haddress : address = address' by
    subst haddress
    exact Except.ok.inj (h.symm.trans h')
  split at h <;> split at h' <;>
    simp only [bind_eq_ok_iff, pure_eq_ok_iff] at h h'
  · subst h h'
    simpa using hm
  · obtain ⟨_, -, rfl⟩ := h'
    subst h
    simp at hm
  · obtain ⟨_, -, rfl⟩ := h
    subst h'
    simp at hm
  · obtain ⟨_, -, rfl⟩ := h
    obtain ⟨_, -, rfl⟩ := h'
    simp only [Option.some.injEq, Meaning.call.injEq, CallSite.mk.injEq] at hm
    exact hm.1

/-- The kind of a handler decides whether it takes an argument. -/
lemma handlerArguments_cases {evaluator : Evaluator} {kind : HandlerKind} {t u : Transfer}
    {caught? : Option ReferenceId} {filter? : Option Offset}
    (h : handlerArguments evaluator kind t = .ok (caught?, filter?, u)) :
    (kind ∈ [HandlerKind.typed, .filtered] ∧ ∃ role number,
      t.resolveArgument evaluator role = .ok (number, u)) ∨
    (kind ∈ [HandlerKind.fault, .cleanup] ∧ u = t) := by
  cases kind with
  | typed =>
    simp only [handlerArguments, bind_eq_ok_iff, Prod.exists] at h
    obtain ⟨raw, resolved, hresolved, h⟩ := h
    split at h
    · exact absurd h throw_ne_ok
    · simp only [pure_eq_ok_iff, Prod.mk.injEq] at h
      obtain ⟨-, -, rfl⟩ := h
      exact Or.inl ⟨by simp, _, raw, hresolved⟩
  | filtered =>
    simp only [handlerArguments, bind_eq_ok_iff, Prod.exists, pure_eq_ok_iff, Prod.mk.injEq] at h
    obtain ⟨filter, _, hresolved, -, -, rfl⟩ := h
    exact Or.inl ⟨by simp, _, filter, hresolved⟩
  | fault | cleanup =>
    simp only [handlerArguments, Except.ok.injEq, Prod.mk.injEq] at h
    obtain ⟨-, -, rfl⟩ := h
    exact Or.inr ⟨by simp, rfl⟩

/-- An exit names the handler of the innermost region, which it closes. -/
lemma leave_cases {evaluator : Evaluator} {t : Transfer} {e : Effects}
    (h : leave evaluator t = .ok e) : ∃ t₁ region outer,
      t.resolveArgument evaluator "leave target" = .ok (region.handler, t₁) ∧
      t₁.post.regions = region :: outer ∧
      e = { consumed := t₁.consumed,
            successors := [{ t₁.post with regions := outer }] } := by
  simp only [leave, bind_eq_ok_iff, Prod.exists] at h
  obtain ⟨handler, t₁, ht, h⟩ := h
  split at h
  · exact absurd h throw_ne_ok
  next region outer hregions =>
  split at h
  · next hhandler =>
    rw [pure_eq_ok_iff] at h
    exact ⟨t₁, region, outer, hhandler ▸ ht, hregions, h.symm⟩
  · exact absurd h throw_ne_ok

/-- The effects of the end of a region do not depend on what the evaluator knows. -/
lemma leave_unique {evaluator evaluator' : Evaluator} {t : Transfer} {e e' : Effects}
    (h : leave evaluator t = .ok e) (h' : leave evaluator' t = .ok e') : e = e' := by
  obtain ⟨t₁, region, outer, ht, hregions, rfl⟩ := leave_cases h
  obtain ⟨t₁', region', outer', ht', hregions', rfl⟩ := leave_cases h'
  obtain rfl := Transfer.resolveArgument_unique ht ht'
  rw [hregions] at hregions'
  rw [(List.cons.inj hregions').2]

/-- The effects of a helper call are determined by what it is found to mean. -/
lemma helper_unique {image : Image} {evaluator evaluator' : Evaluator} {t : Transfer}
    {e e' : Effects} (h : helper image evaluator t = .ok e)
    (h' : helper image evaluator' t = .ok e') (hm : e.meaning? = e'.meaning?) : e = e' := by
  simp only [helper, bind_eq_ok_iff, Prod.exists, pure_eq_ok_iff] at h h'
  obtain ⟨call, meaning, t₁, hc, rfl⟩ := h
  obtain ⟨call', meaning', t₁', hc', rfl⟩ := h'
  obtain rfl : meaning = meaning' := by simpa using hm
  obtain ⟨rfl, rfl⟩ := Transfer.helperCall_unique hc hc'
  rfl

/-- The meaning of an instruction determines the effects of its transfer, unless it opens a
protected region. -/
lemma transfer_unique {context : Context} {findings findings' : Findings}
    {instruction : Instruction} {state : State} {key : Key} {e e' : Effects}
    (h : context.transfer findings instruction state key = .ok e)
    (h' : context.transfer findings' instruction state key = .ok e')
    (hm : e.meaning? = e'.meaning?) (hflow : instruction.flow ≠ .enter) : e = e' := by
  unfold transfer at h h'
  cases hf : instruction.flow <;> simp only [hf] at h h'
  case sequential | ret => exact Except.ok.inj (h.symm.trans h')
  case jump => exact jump_unique h h' hm
  case conditionalJump => exact conditionalJump_unique h h' hm
  case switch => exact switch_unique h h' hm
  case call => exact call_unique h h' hm
  case enter => exact absurd hf hflow
  case leave => exact leave_unique h h'
  case helper => exact helper_unique h h' hm

/-- Execution is decoding followed by a transfer; the finding records its outcome. -/
lemma execute_eq_ok_iff {context : Context} {findings : Findings} {state : State}
    {finding : Finding} {effects : Effects} :
    context.execute findings state = .ok (finding, effects) ↔ ∃ instruction key,
      decodeAt context.image.table context.image.blob state.ip state.key
        = .ok (instruction, key) ∧
      context.transfer findings instruction state key = .ok effects ∧
      finding = { toInstruction := instruction, state, meaning? := effects.meaning?,
                  consumed := effects.consumed } := by
  simp only [execute, bind_eq_ok_iff, Prod.exists, pure_eq_ok_iff, Prod.mk.injEq]
  constructor
  · rintro ⟨instruction, key, hd, e, ht, rfl, rfl⟩
    exact ⟨instruction, key, hd, ht, rfl⟩
  · rintro ⟨instruction, key, hd, ht, rfl⟩
    exact ⟨instruction, key, hd, effects, ht, rfl, rfl⟩

/-- **The meaning of an instruction determines its effects**: two executions of one state that
find the same meaning agree on everything, also if they were based on different findings.

**Proof sketch.** Both decode the same instruction.  Whatever they evaluate differently shows in
the meaning, by the lemmas above, one for each effect on control flow. -/
theorem execute_unique {context : Context} {findings findings' : Findings} {state : State}
    {f f' : Finding} {e e' : Effects} (h : context.execute findings state = .ok (f, e))
    (h' : context.execute findings' state = .ok (f', e')) (hm : f.meaning? = f'.meaning?)
    (hf : f.opcode ≠ .enter) : f = f' ∧ e = e' := by
  obtain ⟨instruction, key, hd, ht, rfl⟩ := execute_eq_ok_iff.1 h
  obtain ⟨instruction', key', hd', ht', rfl⟩ := execute_eq_ok_iff.1 h'
  obtain ⟨rfl, rfl⟩ : instruction = instruction' ∧ key = key' := by
    simpa using hd.symm.trans hd'
  have hflow : instruction.flow ≠ .enter := fun hflow => hf (Opcode.flow_eq_enter_iff.1 hflow)
  obtain rfl := transfer_unique ht ht' hm hflow
  exact ⟨rfl, rfl⟩

end Context

end KeyedVM
