import KeyedVM.Proofs.Inference.Charting

set_option relaxedAutoImplicit false
set_option autoImplicit false

/-!
# The exit keys of called functions

A call of a function goes on with the exit key that the table holds for it.  If there is none, the
path ends and the caller waits for the function.  So an analysis waits only for functions without an
exit key, and every function that it calls without waiting for it has one.

## Main definitions

* `KeyedVM.ExportTable.exitKey?` — the exit key of a function;
* `KeyedVM.Effects.Keyed` — what the effects of a call have to do with exit keys;
* `KeyedVM.Run.Waits` — the invariant of a run.

## Main results

* `KeyedVM.Context.execute_keyed` — every execution goes on with the exit key or waits for it;
* `KeyedVM.Run.Reachable.waits` — the invariant holds along every analysis;
* `KeyedVM.Context.infer_waits` — an analysis waits for the functions without an exit key.
-/

namespace KeyedVM

namespace ExportTable

/-- The exit key that the table holds for a function. -/
def exitKey? (table : ExportTable) (id : ExportId) : Option Key :=
  table.entries[id]?.bind (·.exitKey?)

/-- The function at an offset is the one with its number. -/
lemma exitKey?_of_atOffset? {table : ExportTable} {offset : Offset} {callee : Export}
    (h : table.atOffset? offset = some callee) : table.exitKey? callee.id = callee.exitKey? := by
  obtain ⟨⟨id, item⟩, hmem, rfl⟩ := List.mem_map.1 (List.mem_of_find?_eq_some h)
  have hitem : table.entries[id]? = some item :=
    Std.ExtTreeMap.mem_toList_iff_getElem?_eq_some.1 hmem
  rw [exitKey?, table.id_eq hitem, hitem]
  rfl

end ExportTable

/-- What the effects of an execution have to do with exit keys: it waits for a function only if that
one has no exit key; and a call of a function waits for it, or goes on with its exit key. -/
structure Effects.Keyed (exports : ExportTable) (effects : Effects) : Prop where
  waiting : ∀ id, effects.waitingFor? = some id → exports.exitKey? id = none
  callee : ∀ site id, effects.meaning? = some (.call site) → site.exportId? = some id →
    effects.waitingFor? = some id ∨ ∃ key successor, exports.exitKey? id = some key ∧
      effects.successors = [successor] ∧ successor.key = key

/-- An execution that calls no function waits for none. -/
lemma Effects.Keyed.of_no_call {exports : ExportTable} {effects : Effects}
    (hwaiting : effects.waitingFor? = none)
    (hmeaning : ∀ site, effects.meaning? ≠ some (.call site)) : effects.Keyed exports where
  waiting id h := by
    rw [hwaiting] at h
    cases h
  callee site id h := absurd h (hmeaning site)

namespace Context

variable {context : Context} {evaluator : Evaluator} {t : Transfer} {effects : Effects}

/-- A branch has nothing to do with exit keys. -/
lemma keyed_branch (exports : ExportTable) (targets : List Offset) :
    (branch t targets).Keyed exports := .of_no_call rfl fun site h => by cases h

/-- A call goes on with the exit key of the function that it calls, or waits for it. -/
lemma call_keyed (h : context.call evaluator t = .ok effects) :
    effects.Keyed context.image.exports := by
  simp only [call, bind_eq_ok_iff, Prod.exists] at h
  obtain ⟨address, resolved, -, h⟩ := h
  split at h
  · obtain rfl := pure_eq_ok_iff.1 h
    refine ⟨fun id hwaiting => ?_, fun site id hmeaning hid => ?_⟩
    · cases hwaiting
    · obtain rfl := Meaning.call.inj (Option.some.inj hmeaning)
      cases hid
  · next callee hcallee =>
    simp only [bind_eq_ok_iff, pure_eq_ok_iff] at h
    obtain ⟨popped, -, rfl⟩ := h
    have hkey := ExportTable.exitKey?_of_atOffset? hcallee
    refine ⟨fun id hwaiting => ?_, fun site id hmeaning hid => ?_⟩
    · simp only [Option.ite_none_right_eq_some, Option.some.injEq] at hwaiting
      obtain ⟨hnone, rfl⟩ := hwaiting
      rw [hkey, Option.isNone_iff_eq_none.1 hnone]
    · obtain rfl := Meaning.call.inj (Option.some.inj hmeaning)
      obtain rfl := Option.some.inj hid
      cases hknown : callee.exitKey? with
      | none => exact Or.inl rfl
      | some key => exact Or.inr ⟨key, _, hkey.trans hknown, rfl, rfl⟩

/-- No instruction but a call has to do with exit keys. -/
lemma transfer_keyed {findings : Findings} {instruction : Instruction} {state : State} {key : Key}
    (h : context.transfer findings instruction state key = .ok effects) :
    effects.Keyed context.image.exports := by
  unfold transfer at h
  cases hflow : instruction.flow <;> simp only [hflow] at h
  case sequential =>
    simp only [sequential, bind_eq_ok_iff, pure_eq_ok_iff] at h
    obtain ⟨_, -, rfl⟩ := h
    exact .of_no_call rfl fun site h => by cases h
  case jump =>
    simp only [jump, bind_eq_ok_iff, Prod.exists, pure_eq_ok_iff] at h
    obtain ⟨_, _, -, targets, -, rfl⟩ := h
    exact keyed_branch _ targets
  case conditionalJump =>
    simp only [conditionalJump, bind_eq_ok_iff, Prod.exists, pure_eq_ok_iff] at h
    obtain ⟨_, _, -, _, _, -, targets, -, rfl⟩ := h
    exact keyed_branch _ _
  case switch =>
    simp only [switch, bind_eq_ok_iff, Prod.exists, pure_eq_ok_iff] at h
    obtain ⟨_, _, -, _, _, -, _, -, targets, -, rfl⟩ := h
    exact keyed_branch _ _
  case call => exact call_keyed h
  case ret =>
    simp only [ret, bind_eq_ok_iff, Prod.exists, pure_eq_ok_iff] at h
    obtain ⟨_, _, -, rfl⟩ := h
    exact .of_no_call rfl fun site h => by cases h
  case enter =>
    obtain ⟨_, _, -, -, rfl⟩ := enter_exchanges h
    exact .of_no_call rfl fun site h => by cases h
  case leave =>
    obtain ⟨_, _, _, -, -, rfl⟩ := leave_cases h
    exact .of_no_call rfl fun site h => by cases h
  case helper =>
    simp only [helper, bind_eq_ok_iff, Prod.exists, pure_eq_ok_iff] at h
    obtain ⟨_, meaning, _, hcalled, rfl⟩ := h
    obtain ⟨-, hhelper⟩ := Transfer.helperCall_exchanges hcalled
    refine .of_no_call rfl fun site h => ?_
    obtain rfl := Option.some.inj h
    cases hhelper

/-- **Every execution goes on with the exit key or waits for it.** -/
theorem execute_keyed {findings : Findings} {state : State} {finding : Finding}
    (h : context.execute findings state = .ok (finding, effects)) :
    effects.Keyed context.image.exports ∧ finding.meaning? = effects.meaning? := by
  obtain ⟨instruction, key, -, htransfer, rfl⟩ := execute_eq_ok_iff.1 h
  exact ⟨transfer_keyed htransfer, rfl⟩

/-- The opener of a protected region has no meaning. -/
lemma opcode_ne_enter {findings : Findings} {state : State} {finding : Finding} {meaning : Meaning}
    (h : context.execute findings state = .ok (finding, effects))
    (hmeaning : finding.meaning? = some meaning) : finding.opcode ≠ .enter := by
  intro hopcode
  obtain ⟨instruction, key, -, htransfer, rfl⟩ := execute_eq_ok_iff.1 h
  have hflow : instruction.flow = .enter := Opcode.flow_eq_enter_iff.2 hopcode
  simp only [transfer, hflow] at htransfer
  obtain ⟨_, _, -, -, rfl⟩ := enter_exchanges htransfer
  cases hmeaning

end Context

namespace Run

variable {context : Context} {log : Log} {run base : Run}

/-- The invariant of a run: it waits only for functions without an exit key, and every function that
it calls is waited for or has one. -/
structure Waits (context : Context) (run : Run) : Prop where
  missing : ∀ id ∈ run.waitingFor, context.image.exports.exitKey? id = none
  known : ∀ (offset : Offset) (finding : Finding), run.findings[offset]? = some finding →
    ∀ site id, finding.meaning? = some (.call site) → site.exportId? = some id →
      id ∈ run.waitingFor ∨ (context.image.exports.exitKey? id).isSome

/-- Taking a state from the worklist keeps the invariant. -/
lemma Waits.intake (h : run.Waits context) (hintake : run.Intake base) : base.Waits context := by
  rw [hintake.eq]
  exact ⟨h.missing, h.known⟩

/-- Taking over an execution keeps the invariant. -/
lemma Waits.absorb {findings : Findings} {state : State} {finding : Finding} {effects : Effects}
    (h : run.Waits context) (hexecute : context.execute findings state = .ok (finding, effects)) :
    (run.absorb context finding effects).Waits context := by
  obtain ⟨hkeyed, hmeaning⟩ := Context.execute_keyed hexecute
  have hwaiting : ∀ id, id ∈ (run.absorb context finding effects).waitingFor ↔
      id ∈ run.waitingFor ∨ effects.waitingFor? = some id := by
    intro id
    rw [absorb_eq, Std.ExtTreeSet.mem_insertMany_list, List.contains_iff_mem, Option.mem_toList]
  refine ⟨fun id hid => ?_, fun offset known hknown site id hsite hid => ?_⟩
  · exact ((hwaiting id).1 hid).elim (h.missing id) (hkeyed.waiting id)
  · rw [hwaiting]
    rw [absorb_findings, Std.ExtTreeMap.getElem?_insert] at hknown
    split at hknown
    · obtain rfl := Option.some.inj hknown
      rcases hkeyed.callee site id (hmeaning ▸ hsite) hid with hnow | ⟨key, _, hkey, -⟩
      · exact Or.inl (Or.inr hnow)
      · exact Or.inr (by rw [hkey]; rfl)
    · exact (h.known offset known hknown site id hsite hid).imp_left Or.inl

/-- **The invariant holds along every analysis.** -/
theorem Reachable.waits (h : Reachable context log run) : run.Waits context := by
  refine h.induct ?_ (fun _ _ hrun hintake => hrun.intake hintake)
    fun _ _ _ _ hbase _ hexecute _ => hbase.absorb hexecute
  refine ⟨fun id hid => ?_, fun offset finding hfinding => ?_⟩
  · simp [Run.seed] at hid
  · simp [Run.seed] at hfinding

end Run

/-- **An analysis waits for the functions without an exit key.**  Whatever it waits for has none;
and if it calls a function for which it does not wait, then that function has an exit key, and the
call goes on with it. -/
theorem Context.infer_waits {context : Context} {log : Log} {inference : Inference}
    (h : (context.infer log).2 = .ok inference) :
    (∀ id ∈ inference.waitingFor, context.image.exports.exitKey? id = none) ∧
    ∀ (offset : Offset) (finding : Finding), inference.findings[offset]? = some finding →
      ∀ site id, finding.meaning? = some (.call site) → site.exportId? = some id →
        id ∉ inference.waitingFor →
        ∃ key effects successor, context.image.exports.exitKey? id = some key ∧
          context.execute inference.findings finding.state = .ok (finding, effects) ∧
          effects.successors = [successor] ∧ successor.key = key := by
  obtain ⟨run, rfl, hreachable, -⟩ := infer_eq_ok h
  have hwaits := hreachable.waits
  refine ⟨hwaits.missing, fun offset finding hfinding site id hsite hid hnot => ?_⟩
  obtain ⟨-, -, _, _, hrecorded, -⟩ := hreachable.traced.exists_execution hfinding
  obtain ⟨effects, hexecute, -⟩ := exists_effects h hfinding (opcode_ne_enter hrecorded hsite)
  have hknown := (hwaits.known offset finding hfinding site id hsite hid).resolve_left hnot
  obtain ⟨hkeyed, hmeaning⟩ := execute_keyed hexecute
  rcases hkeyed.callee site id (hmeaning ▸ hsite) hid with hwaiting |
      ⟨key, successor, hkey, hsuccessors, hgoes⟩
  · rw [hkeyed.waiting id hwaiting] at hknown
    cases hknown
  · exact ⟨key, effects, successor, hkey, hexecute, hsuccessors, hgoes⟩

end KeyedVM
