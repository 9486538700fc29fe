import KeyedVM.Proofs.Inference.Covering
import Mathlib.Data.List.Perm.Subperm

set_option relaxedAutoImplicit false
set_option autoImplicit false

/-!
# Joins of states

A merge is a join.  Any number of states that agree on the depth of the stack and on the open
regions can be merged into a stored state, one after the other.  The order does not matter, nor how
often a state comes in: each slot and each register ends up with the producers that one of the
states knows.  States that do not agree leave the stored state alone, even if it is overwritten
piece by piece: both checks come before the first write.

## Main definitions

* `KeyedVM.State.Fits` — two states agree on the depth of the stack and on the open regions;
* `KeyedVM.State.Joins` — a state unites a stored state with a family of states;
* `KeyedVM.State.mergeAll` — merging states into a stored one, one after the other;
* `KeyedVM.State.mergeInPlace` — a merge that overwrites the stored state, first its stack and then
  its registers, and counts producers to see whether one of them has grown.

## Main results

* `KeyedVM.Provenance.grows_eq_size_bne` — counting its producers tells whether a union has grown;
* `KeyedVM.State.run_mergeInPlace` — merging in place gives what merging gives, or keeps the state;
* `KeyedVM.State.changed_eq_true_iff` — a merge reports a change exactly if the state is a new one;
* `KeyedVM.State.mergeAll_joins` — merging states one after the other joins them;
* `KeyedVM.State.merge_atomic_join` — a merge is atomic, exact and independent of the order.
-/

namespace KeyedVM

/-! ## Counting producers -/

namespace Provenance

/-- No producer is listed twice. -/
lemma nodup_toList (value : Provenance) : value.toList.Nodup :=
  Std.ExtTreeSet.distinct_toList.imp fun hne heq => hne (Std.compare_eq_iff_eq.2 heq)

/-- **Counting its producers tells whether a union has grown.**

**Proof sketch.** The members of the stored set are among those of the union.  If there are no more
of these, then the two lists are permutations of each other. -/
lemma grows_eq_size_bne (stored incoming : Provenance) :
    stored.grows incoming = ((stored ∪ incoming).size != stored.size) := by
  rw [Bool.eq_iff_iff, grows_eq_true_iff, bne_iff_ne]
  refine not_congr ⟨fun h => by rw [h], fun hsize => ?_⟩
  have hsubset : stored.toList ⊆ (stored ∪ incoming).toList := by
    intro x hx
    rw [Std.ExtTreeSet.mem_toList] at hx ⊢
    exact Std.ExtTreeSet.mem_union_iff.2 (Or.inl hx)
  have hlength : (stored ∪ incoming).toList.length ≤ stored.toList.length := by
    simp [Std.ExtTreeSet.length_toList, hsize]
  have hperm : stored.toList.Perm (stored ∪ incoming).toList :=
    (List.subperm_of_subset stored.nodup_toList hsubset).perm_of_length_le hlength
  refine Std.ExtTreeSet.ext_mem fun x => ?_
  rw [← Std.ExtTreeSet.mem_toList, ← Std.ExtTreeSet.mem_toList]
  exact hperm.mem_iff.symm

end Provenance

namespace State

/-! ## Merging in place -/

/-- A change of a stored state.  What is written before a failure stays written. -/
abbrev Update := EStateM Error State

/-- Unites the slots of the stored stack with incoming ones, and tells whether one has grown. -/
def uniteStack (incoming : List Provenance) : Update Bool := do
  let stored ← get
  if stored.stack.length = incoming.length then
    let counts := stored.stack.zipWith (fun slot value => (slot ∪ value).size != slot.size) incoming
    set { stored with stack := stored.stack.zipWith (· ∪ ·) incoming }
    return counts.foldl (fun changed grew => grew || changed) false
  else throw (.inconsistent stored.ip (.depthMismatch stored.stack.length incoming.length))

/-- Unites the stored registers with incoming ones, and tells whether one has grown. -/
def uniteRegisters (incoming : RegisterFile Provenance) : Update Bool := do
  let stored ← get
  let counts :=
    stored.registers.zipWith (fun cell value => (cell ∪ value).size != cell.size) incoming
  set { stored with registers := stored.registers.zipWith (· ∪ ·) incoming }
  return Register.all.foldl (fun changed register => counts.get register || changed) false

/-- Merges an incoming state into the stored one, which is overwritten: the open regions are
compared, then the stack is united and last the registers.  The answer tells whether something has
grown and whether the keys differ. -/
def mergeInPlace (incoming : State) : Update (Bool × Bool) := do
  let stored ← get
  if stored.regions ≠ incoming.regions then
    throw (.inconsistent stored.ip (.regionMismatch stored.regions.length incoming.regions.length))
  let stackGrew ← uniteStack incoming.stack
  let registersGrew ← uniteRegisters incoming.registers
  let united ← get
  return (stackGrew || registersGrew, united.key != incoming.key)

/-- A fold that remembers whether it met `true` tells whether there is one. -/
lemma foldl_or_eq_any {α : Type} (p : α → Bool) (row : List α) (changed : Bool) :
    row.foldl (fun changed a => p a || changed) changed = (changed || row.any p) := by
  induction row generalizing changed with
  | nil => simp
  | cons a row ih => rw [List.foldl_cons, ih, List.any_cons, Bool.or_comm (p a), Bool.or_assoc]

/-- Uniting the stack in place checks its depth before it writes. -/
lemma run_uniteStack (stored : State) (incoming : List Provenance) :
    (uniteStack incoming).run stored =
      match mergeStacks stored.ip stored.stack incoming with
      | .ok (stack, grew) => .ok grew { stored with stack }
      | .error e => .error e stored := by
  by_cases hdepth : stored.stack.length = incoming.length
  · have hgrew := foldl_or_eq_any id (stored.stack.zipWith Provenance.grows incoming) false
    simp only [uniteStack, mergeStacks, EStateM.run_bind, EStateM.run_get, if_pos hdepth,
      ← Provenance.grows_eq_size_bne]
    exact congrArg (EStateM.Result.ok · _) hgrew
  · simp only [uniteStack, mergeStacks, EStateM.run_bind, EStateM.run_get, if_neg hdepth]
    rfl

/-- Uniting the registers in place never fails. -/
lemma run_uniteRegisters (stored : State) (incoming : RegisterFile Provenance) :
    (uniteRegisters incoming).run stored =
      .ok (mergeRegisters stored.registers incoming).2
        { stored with registers := (mergeRegisters stored.registers incoming).1 } := by
  have hgrew := foldl_or_eq_any (stored.registers.zipWith Provenance.grows incoming).get
    Register.all false
  simp only [uniteRegisters, mergeRegisters, EStateM.run_bind, EStateM.run_get,
    ← Provenance.grows_eq_size_bne]
  exact congrArg (EStateM.Result.ok · _) hgrew

/-- **Merging in place gives what merging gives, and a failure leaves the stored state as it was.**
The two checks come before the first write. -/
lemma run_mergeInPlace (stored incoming : State) :
    (mergeInPlace incoming).run stored =
      match stored.merge incoming with
      | .ok merged => .ok (merged.changed, merged.keyDiverged) merged.state
      | .error e => .error e stored := by
  by_cases hregions : stored.regions = incoming.regions
  · have hstack := run_uniteStack stored incoming.stack
    simp only [mergeInPlace, merge, EStateM.run_bind, EStateM.run_get, hregions, ne_eq,
      not_true_eq_false, if_false, if_true, EStateM.run_pure, hstack]
    cases mergeStacks stored.ip stored.stack incoming.stack with
    | error e => rfl
    | ok united =>
      simp only [run_uniteRegisters]
      rfl
  · simp only [mergeInPlace, merge, EStateM.run_bind, EStateM.run_get, ne_eq, hregions,
       not_false_eq_true, if_true]
    rfl

/-! ## One merge -/

/-- Two states agree on the depth of the stack and on the open regions. -/
structure Fits (stored incoming : State) : Prop where
  regions : stored.regions = incoming.regions
  depth : stored.depth = incoming.depth

/-- States that agree can be merged. -/
lemma Fits.exists_merge {stored incoming : State} (h : stored.Fits incoming) :
    ∃ merged, stored.merge incoming = .ok merged :=
  ⟨⟨_, _, _⟩, merge_eq_ok_iff.2 ⟨h.regions, h.depth, rfl, rfl, rfl⟩⟩

/-- States that can be merged agree. -/
lemma fits_of_merge {stored incoming : State} {merged : Merged}
    (h : stored.merge incoming = .ok merged) : stored.Fits incoming :=
  have hok := merge_eq_ok_iff.1 h
  ⟨hok.1, hok.2.1⟩

/-- **A merge fails exactly if the open regions or the depths differ.** -/
lemma merge_eq_error_iff (stored incoming : State) :
    (∃ e, stored.merge incoming = .error e) ↔
      stored.regions ≠ incoming.regions ∨ stored.depth ≠ incoming.depth := by
  rw [← not_and_or]
  constructor
  · rintro ⟨e, he⟩ ⟨hregions, hdepth⟩
    obtain ⟨merged, hmerged⟩ := Fits.exists_merge ⟨hregions, hdepth⟩
    rw [he] at hmerged
    cases hmerged
  · intro hdiffers
    cases hmerge : stored.merge incoming with
    | error e => exact ⟨e, rfl⟩
    | ok merged =>
      have hfits := fits_of_merge hmerge
      exact absurd ⟨hfits.regions, hfits.depth⟩ hdiffers

/-- Slots that stay as they are have not grown. -/
lemma any_grows_eq_false {as bs : List Provenance} (h : as.zipWith (· ∪ ·) bs = as) :
    (as.zipWith Provenance.grows bs).any id = false := by
  induction as generalizing bs with
  | nil => rfl
  | cons a as ih =>
    cases bs with
    | nil => rfl
    | cons b bs =>
      rw [List.zipWith_cons_cons, List.cons.injEq] at h
      have hhead : a.grows b = false :=
        Bool.eq_false_iff.2 fun hgrows => Provenance.grows_eq_true_iff.1 hgrows h.1
      rw [List.zipWith_cons_cons, List.any_cons, ih h.2, id_eq, hhead, Bool.or_false]

/-- **A merge reports a change exactly if its state is a new one.** -/
lemma changed_eq_true_iff {stored incoming : State} {merged : Merged}
    (h : stored.merge incoming = .ok merged) :
    merged.changed = true ↔ merged.state ≠ stored := by
  constructor
  · intro hchanged hsame
    obtain ⟨-, -, hstate, hgrown, -⟩ := merge_eq_ok_iff.1 h
    rw [hsame] at hstate
    have hstack := any_grows_eq_false (congrArg State.stack hstate).symm
    rw [hchanged, hstack, Bool.false_or, eq_comm, RegisterFile.any_eq_true] at hgrown
    obtain ⟨register, hregister⟩ := hgrown
    rw [RegisterFile.get_zipWith, id_eq, Provenance.grows_eq_true_iff] at hregister
    have hkept := congrArg (fun state : State => state.registers.get register) hstate
    rw [RegisterFile.get_zipWith] at hkept
    exact hregister hkept.symm
  · intro hnew
    by_contra hchanged
    exact hnew (merge_eq_stored h (Bool.eq_false_iff.2 hchanged))

/-! ## Many merges -/

/-- The slot at a distance from the top.  Nothing is known about a slot that is not there. -/
def slot (state : State) (index : Nat) : Provenance := state.stack[index]?.getD .unknown

/-- A state unites a stored state with a family of states: it stands where the stored state stands,
under the same key and in the same regions, and each slot and each register knows the producers that
the stored state or a member of the family knows. -/
structure Joins (stored : State) (family : List State) (joined : State) : Prop where
  ip : joined.ip = stored.ip
  key : joined.key = stored.key
  regions : joined.regions = stored.regions
  depth : joined.depth = stored.depth
  slot : ∀ index offset, offset ∈ joined.slot index ↔
    offset ∈ stored.slot index ∨ ∃ state ∈ family, offset ∈ state.slot index
  register : ∀ register offset, offset ∈ joined.registers.get register ↔
    offset ∈ stored.registers.get register ∨
      ∃ state ∈ family, offset ∈ state.registers.get register

/-- Merges states into a stored one, one after the other. -/
def mergeAll (stored : State) (sequence : List State) : Except Error State :=
  sequence.foldlM (fun stored incoming => (stored.merge incoming).map Merged.state) stored

/-- Stacks of the same depth with the same slots are the same. -/
lemma stack_eq_of_slot {a b : State} (hdepth : a.depth = b.depth)
    (hslot : ∀ index, a.slot index = b.slot index) : a.stack = b.stack := by
  apply List.ext_getElem hdepth
  intro index ha hb
  have h := hslot index
  simpa only [slot, List.getElem?_eq_getElem ha, List.getElem?_eq_getElem hb, Option.getD_some]
    using h

/-- **A family has one join**, whatever the order and the number of its members. -/
lemma Joins.unique {stored a b : State} {family others : List State} (ha : stored.Joins family a)
    (hb : stored.Joins others b) (hmembers : ∀ state, state ∈ others ↔ state ∈ family) : a = b := by
  have hstack : a.stack = b.stack := by
    apply stack_eq_of_slot (ha.depth.trans hb.depth.symm)
    intro index
    refine Std.ExtTreeSet.ext_mem fun offset => ?_
    rw [ha.slot, hb.slot]
    simp only [hmembers]
  have hregisters : a.registers = b.registers := by
    apply RegisterFile.ext_get
    intro register
    refine Std.ExtTreeSet.ext_mem fun offset => ?_
    rw [ha.register, hb.register]
    simp only [hmembers]
  cases a
  cases b
  simp only [State.mk.injEq]
  exact ⟨ha.ip.trans hb.ip.symm, ha.key.trans hb.key.symm, hregisters, hstack,
    ha.regions.trans hb.regions.symm⟩

/-- The slots of united stacks of the same depth are united. -/
lemma getD_zipWith_union {as bs : List Provenance} (h : as.length = bs.length) (index : Nat) :
    (as.zipWith (· ∪ ·) bs)[index]?.getD .unknown =
      as[index]?.getD .unknown ∪ bs[index]?.getD .unknown := by
  by_cases hindex : index < as.length
  · have hindex' : index < bs.length := h ▸ hindex
    rw [List.getElem?_zipWith, List.getElem?_eq_getElem hindex, List.getElem?_eq_getElem hindex']
    rfl
  · have hindex' : ¬ index < bs.length := h ▸ hindex
    have hunited : (as.zipWith (· ∪ ·) bs).length ≤ index := by
      rw [List.length_zipWith]
      omega
    rw [List.getElem?_eq_none hunited, List.getElem?_eq_none (Nat.not_lt.1 hindex),
      List.getElem?_eq_none (Nat.not_lt.1 hindex')]
    rfl

/-- One merge joins two states. -/
lemma merge_joins {stored incoming : State} {merged : Merged}
    (h : stored.merge incoming = .ok merged) : stored.Joins [incoming] merged.state := by
  obtain ⟨-, hdepth, hstate, -⟩ := merge_eq_ok_iff.1 h
  rw [hstate]
  refine ⟨rfl, rfl, rfl, ?_, fun index offset => ?_, fun register offset => ?_⟩
  · rw [depth, depth, List.length_zipWith, ← hdepth, Nat.min_self]
  · simp only [slot, getD_zipWith_union hdepth, Std.ExtTreeSet.mem_union_iff, List.mem_singleton,
      exists_eq_left]
  · simp only [RegisterFile.get_zipWith, Std.ExtTreeSet.mem_union_iff, List.mem_singleton,
      exists_eq_left]

/-- Joining a family and then another one joins all of their members. -/
lemma Joins.append {stored first joined : State} {family others : List State}
    (hfirst : stored.Joins family first) (hrest : first.Joins others joined) :
    stored.Joins (family ++ others) joined where
  ip := hrest.ip.trans hfirst.ip
  key := hrest.key.trans hfirst.key
  regions := hrest.regions.trans hfirst.regions
  depth := hrest.depth.trans hfirst.depth
  slot index offset := by
    rw [hrest.slot, hfirst.slot]
    simp only [List.mem_append, or_and_right, exists_or, or_assoc]
  register register offset := by
    rw [hrest.register, hfirst.register]
    simp only [List.mem_append, or_and_right, exists_or, or_assoc]

/-- **Merging states one after the other joins them.**

**Proof sketch.** Induction on the sequence.  A merge keeps the depth and the open regions, so that
the states that are still to come agree with the new stored state. -/
lemma mergeAll_joins {stored : State} {sequence : List State}
    (hfits : ∀ state ∈ sequence, stored.Fits state) :
    ∃ joined, stored.mergeAll sequence = .ok joined ∧ stored.Joins sequence joined := by
  induction sequence generalizing stored with
  | nil => exact ⟨stored, rfl, rfl, rfl, rfl, rfl, by simp, by simp⟩
  | cons incoming sequence ih =>
    obtain ⟨merged, hmerged⟩ := (hfits incoming List.mem_cons_self).exists_merge
    have hfirst := merge_joins hmerged
    have hrest : ∀ state ∈ sequence, merged.state.Fits state := fun state hstate =>
      have hfit := hfits state (List.mem_cons_of_mem _ hstate)
      ⟨hfirst.regions.trans hfit.regions, hfirst.depth.trans hfit.depth⟩
    obtain ⟨joined, hjoined, hjoins⟩ := ih hrest
    refine ⟨joined, ?_, hfirst.append hjoins⟩
    rw [mergeAll, List.foldlM_cons, hmerged]
    exact hjoined

/-- **A member of a joined family brings nothing new.** -/
lemma Joins.merge_member {stored joined member : State} {family : List State}
    (hjoins : stored.Joins family joined) (hfits : stored.Fits member) (hmember : member ∈ family) :
    ∃ merged, joined.merge member = .ok merged ∧ merged.state = joined ∧
      merged.changed = false := by
  obtain ⟨merged, hmerged⟩ := Fits.exists_merge
    ⟨hjoins.regions.trans hfits.regions, hjoins.depth.trans hfits.depth⟩
  -- the member is in the family already, so that joining it once more joins the same states
  have hsame : merged.state = joined := by
    refine (hjoins.append (merge_joins hmerged)).unique hjoins fun state => ?_
    rw [List.mem_append, List.mem_singleton]
    exact ⟨Or.inl, fun h => h.elim id fun heq => heq ▸ hmember⟩
  refine ⟨merged, hmerged, hsame, Bool.eq_false_iff.2 fun hchanged => ?_⟩
  exact (changed_eq_true_iff hmerged).1 hchanged hsame

/-- **Merging is an atomic join that does not depend on the order.**  A merge fails exactly if the
open regions or the depths differ, and then a merge in place leaves the stored state as it was.
Otherwise it unites the slots and the registers and keeps the rest, reports a change exactly if the
state is a new one, and reports different keys exactly if they differ.  So a family of states that
agree with a stored state has one join: merging its members in any order, and any number of times,
gives that join, and merging a member into it once more reports no change. -/
theorem merge_atomic_join :
    (∀ stored incoming : State,
      ((∃ e, stored.merge incoming = .error e) ↔
        stored.regions ≠ incoming.regions ∨ stored.depth ≠ incoming.depth) ∧
      (∀ e, stored.merge incoming = .error e →
        (mergeInPlace incoming).run stored = .error e stored) ∧
      ∀ merged, stored.merge incoming = .ok merged →
        (mergeInPlace incoming).run stored
          = .ok (merged.changed, merged.keyDiverged) merged.state ∧
        merged.state.depth = stored.depth ∧
        merged.state = { stored with
          stack := stored.stack.zipWith (· ∪ ·) incoming.stack
          registers := stored.registers.zipWith (· ∪ ·) incoming.registers } ∧
        (merged.changed = true ↔ merged.state ≠ stored) ∧
        (merged.keyDiverged = true ↔ stored.key ≠ incoming.key)) ∧
    ∀ (stored : State) (family : List State), (∀ state ∈ family, stored.Fits state) →
      ∃ joined, stored.Joins family joined ∧
        (∀ sequence : List State, (∀ state, state ∈ sequence ↔ state ∈ family) →
          stored.mergeAll sequence = .ok joined) ∧
        ∀ member ∈ family, ∃ merged, joined.merge member = .ok merged ∧
          merged.state = joined ∧ merged.changed = false := by
  refine ⟨fun stored incoming => ⟨merge_eq_error_iff stored incoming, ?_, ?_⟩, ?_⟩
  · intro e he
    rw [run_mergeInPlace, he]
  · intro merged hmerged
    obtain ⟨-, -, hstate, -, hkeys⟩ := merge_eq_ok_iff.1 hmerged
    refine ⟨?_, (merge_joins hmerged).depth, hstate, changed_eq_true_iff hmerged, ?_⟩
    · rw [run_mergeInPlace, hmerged]
    · rw [hkeys, bne_iff_ne]
  · intro stored family hfits
    obtain ⟨joined, -, hjoins⟩ := mergeAll_joins hfits
    refine ⟨joined, hjoins, fun sequence hmembers => ?_, fun member hmember =>
      hjoins.merge_member (hfits member hmember) hmember⟩
    obtain ⟨other, hother, hjoins'⟩ := mergeAll_joins fun state hstate =>
      hfits state ((hmembers state).1 hstate)
    rw [hother, hjoins.unique hjoins' hmembers]

/-- A state with one slot, produced at an offset, under a key of its own. -/
def singleSlot (offset : Offset) (key : Key) : State :=
  (State.initial 16 key).push (.of offset)

/-- Two paths that meet with different producers in the slot: in either order, and with repetitions,
the slot ends up with all of them. -/
theorem merge_atomic_join_single :
    ∃ joined, (singleSlot 1 42).mergeAll [singleSlot 2 42, singleSlot 3 43] = .ok joined ∧
      (singleSlot 1 42).mergeAll [singleSlot 3 43, singleSlot 2 42, singleSlot 3 43] = .ok joined ∧
      joined.key = 42 ∧
      ∀ offset, offset ∈ joined.slot 0 ↔ offset = 1 ∨ offset = 2 ∨ offset = 3 := by
  have hfits : ∀ state ∈ [singleSlot 2 42, singleSlot 3 43], (singleSlot 1 42).Fits state := by
    intro state hstate
    rw [List.mem_cons, List.mem_singleton] at hstate
    rcases hstate with rfl | rfl
    · exact ⟨rfl, rfl⟩
    · exact ⟨rfl, rfl⟩
  obtain ⟨joined, hjoins, hsequence, -⟩ := merge_atomic_join.2 _ _ hfits
  refine ⟨joined, hsequence _ fun _ => Iff.rfl, hsequence _ fun state => ?_, hjoins.key,
    fun offset => ?_⟩
  · simp only [List.mem_cons, List.not_mem_nil, or_false]
    tauto
  · rw [hjoins.slot]
    simp [singleSlot, initial, push, slot, Provenance.mem_of]

end State

end KeyedVM
