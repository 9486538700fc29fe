import KeyedVM.Proofs.Dependency.Value
import KeyedVM.Proofs.Outcome

set_option relaxedAutoImplicit false
set_option autoImplicit false

/-!
# What a closure holds

The worklist that collects a dependency closure finds exactly the instructions on the paths of the
dependency graph, and it fails only if one of them cannot take part or if there are too many.

## Main definitions

* `KeyedVM.Finding.Determinate` — every consumed value has one producer or is an entry value;
* `KeyedVM.Findings.Accepts` — the instruction at an offset may take part in a closure.

## Main results

* `KeyedVM.Findings.mem_closure_iff` — a closure holds the instructions that take part;
* `KeyedVM.Findings.closure_eq_ok` — a closure is found if all that take part may do so and
  there are not too many of them.
-/

namespace KeyedVM

namespace Provenance

/-- The members of a provenance after an insertion. -/
lemma mem_insert_iff {value : Provenance} {x offset : Offset} :
    x ∈ value.insert offset ↔ x = offset ∨ x ∈ value := by
  rw [Std.ExtTreeSet.mem_insert, Std.compare_eq_iff_eq, eq_comm]

/-- A new producer makes a provenance larger by one. -/
lemma size_insert_of_not_mem {value : Provenance} {offset : Offset} (h : offset ∉ value) :
    (value.insert offset).size = value.size + 1 := by
  rw [Std.ExtTreeSet.size_insert, if_neg (mt Std.ExtTreeSet.contains_iff_mem.1 h)]

/-- A provenance with fewer producers is smaller. -/
lemma size_le_size {a b : Provenance} (h : ∀ x ∈ a, x ∈ b) : a.size ≤ b.size := by
  have hunion : a ∪ b = b := by
    apply Std.ExtTreeSet.ext_mem
    intro x
    rw [Std.ExtTreeSet.mem_union_iff]
    exact ⟨fun hx => hx.elim (h x) id, Or.inr⟩
  rw [← hunion]
  exact Std.ExtTreeSet.size_left_le_size_union

end Provenance

/-! ## Producers -/

namespace Finding

variable {finding : Finding}

/-- Every consumed value has one producer, or is a pushed register that still has its entry
value. -/
def Determinate (finding : Finding) : Prop :=
  ∀ value ∈ finding.consumed,
    (∃ producer, value = .of producer) ∨
      value = .unknown ∧ finding.opcode.readsRegister = true

/-- A consumed value has a known producer, or none and is a pushed register. -/
lemma producer_eq_ok_iff {value : Provenance} {producer? : Option Offset} :
    finding.producer value = .ok producer? ↔
      (∃ producer, value = .of producer ∧ producer? = some producer) ∨
        value = .unknown ∧ finding.opcode.readsRegister = true ∧ producer? = none := by
  unfold producer
  cases hsingle : value.single? with
  | some producer =>
    obtain rfl := Provenance.single?_eq_some_iff.1 hsingle
    constructor
    · intro h
      exact Or.inl ⟨producer, rfl, (Except.ok.inj h).symm⟩
    · rintro (⟨producer', hvalue, rfl⟩ | ⟨hvalue, -⟩)
      · rw [Provenance.of_injective hvalue]
      · exact absurd hvalue (Provenance.of_ne_unknown producer)
  | none =>
    have hnot : ∀ producer, value ≠ .of producer := by
      rintro producer rfl
      rw [Provenance.single?_eq_some_iff.2 rfl] at hsingle
      exact Option.some_ne_none _ hsingle
    by_cases hempty : value.isEmpty = true
    · have hunknown : value = .unknown := Std.ExtTreeSet.isEmpty_iff.1 hempty
      by_cases hreads : finding.opcode.readsRegister = true
      · simp only [hempty, hreads, if_true, Except.ok.injEq]
        constructor
        · rintro rfl
          exact Or.inr ⟨hunknown, trivial, rfl⟩
        · rintro (⟨producer, hof, -⟩ | ⟨-, -, rfl⟩)
          · exact absurd hof (hnot producer)
          · rfl
      · simp [hempty, hreads, hnot]
    · have hknown : value ≠ .unknown := fun h => hempty (Std.ExtTreeSet.isEmpty_iff.2 h)
      simp [hempty, hnot, hknown]

/-- The listed producers are those that a consumed value may come from. -/
lemma mem_producers_iff {offsets : List Offset} (h : finding.producers = .ok offsets)
    {offset : Offset} : offset ∈ offsets ↔ ∃ value ∈ finding.consumed, offset ∈ value := by
  obtain ⟨producers, hproducers, rfl⟩ := map_eq_ok_iff.1 h
  have hall := mapM_eq_ok_iff.1 hproducers
  clear h hproducers
  generalize finding.consumed = values at hall ⊢
  induction hall with
  | nil => simp
  | cons hproducer _ ih =>
    rw [List.exists_mem_cons_iff]
    refine Iff.trans ?_ (or_congr_right ih)
    rcases producer_eq_ok_iff.1 hproducer with ⟨producer, rfl, rfl⟩ | ⟨rfl, -, rfl⟩
    · simp [Provenance.mem_of]
    · simp [Provenance.unknown]

/-- The producers of an instruction are known exactly if what it consumes is determinate. -/
lemma exists_producers_iff :
    (∃ offsets, finding.producers = .ok offsets) ↔ finding.Determinate := by
  constructor
  · rintro ⟨offsets, h⟩ value hvalue
    obtain ⟨producers, hproducers, -⟩ := map_eq_ok_iff.1 h
    obtain ⟨producer?, -, hproducer⟩ := exists_of_mapM_eq_ok hproducers hvalue
    rcases producer_eq_ok_iff.1 hproducer with ⟨producer, hof, -⟩ | ⟨hunknown, hreads, -⟩
    · exact Or.inl ⟨producer, hof⟩
    · exact Or.inr ⟨hunknown, hreads⟩
  · intro h
    obtain ⟨producers, hproducers⟩ : ∃ producers,
        finding.consumed.mapM finding.producer = .ok producers := by
      apply exists_mapM_eq_ok
      intro value hvalue
      rcases h value hvalue with ⟨producer, hof⟩ | ⟨hunknown, hreads⟩
      · exact ⟨_, producer_eq_ok_iff.2 (Or.inl ⟨producer, hof, rfl⟩)⟩
      · exact ⟨_, producer_eq_ok_iff.2 (Or.inr ⟨hunknown, hreads, rfl⟩)⟩
    exact ⟨_, map_eq_ok_iff.2 ⟨producers, hproducers, rfl⟩⟩

end Finding

/-! ## The worklist -/

namespace Findings

variable {findings : Findings}

/-- The instruction at `offset` may take part in a closure: it has been decoded, can be replayed
and consumes determinate values. -/
def Accepts (findings : Findings) (offset : Offset) : Prop :=
  ∃ finding, findings[offset]? = some finding ∧ finding.opcode.isReplayable = true ∧
    finding.Determinate

/-- Accepting an instruction gives the producers that it depends on. -/
lemma mem_of_accept {offset producer : Offset} {producers : List Offset}
    (h : findings.accept offset = .ok producers) :
    producer ∈ producers ↔ findings.DependsOn offset producer := by
  unfold accept at h
  split at h
  · cases h
  · next finding hf =>
    split at h
    · rw [Finding.mem_producers_iff h]
      constructor
      · intro hmem
        exact ⟨finding, hf, hmem⟩
      · intro hdepends
        exact hdepends.exists_mem hf
    · cases h

/-- An instruction is accepted exactly if it may take part. -/
lemma exists_accept_iff {offset : Offset} :
    (∃ producers, findings.accept offset = .ok producers) ↔ findings.Accepts offset := by
  unfold accept Accepts
  cases findings[offset]? with
  | none => simp
  | some finding =>
    by_cases hreplayable : finding.opcode.isReplayable = true
    · simp [hreplayable, Finding.exists_producers_iff]
    · simp [hreplayable]

/-- What a worklist passes over is in the closure already. -/
lemma mem_or_mem_dropWhile {closure : Provenance} {pending : List Offset} {x : Offset}
    (hx : x ∈ pending) : x ∈ closure ∨ x ∈ pending.dropWhile closure.contains := by
  induction pending with
  | nil => exact absurd hx List.not_mem_nil
  | cons y rest ih =>
    rw [List.dropWhile_cons]
    by_cases hy : closure.contains y = true
    · rw [if_pos hy]
      rcases List.mem_cons.1 hx with rfl | hx
      · exact Or.inl hy
      · exact ih hx
    · rw [if_neg hy]
      exact Or.inr hx

/-- The next instruction that a worklist takes in is pending and not in the closure. -/
lemma not_mem_of_dropWhile {closure : Provenance} {pending rest : List Offset} {x : Offset}
    (h : pending.dropWhile closure.contains = x :: rest) :
    x ∉ closure ∧ x ∈ pending ∧ ∀ y ∈ rest, y ∈ pending := by
  have hsuffix : x :: rest <:+ pending := h ▸ List.dropWhile_suffix _
  refine ⟨?_, hsuffix.subset List.mem_cons_self, fun y hy =>
    hsuffix.subset (List.mem_cons_of_mem _ hy)⟩
  have hhead := List.head?_dropWhile_not closure.contains pending
  rw [h] at hhead
  intro hmem
  simp [Std.ExtTreeSet.contains_iff_mem.2 hmem] at hhead

/-- A worklist that comes to an end has grown to a set that holds what was there and what was
pending.  Every new member may take part, has all its producers in the set, and takes part in one
of the pending instructions; and there was room for all of them.

**Proof sketch.** Induction on the room.  What is dropped from the pending list is already in the
closure; the producers of a member that is taken in are pending afterwards. -/
lemma expand_spec {limit room : Nat} {closure result : Provenance} {pending : List Offset}
    (h : findings.expand limit room closure pending = .ok result) :
    (∀ x ∈ closure, x ∈ result) ∧ (∀ x ∈ pending, x ∈ result) ∧
      (∀ x ∈ result, x ∉ closure → findings.Accepts x ∧
        (∀ y, findings.DependsOn x y → y ∈ result) ∧ ∃ p ∈ pending, findings.TakesPart p x) ∧
      result.size ≤ closure.size + room := by
  induction room generalizing closure pending with
  | zero =>
    unfold expand at h
    split at h
    · next hnil =>
      cases h
      refine ⟨fun x hx => hx, fun x hx => ?_, fun x hx hnot => absurd hx hnot, Nat.le_refl _⟩
      have hkept : x ∈ result ∨ x ∈ pending.dropWhile result.contains := mem_or_mem_dropWhile hx
      rw [hnil] at hkept
      exact hkept.resolve_right List.not_mem_nil
    · cases h
  | succ room ih =>
    unfold expand at h
    split at h
    · next hnil =>
      cases h
      refine ⟨fun x hx => hx, fun x hx => ?_, fun x hx hnot => absurd hx hnot, by omega⟩
      have hkept : x ∈ result ∨ x ∈ pending.dropWhile result.contains := mem_or_mem_dropWhile hx
      rw [hnil] at hkept
      exact hkept.resolve_right List.not_mem_nil
    · next offset rest hcons =>
      obtain ⟨hnew, hpending, hrest⟩ := not_mem_of_dropWhile hcons
      obtain ⟨producers, haccept, h⟩ := bind_eq_ok_iff.1 h
      obtain ⟨hkept, hdone, hmembers, hsize⟩ := ih h
      have hoffset : offset ∈ result := hkept offset (Provenance.mem_insert_iff.2 (Or.inl rfl))
      refine ⟨fun x hx => hkept x (Provenance.mem_insert_iff.2 (Or.inr hx)), ?_, ?_, ?_⟩
      · intro x hx
        have hcase : x ∈ closure ∨ x ∈ pending.dropWhile closure.contains :=
          mem_or_mem_dropWhile hx
        rw [hcons, List.mem_cons] at hcase
        rcases hcase with hx | rfl | hx
        · exact hkept x (Provenance.mem_insert_iff.2 (Or.inr hx))
        · exact hoffset
        · exact hdone x (List.mem_append_right _ hx)
      · intro x hx hnot
        by_cases hx' : x = offset
        · subst hx'
          refine ⟨exists_accept_iff.1 ⟨producers, haccept⟩, fun y hy => ?_, x, hpending, .refl⟩
          exact hdone y (List.mem_append_left _
            (List.mem_reverse.2 ((mem_of_accept haccept).2 hy)))
        · have hnot' : x ∉ closure.insert offset := by
            rw [Provenance.mem_insert_iff]
            exact not_or.2 ⟨hx', hnot⟩
          obtain ⟨haccepts, hclosed, p, hp, hpath⟩ := hmembers x hx hnot'
          refine ⟨haccepts, hclosed, ?_⟩
          rcases List.mem_append.1 hp with hp | hp
          · have hdepends := (mem_of_accept haccept).1 (List.mem_reverse.1 hp)
            exact ⟨offset, hpending, .head hdepends hpath⟩
          · exact ⟨p, hrest p hp, hpath⟩
      · rw [Provenance.size_insert_of_not_mem hnew] at hsize
        omega

/-- **A closure holds exactly the instructions that take part.**  Every one of them may do so, and
there are at most as many as the limit allows. -/
theorem mem_closure_iff {limit : Nat} {source : Offset} {members : Provenance}
    (h : findings.closure limit source = .ok members) :
    (∀ x, x ∈ members ↔ findings.TakesPart source x) ∧
      (∀ x ∈ members, findings.Accepts x) ∧ members.size ≤ limit := by
  obtain ⟨-, hpending, hmembers, hsize⟩ := expand_spec h
  have hnone : ∀ x, x ∉ (∅ : Provenance) := by
    intro x
    exact Std.ExtTreeSet.not_mem_empty
  refine ⟨fun x => ⟨fun hx => ?_, fun hx => ?_⟩, fun x hx => ?_, ?_⟩
  · obtain ⟨-, -, p, hp, hpath⟩ := hmembers x hx (hnone x)
    rw [List.mem_singleton] at hp
    exact hp ▸ hpath
  · induction hx with
    | refl => exact hpending source (List.mem_singleton_self source)
    | tail _ hstep ih => exact (hmembers _ ih (hnone _)).2.1 _ hstep
  · exact (hmembers x hx (hnone x)).1
  · rw [Std.ExtTreeSet.size_empty, Nat.zero_add] at hsize
    exact hsize

/-- A worklist comes to an end if it stays within a set that is closed under dependence, whose
members may all take part, and for the rest of which there is room. -/
lemma exists_expand {limit room : Nat} {closure members : Provenance} {pending : List Offset}
    (haccepts : ∀ x ∈ members, findings.Accepts x)
    (hclosed : ∀ x ∈ members, ∀ y, findings.DependsOn x y → y ∈ members)
    (hclosure : ∀ x ∈ closure, x ∈ members) (hpending : ∀ x ∈ pending, x ∈ members)
    (hroom : members.size ≤ closure.size + room) :
    ∃ result, findings.expand limit room closure pending = .ok result := by
  induction room generalizing closure pending with
  | zero =>
    unfold expand
    split
    · exact ⟨closure, rfl⟩
    · next offset rest hcons =>
      obtain ⟨hnew, hmem, -⟩ := not_mem_of_dropWhile hcons
      have hle : (closure.insert offset).size ≤ members.size := by
        apply Provenance.size_le_size
        intro x hx
        rw [Provenance.mem_insert_iff] at hx
        exact hx.elim (fun e => e ▸ hpending offset hmem) (hclosure x)
      rw [Provenance.size_insert_of_not_mem hnew] at hle
      omega
  | succ room ih =>
    unfold expand
    split
    · exact ⟨closure, rfl⟩
    · next offset rest hcons =>
      obtain ⟨hnew, hmem, hrest⟩ := not_mem_of_dropWhile hcons
      have hoffset := hpending offset hmem
      obtain ⟨producers, haccept⟩ := exists_accept_iff.2 (haccepts offset hoffset)
      obtain ⟨result, hresult⟩ : ∃ result, findings.expand limit room (closure.insert offset)
          (producers.reverse ++ rest) = .ok result := by
        refine ih (fun x hx => ?_) (fun x hx => ?_) ?_
        · rw [Provenance.mem_insert_iff] at hx
          exact hx.elim (fun e => e ▸ hoffset) (hclosure x)
        · rcases List.mem_append.1 hx with hx | hx
          · have hdepends := (mem_of_accept haccept).1 (List.mem_reverse.1 hx)
            exact hclosed offset hoffset x hdepends
          · exact hpending x (hrest x hx)
        · rw [Provenance.size_insert_of_not_mem hnew]
          omega
      exact ⟨result, bind_eq_ok_iff.2 ⟨producers, haccept, hresult⟩⟩

/-- **A closure is found** if all instructions that take part may do so and there are at most as
many as the limit allows. -/
theorem closure_eq_ok {limit : Nat} {source : Offset} {members : Provenance}
    (hmembers : ∀ x, x ∈ members ↔ findings.TakesPart source x)
    (haccepts : ∀ x ∈ members, findings.Accepts x) (hsize : members.size ≤ limit) :
    findings.closure limit source = .ok members := by
  have hclosed : ∀ x ∈ members, ∀ y, findings.DependsOn x y → y ∈ members := by
    intro x hx y hy
    exact (hmembers y).2 (((hmembers x).1 hx).tail hy)
  obtain ⟨result, hresult⟩ : ∃ result, findings.closure limit source = .ok result := by
    refine exists_expand haccepts hclosed (fun x hx => absurd hx Std.ExtTreeSet.not_mem_empty)
      (fun x hx => ?_) (by rw [Std.ExtTreeSet.size_empty]; omega)
    rw [List.mem_singleton] at hx
    exact (hmembers x).2 (hx ▸ .refl)
  have hsame : result = members := by
    apply Std.ExtTreeSet.ext_mem
    intro x
    rw [(mem_closure_iff hresult).1 x, hmembers x]
  rw [hresult, hsame]

end Findings

end KeyedVM
