import KeyedVM.Proofs.ControlFlow.Fallthrough

set_option relaxedAutoImplicit false
set_option autoImplicit false

/-!
# The blocks of a graph partition its instructions

The blocks of a control flow graph, one after the other, are the recorded instructions in the order
of offsets.  They are as long as they can be: inside a block nothing calls for a cut, and between
two neighbours something does.  Where no two instructions share an offset, the graph does not depend
on the order in which they are given.

## Main definitions

* `KeyedVM.sortedOnce` — findings sorted by offset, only the first of those with the same offset;
* `KeyedVM.Partitions` — a row of blocks cuts findings at the right places.

## Main results

* `KeyedVM.ordered_eq_sortedOnce` — putting findings in order is sorting and dropping repetitions;
* `KeyedVM.ordered_eq_of_perm` — the order of findings with different offsets does not matter;
* `KeyedVM.partitions_blocks` — findings in order are cut at the right places;
* `KeyedVM.ControlFlowGraph.build_partitions` — the blocks of a graph partition the findings, and
  permuted findings with different offsets have the same graph or the same error.
-/

namespace KeyedVM

/-! ## Sorting and dropping repetitions -/

/-- Findings sorted by offset.  Those with the same offset stay in their order, and only the first
of them is kept. -/
def sortedOnce (findings : List Finding) : List Finding :=
  (findings.mergeSort fun a b => a.offset ≤ b.offset).eraseRepsBy fun a b => a.offset = b.offset

section Repetitions

variable {α : Type} (r : α → α → Bool)

/-- What the loop of `eraseRepsBy` has gathered stands in front of the rest. -/
lemma eraseRepsBy_loop (a : α) (l acc : List α) :
    List.eraseRepsBy.loop r a l acc = acc.reverse ++ List.eraseRepsBy.loop r a l [] := by
  induction l generalizing a acc with
  | nil => simp [List.eraseRepsBy.loop]
  | cons b l ih =>
    unfold List.eraseRepsBy.loop
    cases r a b with
    | true => exact ih a acc
    | false =>
      dsimp only
      rw [ih b (a :: acc), ih b [a]]
      simp

/-- The first member of a row is kept, and its repetitions behind it are dropped. -/
lemma eraseRepsBy_cons (a : α) (l : List α) :
    (a :: l).eraseRepsBy r = a :: (l.dropWhile (r a)).eraseRepsBy r := by
  induction l with
  | nil => rfl
  | cons b l ih =>
    cases h : r a b with
    | true =>
      rw [List.dropWhile_cons_of_pos h, ← ih]
      simp [List.eraseRepsBy, List.eraseRepsBy.loop, h]
    | false =>
      rw [List.dropWhile_cons_of_neg (by simp [h])]
      simp only [List.eraseRepsBy, List.eraseRepsBy.loop, h]
      exact eraseRepsBy_loop r b l [a]

end Repetitions

/-- Among findings without repetitions, one that comes behind the smaller ones and before the others
takes its place in their order. -/
lemma eraseRepsBy_append_cons {smaller others : List Finding} {a : Finding}
    (hsmaller : ∀ b ∈ smaller, b.offset < a.offset) (hothers : ∀ c ∈ others, a.offset ≤ c.offset) :
    (smaller ++ a :: others).eraseRepsBy (fun a b => a.offset = b.offset) =
      insertOrdered a
        ((smaller ++ others).eraseRepsBy fun a b => a.offset = b.offset) := by
  match smaller, hsmaller with
  | [], _ =>
    cases others with
    | nil => rfl
    | cons c others =>
      simp only [List.nil_append]
      rw [eraseRepsBy_cons, eraseRepsBy_cons, insertOrdered]
      by_cases hsame : a.offset = c.offset
      · rw [List.dropWhile_cons_of_pos (by simpa using hsame), hsame, if_neg (UInt64.lt_irrefl _),
          if_pos rfl]
      · have hlt : a.offset < c.offset :=
          UInt64.lt_of_le_of_ne (hothers c List.mem_cons_self) hsame
        rw [List.dropWhile_cons_of_neg (by simpa using hsame), if_pos hlt, eraseRepsBy_cons]
  | b :: smaller, hsmaller =>
    have hlt : b.offset < a.offset := hsmaller b List.mem_cons_self
    have hkept : ∀ rest : List Finding, (∀ c ∈ rest, a.offset ≤ c.offset) →
        (smaller ++ rest).dropWhile (fun c => b.offset = c.offset)
          = smaller.dropWhile (fun c => b.offset = c.offset) ++ rest := by
      intro rest hrest
      have hself : rest.dropWhile (fun c => decide (b.offset = c.offset)) = rest := by
        cases rest with
        | nil => rfl
        | cons c rest =>
          have hne : b.offset ≠ c.offset :=
            UInt64.ne_of_lt (UInt64.lt_of_lt_of_le hlt (hrest c List.mem_cons_self))
          exact List.dropWhile_cons_of_neg (by simpa using hne)
      rw [List.dropWhile_append, hself]
      split
      · next hempty => rw [List.isEmpty_iff.1 hempty, List.nil_append]
      · rfl
    rw [List.cons_append, List.cons_append, eraseRepsBy_cons, eraseRepsBy_cons,
      hkept others hothers, hkept (a :: others) (by simpa using hothers),
      eraseRepsBy_append_cons (fun c hc => hsmaller c (List.mem_cons_of_mem b
        ((List.dropWhile_sublist _).subset hc))) hothers, insertOrdered,
      if_neg (UInt64.not_lt.2 (UInt64.le_of_lt hlt)), if_neg (UInt64.ne_of_lt hlt).symm]
termination_by smaller.length
decreasing_by
  have := (List.dropWhile_sublist (l := smaller) (fun c => decide (b.offset = c.offset))).length_le
  simp only [List.length_cons]
  omega

/-- **Putting findings in order is sorting them and dropping repetitions.**

**Proof sketch.** Induction on the findings.  Sorting is stable: the first finding comes behind the
findings with smaller offsets and before all others, so that it is the one of its offset that is
kept. -/
theorem ordered_eq_sortedOnce (findings : List Finding) :
    ordered findings = sortedOnce findings := by
  have htrans : ∀ a b c : Finding, decide (a.offset ≤ b.offset) = true →
      decide (b.offset ≤ c.offset) = true → decide (a.offset ≤ c.offset) = true := by
    simp only [decide_eq_true_eq]
    exact fun a b c => UInt64.le_trans
  have htotal : ∀ a b : Finding,
      (decide (a.offset ≤ b.offset) || decide (b.offset ≤ a.offset)) = true := by
    simp only [Bool.or_eq_true, decide_eq_true_eq]
    exact fun a b => UInt64.le_total _ _
  induction findings with
  | nil => simp [ordered, sortedOnce, List.eraseRepsBy]
  | cons a findings ih =>
    obtain ⟨smaller, others, hall, hrest, hsmaller⟩ :=
      List.mergeSort_cons htrans htotal a findings
    have hsorted := List.pairwise_mergeSort htrans htotal (a :: findings)
    rw [hall] at hsorted
    have hothers : ∀ c ∈ others, a.offset ≤ c.offset := fun c hc =>
      of_decide_eq_true ((List.pairwise_cons.1 (List.pairwise_append.1 hsorted).2.1).1 c hc)
    have hlt : ∀ b ∈ smaller, b.offset < a.offset := fun b hb =>
      UInt64.not_le.1 (by simpa using hsmaller b hb)
    have hordered : ordered (a :: findings) = insertOrdered a (ordered findings) := rfl
    rw [hordered, ih, sortedOnce, sortedOnce, hall, hrest, eraseRepsBy_append_cons hlt hothers]

/-! ## Findings with different offsets -/

/-- Inserting a finding at a new offset permutes the list with the finding in front. -/
lemma insertOrdered_perm {finding : Finding} {findings : List Finding}
    (h : ∀ other ∈ findings, other.offset ≠ finding.offset) :
    (insertOrdered finding findings).Perm (finding :: findings) := by
  induction findings with
  | nil => exact List.Perm.refl _
  | cons head rest ih =>
    rw [insertOrdered]
    split
    · exact List.Perm.refl _
    · rw [if_neg (h head List.mem_cons_self).symm]
      exact ((ih fun other hother => h other (List.mem_cons_of_mem head hother)).cons head).trans
        (List.Perm.swap _ _ _)

/-- Findings with different offsets are all kept. -/
lemma ordered_perm {findings : List Finding} (h : (findings.map (·.offset)).Nodup) :
    (ordered findings).Perm findings := by
  induction findings with
  | nil => exact List.Perm.refl _
  | cons finding rest ih =>
    obtain ⟨hnew, hrest⟩ := List.nodup_cons.1 h
    refine (insertOrdered_perm fun other hother heq => hnew ?_).trans ((ih hrest).cons finding)
    exact List.mem_map.2 ⟨other, mem_of_mem_ordered hother, heq⟩

/-- **The order in which findings with different offsets are given does not matter.** -/
theorem ordered_eq_of_perm {findings permuted : List Finding}
    (h : (findings.map (·.offset)).Nodup) (hperm : permuted.Perm findings) :
    ordered permuted = ordered findings := by
  have hpermuted : (permuted.map (·.offset)).Nodup := (hperm.map _).nodup_iff.2 h
  have hall : (ordered permuted).Perm (ordered findings) :=
    (ordered_perm hpermuted).trans (hperm.trans (ordered_perm h).symm)
  refine hall.eq_of_pairwise (fun a b _ _ hab hba => ?_) (pairwise_ordered permuted)
    (pairwise_ordered findings)
  exact absurd (UInt64.lt_trans hab hba) (UInt64.lt_irrefl _)

/-! ## Cuts -/

/-- A row of blocks cuts findings at the right places.  One after the other the blocks are the
findings in order.  Inside a block each instruction follows directly on the one before, only the
first one may be the entry or a header, and only the last one may end its path; between two
neighbours there is a reason for a cut. -/
structure Partitions (entry : Offset) (headers : Std.ExtTreeSet Offset) (findings : List Finding)
    (row : List Block) : Prop where
  bodies : row.flatMap Block.body = sortedOnce findings
  ascending : row.Pairwise fun first second => first.offset < second.offset
  contiguous : ∀ block ∈ row,
    block.body.IsChain fun previous finding => previous.next = finding.offset
  starts : ∀ block ∈ row, ∀ finding ∈ block.body.tail,
    finding.offset ≠ entry ∧ finding.offset ∉ headers
  ends : ∀ block ∈ row, ∀ finding ∈ block.body.dropLast, finding.endsPath = false
  maximal : row.IsChain fun first second =>
    second.offset = entry ∨ second.offset ∈ headers ∨ first.last.endsPath = true ∨
      first.stop ≠ second.offset

variable {entry : Offset} {headers : Std.ExtTreeSet Offset}

/-- A cut is made before an entry, a header, behind the end of a path and behind a gap. -/
lemma cutsBefore_eq_true_iff {previous finding : Finding} :
    cutsBefore entry headers previous finding = true ↔
      finding.offset = entry ∨ finding.offset ∈ headers ∨ previous.endsPath = true ∨
        previous.next ≠ finding.offset := by
  simp only [cutsBefore, Bool.or_eq_true, decide_eq_true_eq, Std.ExtTreeSet.contains_iff_mem]
  tauto

/-- No cut is made inside a block: at no entry or header, behind no end of a path, and without a
gap. -/
lemma cutsBefore_eq_false_iff {previous finding : Finding} :
    cutsBefore entry headers previous finding = false ↔
      previous.next = finding.offset ∧ (finding.offset ≠ entry ∧ finding.offset ∉ headers) ∧
        previous.endsPath = false := by
  rw [← Bool.not_eq_true, cutsBefore_eq_true_iff, ← Bool.not_eq_true]
  tauto

/-- What holds of the second of two neighbours holds of all members of a chain but the first. -/
lemma forall_mem_tail_of_isChain {α : Type} {r : α → α → Prop} {q : α → Prop} {l : List α}
    (hchain : l.IsChain r) (h : ∀ a b, r a b → q b) : ∀ b ∈ l.tail, q b := by
  induction hchain with
  | nil => simp
  | singleton a => simp
  | cons_cons hab _ ih =>
    intro c hc
    rcases List.mem_cons.1 hc with rfl | hc
    · exact h _ _ hab
    · exact ih c hc

/-- What holds of the first of two neighbours holds of all members of a chain but the last. -/
lemma forall_mem_dropLast_of_isChain {α : Type} {r : α → α → Prop} {q : α → Prop} {l : List α}
    (hchain : l.IsChain r) (h : ∀ a b, r a b → q a) : ∀ a ∈ l.dropLast, q a := by
  induction hchain with
  | nil => simp
  | singleton a => simp
  | cons_cons hab _ ih =>
    intro c hc
    rcases List.mem_cons.1 hc with rfl | hc
    · exact h _ _ hab
    · exact ih c hc

/-- **Findings in order are cut at the right places.** -/
theorem partitions_blocks (entry : Offset) (headers : Std.ExtTreeSet Offset)
    (findings : List Finding) :
    Partitions entry headers findings (blocks entry headers (ordered findings)) where
  bodies := by rw [flatMap_blocks, ordered_eq_sortedOnce]
  ascending := (pairwise_blocks entry headers (pairwise_ordered findings)).imp
    fun {first second} h => h first.first first.first_mem second.first second.first_mem
  contiguous block hblock := (isChain_body hblock).imp fun _ _ hjoined =>
    (cutsBefore_eq_false_iff.1 hjoined).1
  starts block hblock := forall_mem_tail_of_isChain (isChain_body hblock) fun _ _ hjoined =>
    (cutsBefore_eq_false_iff.1 hjoined).2.1
  ends block hblock := forall_mem_dropLast_of_isChain (isChain_body hblock) fun _ _ hjoined =>
    (cutsBefore_eq_false_iff.1 hjoined).2.2
  maximal := (isChain_blocks entry headers (ordered findings)).imp fun _ _ hcut =>
    cutsBefore_eq_true_iff.1 hcut

namespace ControlFlowGraph

/-- Findings that come out the same in order have the same graph or the same error. -/
lemma build_congr (exportId : ExportId) (entry : Offset) (headers : Std.ExtTreeSet Offset)
    (regions : List Region) {findings others : List Finding}
    (hempty : findings.isEmpty = others.isEmpty) (hordered : ordered findings = ordered others) :
    build exportId entry findings headers regions
      = build exportId entry others headers regions := by
  rw [build, build, hempty, hordered]

/-- **The blocks of a graph partition its findings.**  In the order of their numbers they are the
findings sorted by offset, without repetitions; they start at ascending offsets, and they are cut
where there is a reason and nowhere else.  If no two findings share an offset, permuted findings
have the same graph or the same error. -/
theorem build_partitions (exportId : ExportId) (entry : Offset) (findings : List Finding)
    (headers : Std.ExtTreeSet Offset) (regions : List Region) :
    (∀ cfg, build exportId entry findings headers regions = .ok cfg →
      Partitions entry headers findings cfg.graph.nodes.toList) ∧
    ((findings.map (·.offset)).Nodup → ∀ permuted : List Finding, permuted.Perm findings →
      build exportId entry permuted headers regions
        = build exportId entry findings headers regions) := by
  constructor
  · intro cfg hbuild
    rw [(arcsFrom_of_build hbuild).1]
    exact partitions_blocks entry headers findings
  · intro hdistinct permuted hperm
    exact build_congr exportId entry headers regions hperm.isEmpty_eq
      (ordered_eq_of_perm hdistinct hperm)

/-- Instructions out of order: `NOP` at 4 and `RET` at 6 follow each other, and `NOP` at 0 stands
before a gap. -/
def scattered : List Finding :=
  [.ofInstruction ⟨6, .ret, .none⟩ 0, .ofInstruction ⟨0, .nop, .none⟩ 0,
    .ofInstruction ⟨4, .nop, .none⟩ 0]

/-- The scattered instructions are partitioned into two blocks, in whichever order they are
given. -/
theorem build_partitions_scattered : ∃ cfg, build 1 0 scattered ∅ [] = .ok cfg ∧
    build 1 0 scattered.reverse ∅ [] = .ok cfg ∧
    Partitions 0 ∅ scattered cfg.graph.nodes.toList ∧ cfg.graph.nodes.size = 2 := by
  obtain ⟨cfg, hbuild, hsize⟩ : ∃ cfg, build 1 0 scattered ∅ [] = .ok cfg ∧
      cfg.graph.nodes.size = 2 := exists_eq_ok (by decide +kernel)
  obtain ⟨hpartitions, hpermuted⟩ := build_partitions 1 0 scattered ∅ []
  have hreverse := hpermuted (by decide) scattered.reverse scattered.reverse_perm
  exact ⟨cfg, hbuild, hreverse.trans hbuild, hpartitions cfg hbuild, hsize⟩

end ControlFlowGraph

end KeyedVM
