import KeyedVM.ControlFlow.Block
import Mathlib.Data.List.SplitBy
import Mathlib.Tactic.Lemma

set_option relaxedAutoImplicit false
set_option autoImplicit false

/-!
# The partition into blocks

Findings are put in the order of offsets and cut into blocks.  Nothing gets lost on the way: there
is one finding for each offset, and the blocks in a row are the ordered findings.  An instruction at
the entry or at a header is the first of its block.

## Main results

* `KeyedVM.pairwise_ordered`, `KeyedVM.exists_mem_ordered_iff` — ordered findings ascend strictly,
  over the same offsets;
* `KeyedVM.flatMap_blocks` — the blocks in a row are the findings;
* `KeyedVM.exists_block_of_header` — the entry and the headers start blocks;
* `KeyedVM.pairwise_blocks` — later blocks hold later instructions;
* `KeyedVM.Block.contains_of_mem` — a block of ascending findings contains them.
-/

namespace KeyedVM

/-! ## Findings in order -/

/-- What is inserted into an ordered list was inserted or had been in it. -/
lemma mem_of_mem_insertOrdered {finding other : Finding} {findings : List Finding}
    (h : other ∈ insertOrdered finding findings) : other = finding ∨ other ∈ findings := by
  induction findings with
  | nil => exact Or.inl (List.mem_singleton.1 h)
  | cons head rest ih =>
    rw [insertOrdered] at h
    split at h
    · exact List.mem_cons.1 h
    · split at h
      · exact (List.mem_cons.1 h).imp_right (List.mem_cons_of_mem head)
      · rcases List.mem_cons.1 h with rfl | h
        · exact Or.inr List.mem_cons_self
        · exact (ih h).imp_right (List.mem_cons_of_mem head)

/-- Putting a finding at its place adds its offset and keeps the others. -/
lemma exists_mem_insertOrdered_iff {finding : Finding} {findings : List Finding}
    {offset : Offset} : (∃ other ∈ insertOrdered finding findings, other.offset = offset) ↔
      finding.offset = offset ∨ ∃ other ∈ findings, other.offset = offset := by
  induction findings with
  | nil => simp [insertOrdered]
  | cons head rest ih =>
    rw [insertOrdered]
    split
    · simp only [List.mem_cons, exists_eq_or_imp]
    · split
      · next hsame => simp only [List.mem_cons, exists_eq_or_imp, hsame]; tauto
      · simp only [List.mem_cons, exists_eq_or_imp, ih]
        tauto

/-- An ordered list stays ordered when a finding is inserted. -/
lemma pairwise_insertOrdered {finding : Finding} {findings : List Finding}
    (h : findings.Pairwise fun a b => a.offset < b.offset) :
    (insertOrdered finding findings).Pairwise fun a b => a.offset < b.offset := by
  induction findings with
  | nil => exact List.pairwise_singleton _ _
  | cons head rest ih =>
    obtain ⟨hhead, hrest⟩ := List.pairwise_cons.1 h
    rw [insertOrdered]
    split
    · next hlt =>
      refine List.pairwise_cons.2 ⟨?_, h⟩
      intro other hother
      rcases List.mem_cons.1 hother with rfl | hother
      · exact hlt
      · exact UInt64.lt_trans hlt (hhead other hother)
    · next hge =>
      split
      · next hsame =>
        refine List.pairwise_cons.2 ⟨?_, hrest⟩
        intro other hother
        rw [hsame]
        exact hhead other hother
      · next hne =>
        refine List.pairwise_cons.2 ⟨?_, ih hrest⟩
        intro other hother
        rcases mem_of_mem_insertOrdered hother with rfl | hother
        · exact UInt64.lt_of_le_of_ne (UInt64.not_lt.1 hge) (Ne.symm hne)
        · exact hhead other hother

/-- Ordered findings are findings. -/
lemma mem_of_mem_ordered {finding : Finding} {findings : List Finding}
    (h : finding ∈ ordered findings) : finding ∈ findings := by
  induction findings with
  | nil => exact h
  | cons head rest ih =>
    rcases mem_of_mem_insertOrdered h with rfl | h
    · exact List.mem_cons_self
    · exact List.mem_cons_of_mem head (ih h)

/-- Putting findings in order keeps their offsets. -/
theorem exists_mem_ordered_iff {findings : List Finding} {offset : Offset} :
    (∃ finding ∈ ordered findings, finding.offset = offset) ↔
      ∃ finding ∈ findings, finding.offset = offset := by
  induction findings with
  | nil => rfl
  | cons head rest ih =>
    have hcons : ordered (head :: rest) = insertOrdered head (ordered rest) := rfl
    rw [hcons, exists_mem_insertOrdered_iff, ih]
    simp only [List.mem_cons, exists_eq_or_imp]

/-- **Ordered findings ascend strictly.** -/
theorem pairwise_ordered (findings : List Finding) :
    (ordered findings).Pairwise fun a b => a.offset < b.offset := by
  induction findings with
  | nil => exact List.Pairwise.nil
  | cons head rest ih => exact pairwise_insertOrdered ih

/-! ## Blocks -/

variable {entry : Offset} {headers : Std.ExtTreeSet Offset} {findings : List Finding}

/-- The bodies of the blocks are the pieces into which the findings are cut. -/
lemma map_body_blocks (entry : Offset) (headers : Std.ExtTreeSet Offset)
    (findings : List Finding) : (blocks entry headers findings).map Block.body
      = findings.splitBy fun previous finding => !cutsBefore entry headers previous finding := by
  have hbody : ∀ pieces : List (List Finding), [] ∉ pieces →
      (pieces.filterMap Block.ofList?).map Block.body = pieces := by
    intro pieces hpieces
    induction pieces with
    | nil => rfl
    | cons piece rest ih =>
      rw [List.mem_cons, not_or] at hpieces
      have hpiece : Block.ofList? piece = some ⟨piece, Ne.symm hpieces.1⟩ :=
        dif_pos (Ne.symm hpieces.1)
      rw [List.filterMap_cons_some hpiece, List.map_cons, ih hpieces.2]
  exact hbody _ (List.nil_notMem_splitBy _ _)

/-- **The blocks in a row are the findings.** -/
theorem flatMap_blocks (entry : Offset) (headers : Std.ExtTreeSet Offset)
    (findings : List Finding) : (blocks entry headers findings).flatMap Block.body = findings := by
  rw [List.flatMap_def, map_body_blocks, List.flatten_splitBy]

/-- Inside a block nothing is cut. -/
lemma isChain_body {block : Block} (h : block ∈ blocks entry headers findings) :
    block.body.IsChain
      fun previous finding => cutsBefore entry headers previous finding = false := by
  have hmem : block.body ∈ findings.splitBy
      fun previous finding => !cutsBefore entry headers previous finding := by
    rw [← map_body_blocks]
    exact List.mem_map_of_mem h
  refine (List.isChain_of_mem_splitBy hmem).imp ?_
  intro previous finding hjoined
  simpa using hjoined

/-- Every finding is in a block. -/
lemma exists_block_of_mem (entry : Offset) (headers : Std.ExtTreeSet Offset) {finding : Finding}
    (h : finding ∈ findings) :
    ∃ block ∈ blocks entry headers findings, finding ∈ block.body := by
  rw [← flatMap_blocks entry headers findings] at h
  exact List.mem_flatMap.1 h

/-- What is in a block is a finding. -/
lemma mem_of_mem_block {block : Block} {finding : Finding}
    (hblock : block ∈ blocks entry headers findings) (h : finding ∈ block.body) :
    finding ∈ findings := by
  rw [← flatMap_blocks entry headers findings]
  exact List.mem_flatMap.2 ⟨block, hblock, h⟩

/-- A member of a chain that no other member may stand before is the first one. -/
lemma head_of_isChain {r : Finding → Finding → Prop} {body : List Finding} (hne : body ≠ [])
    (hchain : body.IsChain r) {finding : Finding} (hmem : finding ∈ body)
    (hfirst : ∀ previous, ¬ r previous finding) : body.head hne = finding := by
  obtain ⟨front, back, rfl⟩ := List.append_of_mem hmem
  rcases List.eq_nil_or_concat front with rfl | ⟨front, previous, rfl⟩
  · rfl
  · have hpair : r previous finding := by
      rw [List.concat_eq_append, List.append_assoc, List.singleton_append] at hchain
      exact (List.isChain_append_cons_cons.1 hchain).2.1
    exact absurd hpair (hfirst previous)

/-- **The entry and the headers start blocks**, if an instruction is recorded there. -/
theorem exists_block_of_header {finding : Finding} (h : finding ∈ findings)
    (hheader : finding.offset = entry ∨ finding.offset ∈ headers) :
    ∃ block ∈ blocks entry headers findings, block.offset = finding.offset := by
  obtain ⟨block, hblock, hmem⟩ := exists_block_of_mem entry headers h
  refine ⟨block, hblock, ?_⟩
  have hcut : ∀ previous, ¬ cutsBefore entry headers previous finding = false := by
    intro previous
    rcases hheader with hentry | hmem
    · simp [cutsBefore, hentry]
    · simp [cutsBefore, Std.ExtTreeSet.contains_iff_mem.2 hmem]
  rw [Block.offset, Block.first, head_of_isChain block.nonempty (isChain_body hblock) hmem hcut]

/-- **Later blocks hold later instructions.** -/
theorem pairwise_blocks (entry : Offset) (headers : Std.ExtTreeSet Offset)
    (h : findings.Pairwise fun a b => a.offset < b.offset) :
    (blocks entry headers findings).Pairwise fun first second =>
      ∀ a ∈ first.body, ∀ b ∈ second.body, a.offset < b.offset := by
  rw [← flatMap_blocks entry headers findings] at h
  exact (List.pairwise_flatMap.1 h).2

/-- The instructions of a block ascend. -/
lemma pairwise_body (h : findings.Pairwise fun a b => a.offset < b.offset) {block : Block}
    (hblock : block ∈ blocks entry headers findings) :
    block.body.Pairwise fun a b => a.offset < b.offset := by
  rw [← flatMap_blocks entry headers findings] at h
  exact (List.pairwise_flatMap.1 h).1 block hblock

namespace Block

variable {block : Block} {finding : Finding}

/-- The first finding of a block is in its body. -/
lemma first_mem (block : Block) : block.first ∈ block.body := List.head_mem block.nonempty

/-- The last finding of a block is in its body. -/
lemma last_mem (block : Block) : block.last ∈ block.body := List.getLast_mem block.nonempty

/-- A block starts at or before each of its instructions. -/
lemma offset_le (h : block.body.Pairwise fun a b => a.offset < b.offset)
    (hmem : finding ∈ block.body) : block.offset ≤ finding.offset := by
  have hcons := List.cons_head_tail block.nonempty
  rw [← hcons] at h hmem
  rcases List.mem_cons.1 hmem with rfl | hmem
  · exact UInt64.le_refl _
  · exact UInt64.le_of_lt ((List.pairwise_cons.1 h).1 finding hmem)

/-- The last instruction of a block stands at or behind each of its instructions. -/
lemma le_last (h : block.body.Pairwise fun a b => a.offset < b.offset)
    (hmem : finding ∈ block.body) : finding.offset ≤ block.last.offset := by
  have hsnoc := List.dropLast_append_getLast block.nonempty
  rw [← hsnoc] at h hmem
  rcases List.mem_append.1 hmem with hmem | hmem
  · exact UInt64.le_of_lt ((List.pairwise_append.1 h).2.2 finding hmem _ List.mem_cons_self)
  · rw [List.mem_singleton.1 hmem]
    exact UInt64.le_refl _

/-- **A block of ascending findings contains them**, if the place behind its last instruction comes
after that instruction. -/
theorem contains_of_mem (h : block.body.Pairwise fun a b => a.offset < b.offset)
    (hmem : finding ∈ block.body) (hlast : block.last.offset < block.last.next) :
    block.contains finding.offset = true := by
  rw [contains, Bool.and_eq_true, decide_eq_true_eq, decide_eq_true_eq]
  exact ⟨offset_le h hmem, UInt64.lt_of_le_of_lt (le_last h hmem) hlast⟩

end Block

end KeyedVM
