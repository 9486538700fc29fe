import KeyedVM.Digraph.Traversal
import KeyedVM.Proofs.Digraph.Grown
import Mathlib.Data.List.Nodup

set_option relaxedAutoImplicit false
set_option autoImplicit false

/-!
# Orders of traversal

The traversals of a graph keep a stack of what is still to be done.  Post-order with a stack gives
the same nodes in the same order as the recursive search that enters a node, explores its successors
in the order of their edges, and then leaves the node.

The argument is about stacks of any form: nodes to be entered on top of anything else are dealt with
as the recursion would deal with them, and then the rest of the stack is.  A node that was entered
before is not put on the stack, and one that occurs there several times, because several edges lead
to it, is skipped when it comes up again.

## Main definitions

* `KeyedVM.Digraph.untouched` — the nodes that a search has not entered yet;
* `KeyedVM.Digraph.explore` — the recursive search;
* `KeyedVM.Digraph.Explores` — what a recursive search finds;
* `KeyedVM.Digraph.Searches` — what a search finds that marks the nodes on its stack;
* `KeyedVM.Digraph.Lists`, `KeyedVM.Digraph.AcyclicFrom` — orders of what a start reaches, and
  starts that reach no cycle.

## Main results

* `KeyedVM.Digraph.explores_explore` — the recursive search finds every node once, and leaves a node
  behind its successors;
* `KeyedVM.Digraph.postorderFrom_eq`, `KeyedVM.Digraph.postorder_eq_explore` — a stack is dealt
  with as the recursion would do it;
* `KeyedVM.Digraph.dfsFrom_searches` — a search that marks nodes when it finds them finds the same
  nodes;
* `KeyedVM.Digraph.traversals_exact` — the traversals of every graph.
-/

namespace KeyedVM.Digraph

variable {N E : Type} {graph : Digraph N E} {entered entered' nodes left : List NodeId}
  {node start : NodeId}

/-! ## Nodes that are left to enter -/

/-- The nodes of a graph that a search has not entered yet. -/
def untouched (graph : Digraph N E) (entered : List NodeId) : List NodeId :=
  graph.nodeIds.filter (· ∉ entered)

/-- A node is untouched exactly if it is in the graph and not entered. -/
lemma mem_untouched :
    node ∈ graph.untouched entered ↔ node.index < graph.nodeCount ∧ node ∉ entered := by
  rw [untouched, List.mem_filter, mem_nodeIds, decide_eq_true_eq]

/-- At most all nodes are untouched. -/
lemma length_untouched_le : (graph.untouched entered).length ≤ graph.nodeCount := by
  refine (List.length_filter_le _ _).trans ?_
  rw [nodeIds, List.length_map, List.length_range]

/-- Entering a node leaves one node less. -/
lemma length_untouched_cons (hnode : node ∈ graph.untouched entered) :
    (graph.untouched (node :: entered)).length + 1 = (graph.untouched entered).length := by
  have hnodup : (graph.untouched entered).Nodup := (nodup_nodeIds graph).filter _
  have herase : graph.untouched (node :: entered) = (graph.untouched entered).erase node := by
    rw [hnodup.erase_eq_filter, untouched, untouched, List.filter_filter]
    refine List.filter_congr fun other _ => ?_
    rw [bne, beq_eq_decide]
    simp
  have hpos := List.length_pos_of_mem hnode
  rw [herase, List.length_erase_of_mem hnode]
  omega

/-- Entering some nodes leaves as many nodes less. -/
lemma length_untouched_append (hnodup : left.Nodup)
    (hleft : ∀ node ∈ left, node ∈ graph.untouched entered) :
    (graph.untouched (left ++ entered)).length + left.length
      = (graph.untouched entered).length := by
  induction left with
  | nil => rfl
  | cons node left ih =>
    obtain ⟨hnew, hnodup⟩ := List.nodup_cons.1 hnodup
    have ih := ih hnodup fun other hmem => hleft other (List.mem_cons_of_mem _ hmem)
    have hnode : node ∈ graph.untouched (left ++ entered) := by
      obtain ⟨hlt, hfresh⟩ := mem_untouched.1 (hleft node List.mem_cons_self)
      refine mem_untouched.2 ⟨hlt, fun hmem => ?_⟩
      exact (List.mem_append.1 hmem).elim hnew hfresh
    have hcons := length_untouched_cons hnode
    rw [List.cons_append, List.length_cons]
    omega

/-- A search that has entered a new node has fewer nodes before it. -/
lemma length_untouched_lt (hnode : node ∈ graph.untouched entered) (hmem : node ∈ entered')
    (hsubset : ∀ other ∈ entered, other ∈ entered') :
    (graph.untouched entered').length < (graph.untouched entered).length := by
  have hle : (graph.untouched entered').length ≤ (graph.untouched (node :: entered)).length := by
    refine (List.monotone_filter_right _ fun other hother => ?_).length_le
    rw [decide_eq_true_eq] at hother ⊢
    intro hcons
    rcases List.mem_cons.1 hcons with rfl | hcons
    · exact hother hmem
    · exact hother (hsubset other hcons)
  have hcons := length_untouched_cons hnode
  omega

/-! ## The recursive search -/

/-- The recursive search: the nodes of a list are explored one after the other, of which the search
skips those that it has entered before.  Exploring a node is entering it, exploring its successors
in the order of their edges, and leaving it.  The answer lists the nodes in the order in which they
are left. -/
def explore (graph : Digraph N E) (entered : List NodeId) : List NodeId → List NodeId
  | [] => []
  | node :: rest =>
    if node ∈ graph.untouched entered then
      let below := graph.explore (node :: entered) (graph.successors node)
      below ++ node :: graph.explore (below ++ node :: entered) rest
    else graph.explore entered rest
termination_by nodes => ((graph.untouched entered).length, nodes.length)
decreasing_by
  · exact Prod.Lex.left _ _ (length_untouched_lt ‹_› List.mem_cons_self fun _ =>
      List.mem_cons_of_mem _)
  · exact Prod.Lex.left _ _ (length_untouched_lt ‹_› (List.mem_append_right _ List.mem_cons_self)
      fun _ hmem => List.mem_append_right _ (List.mem_cons_of_mem _ hmem))
  · exact Prod.Lex.right _ (Nat.lt_succ_self _)

/-- What a search through some nodes finds that has entered others before. -/
structure Explores (graph : Digraph N E) (entered nodes left : List NodeId) : Prop where
  nodup : left.Nodup
  untouched : ∀ node ∈ left, node ∈ graph.untouched entered
  covers : ∀ node ∈ nodes, node.index < graph.nodeCount → node ∈ entered ∨ node ∈ left
  reached : ∀ node ∈ left, ∃ first ∈ nodes, graph.Reaches first node
  /-- When a node is left, its successors have been left, unless they were entered before the
  search, or the node is left on the way back to them. -/
  successors : ∀ before node behind, left = before ++ node :: behind →
    ∀ next, graph.HasEdge node next →
      next ∈ before ∨ next ∈ entered ∨ next ∈ left ∧ graph.Reaches next node

/-- All that is found through the successors of a node is reached from the node. -/
lemma Explores.reaches (hgraph : graph.Consistent)
    (h : graph.Explores entered (graph.successors node) left) {other : NodeId}
    (hother : other ∈ left) : graph.Reaches node other := by
  obtain ⟨first, hfirst, hreaches⟩ := h.reached other hother
  exact .head (hgraph.mem_successors_iff.1 hfirst) hreaches

/-- A member of a list that is put together from two lists and a member between them. -/
lemma append_cons_cases {α : Type} {front back before behind : List α} {middle member : α}
    (h : front ++ middle :: back = before ++ member :: behind) :
    (∃ later, front = before ++ member :: later) ∨ (middle = member ∧ front = before) ∨
      ∃ earlier, before = front ++ middle :: earlier ∧ back = earlier ++ member :: behind := by
  rcases List.append_eq_append_iff.1 h with ⟨between, rfl, hrest⟩ | ⟨between, rfl, hrest⟩
  · rcases List.cons_eq_append_iff.1 hrest with ⟨rfl, hhead⟩ | ⟨earlier, rfl, hback⟩
    · exact Or.inr (Or.inl ⟨(List.cons.inj hhead).1.symm, (List.append_nil _).symm⟩)
    · exact Or.inr (Or.inr ⟨earlier, rfl, hback⟩)
  · rcases List.append_eq_cons_iff.1 hrest.symm with ⟨rfl, hhead⟩ | ⟨later, rfl, -⟩
    · exact Or.inr (Or.inl ⟨(List.cons.inj hhead).1, List.append_nil _⟩)
    · exact Or.inl ⟨later, rfl⟩

section Cons

variable {rest below after : List NodeId}

/-- When a node is left, its successors have been left.

**Proof sketch.** The node belongs to the part below the new one, is the new one, or belongs to the
rest.  Below the new node, a successor that was entered before is the new node, from which all of
that part is reached, or was entered before that.  When the new node itself is left, the search has
covered all its successors. -/
lemma Explores.successors_cons (hgraph : graph.Consistent)
    (hbelow : graph.Explores (node :: entered) (graph.successors node) below)
    (hafter : graph.Explores (below ++ node :: entered) rest after)
    {before behind : List NodeId} {other next : NodeId}
    (hsplit : below ++ node :: after = before ++ other :: behind)
    (hedge : graph.HasEdge other next) :
    next ∈ before ∨ next ∈ entered ∨
      next ∈ below ++ node :: after ∧ graph.Reaches next other := by
  rcases append_cons_cases hsplit with ⟨later, rfl⟩ | ⟨rfl, rfl⟩ | ⟨earlier, rfl, hlater⟩
  · have hback : next = node → graph.Reaches next other := by
      rintro rfl
      exact hbelow.reaches hgraph (List.mem_append_right _ List.mem_cons_self)
    have hor := hbelow.successors before other later rfl next hedge
    simp only [List.mem_append, List.mem_cons] at hor ⊢
    tauto
  · have hor := hbelow.covers next (hgraph.mem_successors_iff.2 hedge) (hgraph.target_lt hedge)
    have hself : next = node → graph.Reaches next node := by
      rintro rfl
      exact .refl
    simp only [List.mem_append, List.mem_cons] at hor ⊢
    tauto
  · have hor := hafter.successors earlier other behind hlater next hedge
    simp only [List.mem_append, List.mem_cons] at hor ⊢
    tauto

/-- Exploring a new node in front of others. -/
lemma Explores.cons (hgraph : graph.Consistent) (hnode : node ∈ graph.untouched entered)
    (hbelow : graph.Explores (node :: entered) (graph.successors node) below)
    (hafter : graph.Explores (below ++ node :: entered) rest after) :
    graph.Explores entered (node :: rest) (below ++ node :: after) := by
  have hdistinct : ∀ {other}, other ∈ below → other ≠ node ∧ other ∉ entered := by
    intro other hother
    have hnew := (mem_untouched.1 (hbelow.untouched other hother)).2
    rwa [List.mem_cons, not_or] at hnew
  have hfresh : ∀ {other}, other ∈ after → other ∉ below ∧ other ≠ node ∧ other ∉ entered := by
    intro other hother
    have hnew := (mem_untouched.1 (hafter.untouched other hother)).2
    rwa [List.mem_append, List.mem_cons, not_or, not_or] at hnew
  refine ⟨?_, fun other hother => ?_, fun other hother hlt => ?_, fun other hother => ?_,
    fun _ _ _ hsplit _ hedge => hbelow.successors_cons hgraph hafter hsplit hedge⟩
  · refine List.nodup_append.2 ⟨hbelow.nodup, List.nodup_cons.2 ⟨?_, hafter.nodup⟩, ?_⟩
    · exact fun hmem => (hfresh hmem).2.1 rfl
    · rintro other hother _ hmem rfl
      rcases List.mem_cons.1 hmem with rfl | hmem
      · exact (hdistinct hother).1 rfl
      · exact (hfresh hmem).1 hother
  · rcases List.mem_append.1 hother with hother | hother
    · exact mem_untouched.2 ⟨(mem_untouched.1 (hbelow.untouched other hother)).1,
        (hdistinct hother).2⟩
    · rcases List.mem_cons.1 hother with rfl | hother
      · exact hnode
      · exact mem_untouched.2 ⟨(mem_untouched.1 (hafter.untouched other hother)).1,
          (hfresh hother).2.2⟩
  · rcases List.mem_cons.1 hother with rfl | hother
    · exact Or.inr (List.mem_append_right _ List.mem_cons_self)
    · have hor := hafter.covers other hother hlt
      simp only [List.mem_append, List.mem_cons] at hor ⊢
      tauto
  · rcases List.mem_append.1 hother with hother | hother
    · exact ⟨node, List.mem_cons_self, hbelow.reaches hgraph hother⟩
    · rcases List.mem_cons.1 hother with rfl | hother
      · exact ⟨other, List.mem_cons_self, .refl⟩
      · obtain ⟨first, hfirst, hreaches⟩ := hafter.reached other hother
        exact ⟨first, List.mem_cons_of_mem _ hfirst, hreaches⟩

end Cons

/-- **The recursive search finds every node once, and leaves a node behind its successors.** -/
theorem explores_explore (hgraph : graph.Consistent) (entered nodes : List NodeId) :
    graph.Explores entered nodes (graph.explore entered nodes) := by
  fun_induction explore graph entered nodes with
  | case1 entered =>
    exact ⟨List.nodup_nil, by simp, by simp, by simp, by simp⟩
  | case2 entered node rest hnode below ihbelow ihrest => exact ihbelow.cons hgraph hnode ihrest
  | case3 entered node rest hnode ih =>
    refine ⟨ih.nodup, ih.untouched, fun other hother hlt => ?_, fun other hother => ?_,
      ih.successors⟩
    · rcases List.mem_cons.1 hother with rfl | hother
      · exact Or.inl (not_not.1 fun hnew => hnode (mem_untouched.2 ⟨hlt, hnew⟩))
      · exact ih.covers other hother hlt
    · obtain ⟨first, hfirst, hreaches⟩ := ih.reached other hother
      exact ⟨first, List.mem_cons_of_mem _ hfirst, hreaches⟩

/-! ## Post-order with a stack -/

section Stack

variable {room : Nat} {stack : List Visit}

/-- A search without anything to visit is over. -/
lemma postorderFrom_nil (graph : Digraph N E) (room : Nat) (entered : List NodeId) :
    graph.postorderFrom room entered [] = [] := by
  cases room <;> rfl

/-- A node that is left is listed. -/
lemma postorderFrom_leave (graph : Digraph N E) (room : Nat) (entered : List NodeId)
    (node : NodeId) (stack : List Visit) :
    graph.postorderFrom room entered (.leave node :: stack)
      = node :: graph.postorderFrom room entered stack := by
  unfold postorderFrom
  simp only [unwind]
  split <;> rfl

/-- A node that was entered before is skipped. -/
lemma postorderFrom_enter_of_mem (hnode : node ∈ entered) :
    graph.postorderFrom room entered (.enter node :: stack)
      = graph.postorderFrom room entered stack := by
  unfold postorderFrom
  simp only [unwind, hnode, if_true]

/-- A new node is entered, and put back on the stack to be left behind its successors, of which
those are left out that were entered before. -/
lemma postorderFrom_enter (hnode : node ∉ entered) :
    graph.postorderFrom (room + 1) entered (.enter node :: stack)
      = graph.postorderFrom room (node :: entered)
          (((graph.successors node).filter (· ∉ node :: entered)).map .enter
            ++ .leave node :: stack) := by
  rw [postorderFrom]
  simp only [unwind, hnode, if_false, List.nil_append]

/-- What is left to unwind depends only on which nodes were entered. -/
lemma unwind_congr (h : ∀ node, node ∈ entered ↔ node ∈ entered') (stack : List Visit) :
    unwind entered stack = unwind entered' stack := by
  induction stack with
  | nil => rfl
  | cons visit stack ih =>
    cases visit with
    | leave node => simp only [unwind, ih]
    | enter node => simp only [unwind, ih, h node]

/-- The order in which nodes were entered does not matter. -/
lemma postorderFrom_congr (h : ∀ node, node ∈ entered ↔ node ∈ entered') (room : Nat)
    (stack : List Visit) :
    graph.postorderFrom room entered stack = graph.postorderFrom room entered' stack := by
  induction room generalizing entered entered' stack with
  | zero =>
    unfold postorderFrom
    rw [unwind_congr h]
  | succ room ih =>
    unfold postorderFrom
    rw [unwind_congr h]
    split
    · next less node rest hroom _ =>
      obtain rfl := Nat.succ.inj hroom
      have hsame : ∀ other, other ∈ node :: entered ↔ other ∈ node :: entered' := by
        intro other
        rw [List.mem_cons, List.mem_cons, h]
      simp only [hsame]
      rw [ih hsame]
    · rfl

/-- **A stack is dealt with as the recursion would do it.**  If there is room for all nodes that the
search has not entered, then nodes to be entered on top of a stack are explored recursively, and the
rest of the stack comes behind them.  Some of the nodes may be left out because they were entered
before.

**Proof sketch.** Induction along the recursion.  Entering a new node puts its successors on the
stack, with the node to be left below them, so the recursion is first used for the successors and
then for the other nodes.  Both have the room that they need, because a search takes as much of it
as it finds nodes. -/
theorem postorderFrom_eq (hgraph : graph.Consistent) (nodes : List NodeId) {old : List NodeId}
    (hold : ∀ node ∈ old, node ∈ entered)
    (hnodes : ∀ node ∈ nodes, node.index < graph.nodeCount)
    (hroom : (graph.untouched entered).length ≤ room) :
    graph.postorderFrom room entered ((nodes.filter (· ∉ old)).map .enter ++ stack)
      = graph.explore entered nodes ++ graph.postorderFrom
          (room - (graph.explore entered nodes).length)
          (graph.explore entered nodes ++ entered) stack := by
  fun_induction explore graph entered nodes generalizing room stack old with
  | case1 entered => rfl
  | case2 entered node rest hnode below ihbelow =>
    rename_i ihrest
    have hexplores : graph.Explores (node :: entered) (graph.successors node) below :=
      explores_explore hgraph _ _
    rw [show graph.explore (node :: entered) (graph.successors node) = below from rfl] at ihbelow
    have hcons := length_untouched_cons hnode
    have hleft := length_untouched_append hexplores.nodup hexplores.untouched
    obtain ⟨room, rfl⟩ : ∃ less, room = less + 1 := ⟨room - 1, by omega⟩
    have hsuccessors : ∀ next ∈ graph.successors node, next.index < graph.nodeCount :=
      fun next hnext => hgraph.target_lt (hgraph.mem_successors_iff.1 hnext)
    have hnew : node ∉ old := fun hmem => (mem_untouched.1 hnode).2 (hold node hmem)
    have hlater : ∀ other ∈ old, other ∈ below ++ node :: entered := fun other hother =>
      List.mem_append_right _ (List.mem_cons_of_mem _ (hold other hother))
    rw [List.filter_cons_of_pos (by simpa using hnew), List.map_cons, List.cons_append,
      postorderFrom_enter (mem_untouched.1 hnode).2,
      ihbelow (fun _ hmem => hmem) hsuccessors (by omega), postorderFrom_leave,
      ihrest hlater (fun other hother => hnodes other (List.mem_cons_of_mem _ hother)) (by omega)]
    set after := graph.explore (below ++ node :: entered) rest
    have hlength : room - below.length - after.length
        = room + 1 - (below ++ node :: after).length := by
      rw [List.length_append, List.length_cons]
      omega
    have hsame : ∀ other, other ∈ after ++ (below ++ node :: entered) ↔
        other ∈ (below ++ node :: after) ++ entered := by
      intro other
      simp only [List.mem_append, List.mem_cons]
      tauto
    rw [hlength, postorderFrom_congr hsame, ← List.cons_append, ← List.append_assoc]
  | case3 entered node rest hnode ih =>
    have hmem : node ∈ entered := not_not.1 fun hnew =>
      hnode (mem_untouched.2 ⟨hnodes node List.mem_cons_self, hnew⟩)
    have ih := @ih room stack old hold
      (fun other hother => hnodes other (List.mem_cons_of_mem _ hother)) hroom
    by_cases hskipped : node ∈ old
    · rwa [List.filter_cons_of_neg (by simpa using hskipped)]
    · rwa [List.filter_cons_of_pos (by simpa using hskipped), List.map_cons, List.cons_append,
        postorderFrom_enter_of_mem hmem]

/-- **Post-order with a stack is the recursive post-order.** -/
theorem postorder_eq_explore (hgraph : graph.Consistent) (start : NodeId) :
    graph.postorder start = graph.explore [] [start] := by
  unfold postorder
  split
  · next hstart =>
    have hnodes : ∀ node ∈ [start], node.index < graph.nodeCount := by
      intro node hnode
      rwa [List.mem_singleton.1 hnode]
    have hroom : (graph.untouched []).length ≤ graph.nodeCount := length_untouched_le
    have hnone : ∀ node ∈ ([] : List NodeId), node ∈ ([] : List NodeId) := fun _ hmem => hmem
    have heq : graph.postorderFrom graph.nodeCount [] ([start].map .enter ++ []) = _ :=
      postorderFrom_eq hgraph [start] hnone hnodes hroom
    rwa [postorderFrom_nil, List.append_nil, List.append_nil] at heq
  · next hstart =>
    rw [explore, if_neg fun h => hstart (mem_untouched.1 h).1, explore]

end Stack

/-! ## Depth-first order -/

/-- What a search finds that has the nodes of a stack before it, and others marked. -/
structure Searches (graph : Digraph N E) (stack marked found : List NodeId) : Prop where
  nodup : found.Nodup
  covers : ∀ node ∈ stack, node ∈ found
  fresh : ∀ node ∈ found, node ∈ stack ∨ node ∉ marked
  reached : ∀ node ∈ found, ∃ first ∈ stack, graph.Reaches first node
  successors : ∀ node ∈ found, ∀ next, graph.HasEdge node next → next ∈ marked ∨ next ∈ found

section Stack

variable {stack marked : List NodeId} {room : Nat}

/-- Some nodes are put on the stack and marked, each of them once. -/
lemma foldl_discover (nodes stack marked : List NodeId) :
    ∃ fresh, nodes.foldl discover (stack, marked) = (fresh ++ stack, fresh ++ marked) ∧
      fresh.Nodup ∧ (∀ node ∈ fresh, node ∈ nodes ∧ node ∉ marked) ∧
      ∀ node ∈ nodes, node ∈ fresh ∨ node ∈ marked := by
  induction nodes generalizing stack marked with
  | nil => exact ⟨[], rfl, List.nodup_nil, by simp, by simp⟩
  | cons node nodes ih =>
    rw [List.foldl_cons]
    by_cases hnode : node ∈ marked
    · obtain ⟨fresh, heq, hnodup, hfresh, hcovers⟩ := ih stack marked
      rw [discover, if_pos hnode, heq]
      refine ⟨fresh, rfl, hnodup, fun other hother => ?_, fun other hother => ?_⟩
      · exact ⟨List.mem_cons_of_mem _ (hfresh other hother).1, (hfresh other hother).2⟩
      · rcases List.mem_cons.1 hother with rfl | hother
        · exact Or.inr hnode
        · exact hcovers other hother
    · obtain ⟨fresh, heq, hnodup, hfresh, hcovers⟩ := ih (node :: stack) (node :: marked)
      have hnew : node ∉ fresh := fun hmem => (hfresh node hmem).2 List.mem_cons_self
      rw [discover, if_neg hnode, heq]
      refine ⟨fresh ++ [node], ?_, ?_, fun other hother => ?_, fun other hother => ?_⟩
      · rw [List.append_assoc, List.append_assoc, List.singleton_append, List.singleton_append]
      · exact List.nodup_append.2 ⟨hnodup, List.nodup_singleton node, by grind⟩
      · rcases List.mem_append.1 hother with hother | hother
        · obtain ⟨hmem, hmarked⟩ := hfresh other hother
          exact ⟨List.mem_cons_of_mem _ hmem, fun h => hmarked (List.mem_cons_of_mem _ h)⟩
        · rw [List.mem_singleton.1 hother]
          exact ⟨List.mem_cons_self, hnode⟩
      · rcases List.mem_cons.1 hother with rfl | hother
        · exact Or.inl (List.mem_append_right _ (List.mem_singleton_self _))
        · have hor := hcovers other hother
          simp only [List.mem_cons, List.mem_append, List.not_mem_nil] at hor ⊢
          tauto

/-- Nothing is found on an empty stack. -/
lemma searches_nil : graph.Searches [] marked (graph.dfsFrom room [] marked) := by
  have hnil : graph.dfsFrom room [] marked = [] := by cases room <;> rfl
  rw [hnil]
  exact ⟨List.nodup_nil, by simp, by simp, by simp, by simp⟩

/-- Taking a node from the stack, when its unmarked successors were put there in its place. -/
lemma Searches.cons (hgraph : graph.Consistent) {fresh found : List NodeId}
    (hstack : (node :: stack).Nodup) (hmarked : node ∈ marked)
    (hfresh : ∀ next ∈ fresh, next ∈ graph.successors node ∧ next ∉ marked)
    (hcovers : ∀ next ∈ graph.successors node, next ∈ fresh ∨ next ∈ marked)
    (h : graph.Searches (fresh ++ stack) (fresh ++ marked) found) :
    graph.Searches (node :: stack) marked (node :: found) := by
  refine ⟨List.nodup_cons.2 ⟨fun hnode => ?_, h.nodup⟩, fun other hother => ?_,
    fun other hother => ?_, fun other hother => ?_, fun other hother next hedge => ?_⟩
  · rcases h.fresh node hnode with hmem | hnew
    · rcases List.mem_append.1 hmem with hmem | hmem
      · exact (hfresh node hmem).2 hmarked
      · exact (List.nodup_cons.1 hstack).1 hmem
    · exact hnew (List.mem_append_right _ hmarked)
  · rcases List.mem_cons.1 hother with rfl | hother
    · exact List.mem_cons_self
    · exact List.mem_cons_of_mem _ (h.covers other (List.mem_append_right _ hother))
  · rcases List.mem_cons.1 hother with rfl | hother
    · exact Or.inl List.mem_cons_self
    · have hor := h.fresh other hother
      have hnew := fun hmem => (hfresh other hmem).2
      simp only [List.mem_append, List.mem_cons] at hor ⊢
      tauto
  · rcases List.mem_cons.1 hother with rfl | hother
    · exact ⟨other, List.mem_cons_self, .refl⟩
    · obtain ⟨first, hfirst, hreaches⟩ := h.reached other hother
      rcases List.mem_append.1 hfirst with hfirst | hfirst
      · have hedge := hgraph.mem_successors_iff.1 (hfresh first hfirst).1
        exact ⟨node, List.mem_cons_self, .head hedge hreaches⟩
      · exact ⟨first, List.mem_cons_of_mem _ hfirst, hreaches⟩
  · have hkept : next ∈ fresh → next ∈ found :=
      fun hmem => h.covers next (List.mem_append_left _ hmem)
    rcases List.mem_cons.1 hother with rfl | hother
    · have hor := hcovers next (hgraph.mem_successors_iff.2 hedge)
      rw [List.mem_cons]
      tauto
    · have hor := h.successors other hother next hedge
      rw [List.mem_append] at hor
      rw [List.mem_cons]
      tauto

/-- **A search that marks nodes when it finds them finds the same nodes.**  There has to be room for
the nodes on the stack and for those that are not marked.

**Proof sketch.** Induction on the room.  Taking a node from the stack marks its unmarked successors
and puts them on the stack, so that the stack gets as many nodes more as there are unmarked nodes
less. -/
theorem dfsFrom_searches (hgraph : graph.Consistent) (hstack : stack.Nodup)
    (hmarked : ∀ node ∈ stack, node ∈ marked)
    (hroom : (graph.untouched marked).length + stack.length ≤ room) :
    graph.Searches stack marked (graph.dfsFrom room stack marked) := by
  induction room generalizing stack marked with
  | zero =>
    obtain rfl : stack = [] := List.length_eq_zero_iff.1 (by omega)
    exact searches_nil
  | succ room ih =>
    cases stack with
    | nil => exact searches_nil
    | cons node stack =>
      obtain ⟨fresh, heq, hnodup, hfresh, hcovers⟩ :=
        foldl_discover (graph.successors node).reverse stack marked
      simp only [List.mem_reverse] at hfresh hcovers
      have huntouched : ∀ next ∈ fresh, next ∈ graph.untouched marked := by
        intro next hnext
        have hedge := hgraph.mem_successors_iff.1 (hfresh next hnext).1
        exact mem_untouched.2 ⟨hgraph.target_lt hedge, (hfresh next hnext).2⟩
      have hleft := length_untouched_append hnodup huntouched
      have hmem : ∀ other ∈ fresh ++ stack, other ∈ fresh ++ marked := by
        intro other hother
        rcases List.mem_append.1 hother with hother | hother
        · exact List.mem_append_left _ hother
        · exact List.mem_append_right _ (hmarked other (List.mem_cons_of_mem _ hother))
      have hdistinct : (fresh ++ stack).Nodup := by
        refine List.nodup_append.2 ⟨hnodup, (List.nodup_cons.1 hstack).2, ?_⟩
        rintro other hother _ hstacked rfl
        exact (hfresh other hother).2 (hmarked other (List.mem_cons_of_mem _ hstacked))
      rw [dfsFrom, heq]
      refine .cons hgraph hstack (hmarked node List.mem_cons_self) hfresh hcovers
        (ih hdistinct hmem ?_)
      rw [List.length_cons] at hroom
      rw [List.length_append]
      omega

end Stack

/-! ## The traversals from a start -/

/-- An order lists each node that can be reached from a start once, and no other node. -/
def Lists (graph : Digraph N E) (start : NodeId) (order : List NodeId) : Prop :=
  order.Nodup ∧
    ∀ node, node ∈ order ↔ start.index < graph.nodeCount ∧ graph.Reaches start node

/-- No node that can be reached from a start lies on a cycle. -/
def AcyclicFrom (graph : Digraph N E) (start : NodeId) : Prop :=
  ∀ node, graph.Reaches start node → ¬ Relation.TransGen graph.HasEdge node node

/-- Without a start, there is nothing to list. -/
lemma lists_nil (hstart : ¬ start.index < graph.nodeCount) : graph.Lists start [] :=
  ⟨List.nodup_nil, fun _ => ⟨fun hmem => absurd hmem List.not_mem_nil, fun h => absurd h.1 hstart⟩⟩

/-- An order that holds the start, and with each node its successors, lists what can be reached. -/
lemma lists_of_closed {order : List NodeId} (hstart : start.index < graph.nodeCount)
    (hnodup : order.Nodup) (hmem : start ∈ order)
    (hreached : ∀ node ∈ order, graph.Reaches start node)
    (hclosed : ∀ node ∈ order, ∀ next, graph.HasEdge node next → next ∈ order) :
    graph.Lists start order := by
  refine ⟨hnodup, fun node => ⟨fun hnode => ⟨hstart, hreached node hnode⟩, ?_⟩⟩
  rintro ⟨-, hpath⟩
  induction hpath with
  | refl => exact hmem
  | tail _ hedge ih => exact hclosed _ ih _ hedge

/-- Post-order lists what can be reached. -/
lemma lists_postorder (hgraph : graph.Consistent) (start : NodeId) :
    graph.Lists start (graph.postorder start) := by
  by_cases hstart : start.index < graph.nodeCount
  · have h := explores_explore hgraph [] [start]
    rw [← postorder_eq_explore hgraph] at h
    refine lists_of_closed hstart h.nodup ?_ (fun node hnode => ?_) fun node hnode next hedge => ?_
    · exact (h.covers start (List.mem_singleton_self _) hstart).resolve_left List.not_mem_nil
    · obtain ⟨first, hfirst, hreaches⟩ := h.reached node hnode
      rwa [List.mem_singleton.1 hfirst] at hreaches
    · obtain ⟨before, behind, hsplit⟩ := List.append_of_mem hnode
      rcases h.successors before node behind hsplit next hedge with hnext | hnext | ⟨hnext, -⟩
      · exact hsplit ▸ List.mem_append_left _ hnext
      · exact absurd hnext List.not_mem_nil
      · exact hnext
  · rw [postorder, if_neg hstart]
    exact lists_nil hstart

/-- Depth-first order lists what can be reached. -/
lemma lists_dfs (hgraph : graph.Consistent) (start : NodeId) :
    graph.Lists start (graph.dfs start) := by
  unfold dfs
  split
  · next hstart =>
    have hroom : (graph.untouched [start]).length + 1 ≤ graph.nodeCount := by
      rw [length_untouched_cons (mem_untouched.2 ⟨hstart, List.not_mem_nil⟩)]
      exact length_untouched_le
    have h := dfsFrom_searches hgraph (List.nodup_singleton start) (fun _ hnode => hnode) hroom
    have hmem := h.covers start (List.mem_singleton_self _)
    refine lists_of_closed hstart h.nodup hmem ?_ fun node hnode next hedge => ?_
    · intro node hnode
      obtain ⟨first, hfirst, hreaches⟩ := h.reached node hnode
      rwa [List.mem_singleton.1 hfirst] at hreaches
    · rcases h.successors node hnode next hedge with hnext | hnext
      · rwa [List.mem_singleton.1 hnext]
      · exact hnext
  · next hstart => exact lists_nil hstart

/-- A path that leads to an edge starts at a node of the graph. -/
lemma Consistent.start_lt (hgraph : graph.Consistent) {source target : NodeId}
    (hpath : graph.Reaches start source) (hedge : graph.HasEdge source target) :
    start.index < graph.nodeCount := by
  rcases Relation.ReflTransGen.cases_head hpath with rfl | ⟨next, hfirst, -⟩
  · obtain ⟨arc, harc, rfl, -⟩ := hedge
    exact (hgraph.ends arc harc).1
  · obtain ⟨arc, harc, rfl, -⟩ := hfirst
    exact (hgraph.ends arc harc).1

/-- Where there is no cycle, the target of an edge is left before its source: otherwise the source
would be left on a way back to it. -/
lemma sublist_reversePostorder (hgraph : graph.Consistent) (hacyclic : graph.AcyclicFrom start)
    {source target : NodeId} (hpath : graph.Reaches start source)
    (hedge : graph.HasEdge source target) :
    [source, target].Sublist (graph.reversePostorder start) := by
  have hsource := ((lists_postorder hgraph start).2 source).2 ⟨hgraph.start_lt hpath hedge, hpath⟩
  obtain ⟨before, behind, hsplit⟩ := List.append_of_mem hsource
  have h := explores_explore hgraph [] [start]
  rw [← postorder_eq_explore hgraph] at h
  have htarget : target ∈ before := by
    rcases h.successors before source behind hsplit target hedge with hmem | hmem | ⟨-, hback⟩
    · exact hmem
    · exact absurd hmem List.not_mem_nil
    · exact absurd (Relation.TransGen.head' hedge hback) (hacyclic source hpath)
  rw [reversePostorder, ← List.reverse_sublist, List.reverse_reverse, hsplit]
  exact (List.singleton_sublist.2 htarget).append (List.singleton_sublist.2 List.mem_cons_self)

/-- **The traversals of every graph.**  The successors of a node come in the order in which their
edges were added.  Post-order is the recursive post-order that follows them in this order.  It lists
every node that can be reached from the start once and no other node, and so does depth-first order;
both are empty without a start.  Where there is no cycle, the reverse of post-order has the source
of every edge in front of its target. -/
theorem traversals_exact (hgraph : graph.Grown) (start : NodeId) :
    (∀ node, graph.successors node
      = (graph.arcs.toList.filter (·.source = node)).map (·.target)) ∧
    graph.postorder start = graph.explore [] [start] ∧
    graph.Lists start (graph.postorder start) ∧ graph.Lists start (graph.dfs start) ∧
    (graph.nodeCount ≤ start.index → graph.postorder start = [] ∧ graph.dfs start = []) ∧
    (graph.AcyclicFrom start → ∀ arc ∈ graph.arcs.toList, graph.Reaches start arc.source →
      [arc.source, arc.target].Sublist (graph.reversePostorder start)) := by
  have hconsistent := hgraph.consistent
  refine ⟨hconsistent.successors_eq, postorder_eq_explore hconsistent start,
    lists_postorder hconsistent start, lists_dfs hconsistent start, fun hstart => ?_,
    fun hacyclic arc harc hpath => ?_⟩
  · have hmissing : ¬ start.index < graph.nodeCount := Nat.not_lt.2 hstart
    exact ⟨if_neg hmissing, if_neg hmissing⟩
  · exact sublist_reversePostorder hconsistent hacyclic hpath ⟨arc, harc, rfl, rfl⟩

/-- The nodes `3` and `4` lie on a cycle, and `3` has an edge to itself.  They lead to a part
without a cycle, in which there are two edges from `0` to `2`. -/
def spiral : Digraph Unit Unit where
  nodes := #[(), (), (), (), ()]
  arcs := #[⟨⟨3⟩, ⟨3⟩, ()⟩, ⟨⟨3⟩, ⟨4⟩, ()⟩, ⟨⟨4⟩, ⟨3⟩, ()⟩, ⟨⟨4⟩, ⟨0⟩, ()⟩, ⟨⟨0⟩, ⟨2⟩, ()⟩,
    ⟨⟨0⟩, ⟨1⟩, ()⟩, ⟨⟨0⟩, ⟨2⟩, ()⟩, ⟨⟨1⟩, ⟨2⟩, ()⟩]
  leaving := #[[⟨4⟩, ⟨5⟩, ⟨6⟩], [⟨7⟩], [], [⟨0⟩, ⟨1⟩], [⟨2⟩, ⟨3⟩]]
  entering := #[[⟨3⟩], [⟨5⟩], [⟨4⟩, ⟨6⟩, ⟨7⟩], [⟨0⟩, ⟨2⟩], [⟨1⟩]]

/-- The spiral is grown from the empty graph. -/
lemma grown_spiral : spiral.Grown := by
  have hnodes : (ofNodes [(), (), (), (), ()] : Digraph Unit Unit).Grown := .ofNodes _
  have h0 := hnodes.addEdge (show Digraph.addEdge _ ⟨3⟩ ⟨3⟩ () = .ok (⟨0⟩, _) from rfl)
  have h1 := h0.addEdge (show Digraph.addEdge _ ⟨3⟩ ⟨4⟩ () = .ok (⟨1⟩, _) from rfl)
  have h2 := h1.addEdge (show Digraph.addEdge _ ⟨4⟩ ⟨3⟩ () = .ok (⟨2⟩, _) from rfl)
  have h3 := h2.addEdge (show Digraph.addEdge _ ⟨4⟩ ⟨0⟩ () = .ok (⟨3⟩, _) from rfl)
  have h4 := h3.addEdge (show Digraph.addEdge _ ⟨0⟩ ⟨2⟩ () = .ok (⟨4⟩, _) from rfl)
  have h5 := h4.addEdge (show Digraph.addEdge _ ⟨0⟩ ⟨1⟩ () = .ok (⟨5⟩, _) from rfl)
  have h6 := h5.addEdge (show Digraph.addEdge _ ⟨0⟩ ⟨2⟩ () = .ok (⟨6⟩, _) from rfl)
  exact h6.addEdge (show Digraph.addEdge _ ⟨1⟩ ⟨2⟩ () = .ok (⟨7⟩, spiral) from rfl)

/-- From `0`, edges lead to greater nodes. -/
lemma acyclicFrom_spiral : spiral.AcyclicFrom ⟨0⟩ := by
  have hless : ∀ {source target}, spiral.HasEdge source target → source.index < 3 →
      source.index < target.index ∧ target.index < 3 := by
    rintro _ _ ⟨arc, harc, rfl, rfl⟩
    revert arc
    decide
  intro node hpath
  have hnode : node.index < 3 := by
    induction hpath with
    | refl => decide
    | tail _ hedge ih => exact (hless hedge ih).2
  have hgreater : ∀ {target}, Relation.TransGen spiral.HasEdge node target →
      node.index < target.index ∧ target.index < 3 := by
    intro target hcycle
    induction hcycle with
    | single hedge => exact hless hedge hnode
    | tail _ hedge ih => exact ⟨ih.1.trans (hless hedge ih.2).1, (hless hedge ih.2).2⟩
  exact fun hcycle => Nat.lt_irrefl _ (hgreater hcycle).1

/-- On the spiral, both searches list what the start reaches, they list nothing from a node outside,
and the part without a cycle is listed in topological order. -/
theorem traversals_exact_spiral :
    spiral.postorder ⟨3⟩ = [⟨2⟩, ⟨1⟩, ⟨0⟩, ⟨4⟩, ⟨3⟩] ∧
    spiral.explore [] [⟨3⟩] = [⟨2⟩, ⟨1⟩, ⟨0⟩, ⟨4⟩, ⟨3⟩] ∧
    spiral.dfs ⟨3⟩ = [⟨3⟩, ⟨4⟩, ⟨0⟩, ⟨1⟩, ⟨2⟩] ∧ spiral.Reaches ⟨3⟩ ⟨2⟩ ∧
    (spiral.postorder ⟨7⟩ = [] ∧ spiral.dfs ⟨7⟩ = []) ∧
    spiral.reversePostorder ⟨0⟩ = [⟨0⟩, ⟨1⟩, ⟨2⟩] ∧
    [⟨1⟩, ⟨2⟩].Sublist (spiral.reversePostorder ⟨0⟩) := by
  obtain ⟨-, hpost, -, hdfs, -, -⟩ := traversals_exact grown_spiral ⟨3⟩
  obtain ⟨-, -, -, -, hempty, -⟩ := traversals_exact grown_spiral ⟨7⟩
  obtain ⟨-, -, -, -, -, horder⟩ := traversals_exact grown_spiral ⟨0⟩
  have hstart : spiral.HasEdge ⟨0⟩ ⟨1⟩ := ⟨⟨⟨0⟩, ⟨1⟩, ()⟩, by simp [spiral], rfl, rfl⟩
  refine ⟨by decide, hpost ▸ by decide, by decide, ((hdfs.2 ⟨2⟩).1 (by decide)).2,
    hempty (by decide), by decide, ?_⟩
  exact horder acyclicFrom_spiral ⟨⟨1⟩, ⟨2⟩, ()⟩ (by simp [spiral]) (.single hstart)

end KeyedVM.Digraph
