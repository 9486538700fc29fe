import KeyedVM.Proofs.Digraph.Traversal
import Mathlib.Data.List.Dedup

set_option relaxedAutoImplicit false
set_option autoImplicit false

/-!
# Depth-first order and recursive pre-order

The recursive search lists a node when it enters it.  Depth-first order with a stack marks a node as
soon as it finds an edge to it, and so the two orders differ: where several edges that were found
lead to a node that has not been visited, the recursion visits the node when it comes to the edge
that was found last, and the stack keeps the place of the edge that was found first.

Both orders are described by what comes next.  Behind the nodes that were visited, the ends of their
other edges are pending.  The recursion goes on with the first of these nodes, and the stack with
the first one that is not pending a second time further behind.

## Main definitions

* `KeyedVM.Digraph.preorder` — the recursive search, with nodes listed when they are entered;
* `KeyedVM.Digraph.pending` — the nodes that are pending behind others.

## Main results

* `KeyedVM.Digraph.head?_pending_of_preorder` — what comes next in recursive pre-order;
* `KeyedVM.Digraph.head?_dedup_pending_of_dfs` — what comes next in depth-first order;
* `KeyedVM.Digraph.dfs_eq_preorder_iff` — when the two orders are the same;
* `KeyedVM.Digraph.dfs_overtakes` — they are not the same on every graph.
-/

namespace KeyedVM.Digraph

variable {N E : Type} {graph : Digraph N E} {node start : NodeId}
  {entered entered' nodes visited before after : List NodeId}

/-- The recursive search, as in `KeyedVM.Digraph.explore`, with the nodes listed in the order in
which they are entered. -/
def preorder (graph : Digraph N E) (entered : List NodeId) : List NodeId → List NodeId
  | [] => []
  | node :: rest =>
    if node ∈ graph.untouched entered then
      let below := graph.preorder (node :: entered) (graph.successors node)
      node :: (below ++ graph.preorder (below ++ node :: entered) rest)
    else graph.preorder entered rest
termination_by nodes => ((graph.untouched entered).length, nodes.length)
decreasing_by
  · exact Prod.Lex.left _ _ (length_untouched_lt ‹_› List.mem_cons_self fun _ =>
      List.mem_cons_of_mem _)
  · exact Prod.Lex.left _ _ (length_untouched_lt ‹_› (List.mem_append_right _ List.mem_cons_self)
      fun _ hmem => List.mem_append_right _ (List.mem_cons_of_mem _ hmem))
  · exact Prod.Lex.right _ (Nat.lt_succ_self _)

/-- The nodes that are pending when a search through `nodes`, which has entered others before, has
visited some nodes: the successors of the node that was visited last, then those of the node before
it, and so on, and at last the nodes that the search was given, less those that were entered before
or visited. -/
def pending (graph : Digraph N E) (entered nodes visited : List NodeId) : List NodeId :=
  (visited.reverse.flatMap graph.successors ++ nodes).filter (· ∉ visited ++ entered)

/-! ## Pending nodes -/

/-- A node is pending exactly if it follows a visited one or was given to the search, and was
neither entered before nor visited. -/
lemma mem_pending : node ∈ graph.pending entered nodes visited ↔
    ((∃ source ∈ visited, node ∈ graph.successors source) ∨ node ∈ nodes) ∧
      node ∉ visited ++ entered := by
  simp [pending, or_and_right]

/-- The order in which nodes were entered does not matter. -/
lemma pending_congr (h : ∀ node, node ∈ entered ↔ node ∈ entered') (nodes visited : List NodeId) :
    graph.pending entered nodes visited = graph.pending entered' nodes visited := by
  refine List.filter_congr fun node _ => ?_
  simp only [List.mem_append, h]

/-- Nodes that were entered before are not pending. -/
lemma pending_cons_of_mem (hnode : node ∈ entered) :
    graph.pending entered (node :: nodes) visited = graph.pending entered nodes visited := by
  rw [pending, pending, List.filter_append, List.filter_cons_of_neg, List.filter_append]
  simp [hnode]

/-- Below the first node, its successors are the nodes that the search is given, and the other nodes
come behind them. -/
lemma pending_below (graph : Digraph N E) (entered nodes visited : List NodeId) (node : NodeId) :
    graph.pending entered (node :: nodes) (node :: visited)
      = graph.pending (node :: entered) (graph.successors node) visited
        ++ nodes.filter (· ∉ visited ++ node :: entered) := by
  have hsame : ∀ other, other ∉ node :: visited ++ entered ↔ other ∉ visited ++ node :: entered :=
    fun _ => not_congr List.perm_middle.symm.mem_iff
  rw [pending, pending, List.reverse_cons, List.flatMap_append, List.flatMap_singleton]
  simp only [hsame]
  rw [List.filter_append, List.filter_cons_of_neg (by simp)]

/-- Behind nodes all of whose successors were entered or visited, the search goes on as if all of
them had been entered before. -/
lemma pending_append {front : List NodeId}
    (hclosed : ∀ source ∈ front, ∀ next ∈ graph.successors source, next ∈ front ++ entered) :
    graph.pending entered nodes (front ++ visited)
      = graph.pending (front ++ entered) nodes visited := by
  have hsame : ∀ other,
      other ∉ front ++ visited ++ entered ↔ other ∉ visited ++ (front ++ entered) :=
    fun other => not_congr (by simp only [List.mem_append]; tauto)
  have hdone : (front.reverse.flatMap graph.successors).filter
      (fun other => other ∉ visited ++ (front ++ entered)) = [] := by
    rw [List.filter_eq_nil_iff]
    intro next hnext
    obtain ⟨source, hsource, hnext⟩ := List.mem_flatMap.1 hnext
    have hmem := hclosed source (List.mem_reverse.1 hsource) next hnext
    simpa using fun _ hnew => (List.mem_append.1 hmem).resolve_left hnew
  rw [pending, pending, List.reverse_append, List.flatMap_append]
  simp only [hsame]
  rw [List.filter_append, List.filter_append, hdone, List.append_nil, List.filter_append]

/-! ## Recursive pre-order -/

/-- The recursive search visits the nodes that it is given and all successors of what it visits,
unless it has entered them before. -/
lemma preorder_covers (hgraph : graph.Consistent) (entered nodes : List NodeId) :
    (∀ node ∈ nodes, node.index < graph.nodeCount →
      node ∈ entered ∨ node ∈ graph.preorder entered nodes) ∧
    ∀ node ∈ graph.preorder entered nodes, ∀ next ∈ graph.successors node,
      next ∈ entered ∨ next ∈ graph.preorder entered nodes := by
  fun_induction preorder graph entered nodes with
  | case1 entered => simp
  | case2 entered node rest hnode below ihbelow ihrest =>
    have hlt : ∀ next ∈ graph.successors node, next.index < graph.nodeCount :=
      fun next hnext => hgraph.target_lt (hgraph.mem_successors_iff.1 hnext)
    constructor
    · intro other hother hindex
      rcases List.mem_cons.1 hother with rfl | hother
      · exact Or.inr List.mem_cons_self
      · have hor := ihrest.1 other hother hindex
        simp only [List.mem_append, List.mem_cons] at hor ⊢
        tauto
    · intro other hother next hnext
      simp only [List.mem_append, List.mem_cons] at hother ⊢
      rcases hother with rfl | hother | hother
      · have hor := ihbelow.1 next hnext (hlt next hnext)
        rw [List.mem_cons] at hor
        tauto
      · have hor := ihbelow.2 other hother next hnext
        rw [List.mem_cons] at hor
        tauto
      · have hor := ihrest.2 other hother next hnext
        simp only [List.mem_append, List.mem_cons] at hor
        tauto
  | case3 entered node rest hnode ih =>
    refine ⟨fun other hother hindex => ?_, ih.2⟩
    rcases List.mem_cons.1 hother with rfl | hother
    · exact Or.inl (not_not.1 fun hnew => hnode (mem_untouched.2 ⟨hindex, hnew⟩))
    · exact ih.1 other hother hindex

/-- What is below a node in the recursion holds all successors of the node and of its own members,
unless they were entered before. -/
lemma mem_of_successor_below (hgraph : graph.Consistent) {first other next : NodeId}
    (hother : other ∈ graph.preorder (first :: entered) (graph.successors first) ∨ other = first)
    (hnext : next ∈ graph.successors other) : next ∈ first :: entered ∨
      next ∈ graph.preorder (first :: entered) (graph.successors first) := by
  obtain ⟨hgiven, hfound⟩ := preorder_covers hgraph (first :: entered) (graph.successors first)
  rcases hother with hother | rfl
  · exact hfound other hother next hnext
  · exact hgiven next hnext (hgraph.target_lt (hgraph.mem_successors_iff.1 hnext))

/-- A member of a row that is put together from two rows belongs to the first or to the second. -/
lemma append_eq_append_cons {α : Type} {front back before behind : List α} {member : α}
    (h : front ++ back = before ++ member :: behind) :
    (∃ later, front = before ++ member :: later) ∨
      ∃ earlier, before = front ++ earlier ∧ back = earlier ++ member :: behind := by
  rcases List.append_eq_append_iff.1 h with ⟨between, rfl, hback⟩ | ⟨between, rfl, hmember⟩
  · exact Or.inr ⟨between, rfl, hback⟩
  · rcases List.cons_eq_append_iff.1 hmember with ⟨rfl, rfl⟩ | ⟨later, rfl, -⟩
    · exact Or.inr ⟨[], by simp, rfl⟩
    · exact Or.inl ⟨later, rfl⟩

/-- What comes next in a recursive search is the first node that is pending.

**Proof sketch.** Induction along the recursion.  Below a new node, its successors are the nodes
that the search is given.  Behind that part, all successors of what was listed have been entered. -/
lemma head?_pending (hgraph : graph.Consistent) (entered nodes : List NodeId)
    (hnodes : ∀ node ∈ nodes, node.index < graph.nodeCount)
    (h : graph.preorder entered nodes = before ++ node :: after) :
    (graph.pending entered nodes before).head? = some node := by
  fun_induction preorder graph entered nodes generalizing before after with
  | case1 entered => simp at h
  | case2 entered first rest hfirst below ihbelow =>
    rename_i ihrest
    cases before with
    | nil =>
      obtain rfl : first = node := (List.cons.inj h).1
      have hnew := (mem_untouched.1 hfirst).2
      simp [pending, hnew]
    | cons other before =>
      obtain ⟨rfl, hsplit⟩ : first = other ∧
          below ++ graph.preorder (below ++ first :: entered) rest = before ++ node :: after :=
        List.cons.inj h
      rcases append_eq_append_cons hsplit with ⟨later, hbelow⟩ | ⟨earlier, rfl, hrest⟩
      · have ih := ihbelow (fun next hnext =>
          hgraph.target_lt (hgraph.mem_successors_iff.1 hnext)) hbelow
        rw [pending_below, List.head?_append, ih, Option.some_or]
      · have ih := ihrest (fun other hother => hnodes other (List.mem_cons_of_mem _ hother)) hrest
        have hclosed : ∀ source ∈ first :: below, ∀ next ∈ graph.successors source,
            next ∈ first :: below ++ entered := by
          intro source hsource next hnext
          have hor := mem_of_successor_below hgraph (List.mem_cons.1 hsource).symm hnext
          simp only [List.mem_append, List.mem_cons] at hor ⊢
          tauto
        have hsame : ∀ other,
            other ∈ first :: below ++ entered ↔ other ∈ below ++ first :: entered :=
          fun _ => List.perm_middle.symm.mem_iff
        rw [← List.cons_append, pending_append hclosed, pending_cons_of_mem (by simp),
          pending_congr hsame]
        exact ih
  | case3 entered first rest hfirst ih =>
    have hentered : first ∈ entered := not_not.1 fun hnew =>
      hfirst (mem_untouched.2 ⟨hnodes first List.mem_cons_self, hnew⟩)
    rw [pending_cons_of_mem hentered]
    exact ih (fun other hother => hnodes other (List.mem_cons_of_mem _ hother)) h

/-- **What comes next in recursive pre-order** is the first node that is pending. -/
theorem head?_pending_of_preorder (hgraph : graph.Consistent)
    (h : graph.preorder [] [start] = before ++ node :: after) :
    (graph.pending [] [start] before).head? = some node := by
  refine head?_pending hgraph [] [start] ?_ h
  rintro _ (_ | ⟨_, ⟨⟩⟩)
  by_contra hmissing
  rw [preorder, if_neg fun hmem => hmissing (mem_untouched.1 hmem).1, preorder] at h
  exact absurd h.symm (by simp)

/-! ## Depth-first order -/

/-- Dropping members of a list commutes with dropping repetitions. -/
lemma dedup_filter {α : Type} [DecidableEq α] (p : α → Bool) (l : List α) :
    (l.filter p).dedup = l.dedup.filter p := by
  induction l with
  | nil => rfl
  | cons a l ih =>
    by_cases ha : a ∈ l <;> by_cases hp : p a = true <;>
      simp [ha, hp, ih]

/-- Visiting one more node puts its new successors in front of what is pending. -/
lemma pending_concat (graph : Digraph N E) (entered nodes visited : List NodeId) (node : NodeId) :
    graph.pending entered nodes (visited ++ [node])
      = (graph.successors node).filter (· ∉ visited ++ [node] ++ entered)
        ++ (graph.pending entered nodes visited).filter (· ≠ node) := by
  have hsame : ∀ other, other ∉ visited ++ [node] ++ entered ↔
      other ≠ node ∧ other ∉ visited ++ entered := by
    intro other
    simp only [List.mem_append, List.mem_singleton]
    tauto
  rw [pending, pending, List.reverse_append, List.reverse_singleton, List.singleton_append,
    List.flatMap_cons, List.append_assoc (graph.successors node), List.filter_append,
    List.filter_filter]
  congr 1
  refine List.filter_congr fun other _ => ?_
  rw [← Bool.decide_and, decide_eq_decide, hsame]

/-- The nodes of a list are put on the stack in their order, as far as they are new, each at the
last place at which it occurs. -/
lemma foldl_discover_reverse {stack marked : List NodeId} (nodes seen : List NodeId)
    (hmarked : ∀ node, node ∈ marked ↔ node ∈ seen ∨ node ∈ stack) :
    (nodes.reverse.foldl discover (stack, marked)).1 = nodes.filter (· ∉ seen) ∪ stack ∧
      ∀ node, node ∈ (nodes.reverse.foldl discover (stack, marked)).2 ↔
        node ∈ seen ∨ node ∈ nodes.filter (· ∉ seen) ∪ stack := by
  rw [List.foldl_reverse]
  induction nodes with
  | nil => exact ⟨rfl, hmarked⟩
  | cons node nodes ih =>
    obtain ⟨hstack, hmem⟩ := ih
    rw [List.foldr_cons]
    generalize nodes.foldr (fun node found => discover found node) (stack, marked) = found
      at hstack hmem ⊢
    by_cases hseen : node ∈ seen
    · rw [discover, if_pos ((hmem node).2 (Or.inl hseen)), List.filter_cons_of_neg (by simpa)]
      exact ⟨hstack, hmem⟩
    · rw [List.filter_cons_of_pos (by simpa), List.cons_union]
      by_cases hnode : node ∈ nodes.filter (· ∉ seen) ∪ stack
      · rw [discover, if_pos ((hmem node).2 (Or.inr hnode)), List.insert_of_mem hnode]
        exact ⟨hstack, hmem⟩
      · rw [discover, if_neg (by rw [hmem]; tauto), List.insert_of_not_mem hnode, hstack]
        refine ⟨rfl, fun other => ?_⟩
        rw [List.mem_cons, List.mem_cons, hmem]
        tauto

/-- What comes next when nodes are taken from a stack that holds the pending nodes, each at the last
place at which it is pending.

**Proof sketch.** Induction on the room.  Taking a node puts its new successors on the stack, and
they are pending in front of all others. -/
lemma head?_dedup_pending {room : Nat} {stack marked : List NodeId}
    (hstack : stack = (graph.pending [] [start] visited).dedup)
    (hmarked : ∀ node, node ∈ marked ↔ node ∈ visited ∨ node ∈ stack)
    (h : graph.dfsFrom room stack marked = before ++ node :: after) :
    (graph.pending [] [start] (visited ++ before)).dedup.head? = some node := by
  induction room generalizing stack marked visited before with
  | zero => simp [dfsFrom] at h
  | succ room ih =>
    cases stack with
    | nil => simp [dfsFrom] at h
    | cons first rest =>
      have hrest : first ∉ rest := by
        have hnodup := List.nodup_dedup (graph.pending [] [start] visited)
        rw [← hstack] at hnodup
        exact (List.nodup_cons.1 hnodup).1
      have hpending : (graph.pending [] [start] (visited ++ [first])).dedup
          = (graph.successors first).filter (· ∉ visited ++ [first]) ∪ rest := by
        have hkept : (first :: rest).filter (· ≠ first) = rest := by
          rw [List.filter_cons_of_neg (by simp), List.filter_eq_self]
          intro other hother
          simpa using fun heq : other = first => hrest (heq ▸ hother)
        rw [pending_concat, List.append_nil, List.dedup_append, dedup_filter, ← hstack, hkept]
      have hseen : ∀ node, node ∈ marked ↔ node ∈ visited ++ [first] ∨ node ∈ rest := by
        intro node
        rw [hmarked, List.mem_append, List.mem_cons, List.mem_singleton, or_assoc]
      obtain ⟨hfound, hmarks⟩ :=
        foldl_discover_reverse (graph.successors first) (visited ++ [first]) hseen
      rw [dfsFrom] at h
      cases before with
      | nil =>
        obtain rfl : first = node := (List.cons.inj h).1
        rw [List.append_nil, ← hstack, List.head?_cons]
      | cons other before =>
        obtain ⟨rfl, hsplit⟩ := List.cons.inj h
        rw [← hfound] at hpending hmarks
        have hnext := ih hpending.symm hmarks hsplit
        rwa [List.append_assoc, List.singleton_append] at hnext

/-- **What comes next in depth-first order** is the first pending node that is not pending a second
time further behind. -/
theorem head?_dedup_pending_of_dfs (h : graph.dfs start = before ++ node :: after) :
    (graph.pending [] [start] before).dedup.head? = some node := by
  unfold dfs at h
  split at h
  · have hstack : [start] = (graph.pending [] [start] []).dedup := rfl
    exact head?_dedup_pending hstack (by simp) h
  · exact absurd h.symm (by simp)

/-! ## Comparing the orders -/

/-- Nothing is pending behind an order that holds the start, and with each node its successors. -/
lemma pending_eq_nil {order : List NodeId} (hstart : start ∈ order)
    (hclosed : ∀ source ∈ order, ∀ next ∈ graph.successors source, next ∈ order) :
    graph.pending [] [start] order = [] := by
  rw [List.eq_nil_iff_forall_not_mem]
  intro node hnode
  obtain ⟨hsource, hnew⟩ := mem_pending.1 hnode
  rw [List.append_nil] at hnew
  rcases hsource with ⟨source, hsource, hnext⟩ | hnode
  · exact hnew (hclosed source hsource node hnext)
  · exact hnew (List.mem_singleton.1 hnode ▸ hstart)

/-- Nothing is pending behind the whole depth-first order. -/
lemma pending_dfs (hgraph : graph.Consistent) (hstart : start.index < graph.nodeCount) :
    graph.pending [] [start] (graph.dfs start) = [] := by
  have hlists := (lists_dfs hgraph start).2
  refine pending_eq_nil ((hlists start).2 ⟨hstart, .refl⟩) fun source hsource next hnext => ?_
  have hpath := ((hlists source).1 hsource).2
  exact (hlists next).2 ⟨hstart, hpath.tail (hgraph.mem_successors_iff.1 hnext)⟩

/-- Nothing is pending behind the whole recursive pre-order. -/
lemma pending_preorder (hgraph : graph.Consistent) (hstart : start.index < graph.nodeCount) :
    graph.pending [] [start] (graph.preorder [] [start]) = [] := by
  obtain ⟨hgiven, hfound⟩ := preorder_covers hgraph [] [start]
  have hmem := (hgiven start (List.mem_singleton_self _) hstart).resolve_left List.not_mem_nil
  exact pending_eq_nil hmem fun source hsource next hnext =>
    (hfound source hsource next hnext).resolve_left List.not_mem_nil

/-- Two orders with the same rule for what comes next are the same. -/
lemma eq_of_next {α : Type} {next? : List α → Option α} {first second : List α}
    (hfirst : ∀ before member behind, first = before ++ member :: behind →
      next? before = some member) (hfirstEnd : next? first = none)
    (hsecond : ∀ before member behind, second = before ++ member :: behind →
      next? before = some member) (hsecondEnd : next? second = none) : first = second := by
  suffices h : ∀ back front back', first = front ++ back → second = front ++ back' →
      back = back' from h first [] second rfl rfl
  intro back
  induction back with
  | nil =>
    rintro front back' rfl hback'
    cases back' with
    | nil => rfl
    | cons member behind =>
      have hnext := hsecond _ _ _ hback'
      rw [List.append_nil] at hfirstEnd
      exact absurd (hnext.symm.trans hfirstEnd) (Option.some_ne_none _)
  | cons member behind ih =>
    intro front back' hback hback'
    have hnext := hfirst _ _ _ hback
    cases back' with
    | nil =>
      rw [List.append_nil] at hback'
      rw [← hback', hsecondEnd] at hnext
      exact absurd hnext.symm (Option.some_ne_none _)
    | cons member' behind' =>
      obtain rfl : member = member' :=
        Option.some.inj (hnext.symm.trans (hsecond _ _ _ hback'))
      rw [ih (front ++ [member]) behind' (by simpa using hback) (by simpa using hback')]

/-- Depth-first order is the recursive pre-order if it always takes the first pending node. -/
lemma dfs_eq_of_next (hgraph : graph.Consistent)
    (h : ∀ before node after, graph.dfs start = before ++ node :: after →
      (graph.pending [] [start] before).head? = some node) :
    graph.dfs start = graph.preorder [] [start] := by
  by_cases hstart : start.index < graph.nodeCount
  · refine eq_of_next h ?_ (fun _ _ _ => head?_pending_of_preorder hgraph) ?_
    · rw [pending_dfs hgraph hstart, List.head?_nil]
    · rw [pending_preorder hgraph hstart, List.head?_nil]
  · rw [dfs, if_neg hstart, preorder, if_neg fun hmem => hstart (mem_untouched.1 hmem).1, preorder]

/-- No two edges that can be reached from a start lead to the same node. -/
def SimpleFrom (graph : Digraph N E) (start : NodeId) : Prop :=
  graph.arcs.toList.Pairwise fun arc other =>
    graph.Reaches start arc.source → graph.Reaches start other.source → arc.target ≠ other.target

/-- Where no two edges lead to the same node, different edges have different ends. -/
lemma SimpleFrom.nodup_flatMap (hgraph : graph.Consistent) (hsimple : graph.SimpleFrom start)
    (hnodup : visited.Nodup) (hreached : ∀ node ∈ visited, graph.Reaches start node) :
    (visited.flatMap graph.successors).Nodup := by
  refine List.nodup_flatMap.2 ⟨fun source hsource => ?_, ?_⟩
  · rw [hgraph.successors_eq]
    refine List.pairwise_map.2 ((hsimple.filter _).imp_of_mem fun {arc other} harc hother h => ?_)
    have hsource' : arc.source = source := of_decide_eq_true (List.mem_filter.1 harc).2
    have hsource'' : other.source = source := of_decide_eq_true (List.mem_filter.1 hother).2
    exact h (hsource' ▸ hreached source hsource) (hsource'' ▸ hreached source hsource)
  · refine hnodup.imp_of_mem fun {first second} hfirst hsecond hne => ?_
    intro node hnode hnode'
    obtain ⟨arc, harc, rfl, rfl⟩ := hgraph.mem_successors_iff.1 hnode
    obtain ⟨other, hother, rfl, htarget⟩ := hgraph.mem_successors_iff.1 hnode'
    have hsymm : Std.Symm fun arc other : Arc E => graph.Reaches start arc.source →
        graph.Reaches start other.source → arc.target ≠ other.target :=
      ⟨fun _ _ h hother harc => (h harc hother).symm⟩
    have hdiffer := hsimple.forall harc hother fun heq => hne (congrArg Arc.source heq)
    exact hdiffer (hreached _ hfirst) (hreached _ hsecond) htarget.symm

/-- Where no two edges lead to the same node, no node is pending twice. -/
lemma SimpleFrom.nodup_pending (hgraph : graph.Consistent) (hsimple : graph.SimpleFrom start)
    (hnodup : visited.Nodup) (hreached : ∀ node ∈ visited, graph.Reaches start node)
    (hstart : start ∈ visited) : (graph.pending [] [start] visited).Nodup := by
  have hrow := hsimple.nodup_flatMap hgraph (List.nodup_reverse.2 hnodup)
    fun node hnode => hreached node (List.mem_reverse.1 hnode)
  rw [pending, List.filter_append, List.filter_cons_of_neg (by simpa), List.filter_nil,
    List.append_nil]
  exact hrow.filter _

/-- Where no two edges lead to the same node, depth-first order takes the first pending node. -/
lemma SimpleFrom.head?_pending (hgraph : graph.Consistent) (hsimple : graph.SimpleFrom start)
    (h : graph.dfs start = before ++ node :: after) :
    (graph.pending [] [start] before).head? = some node := by
  have hnext := head?_dedup_pending_of_dfs h
  cases before with
  | nil => exact hnext
  | cons first before =>
    have hfirst : (graph.pending [] [start] []).dedup.head? = some first :=
      head?_dedup_pending_of_dfs h
    obtain rfl : start = first := Option.some.inj hfirst
    obtain ⟨hnodup, hlists⟩ := lists_dfs hgraph start
    rw [h] at hnodup hlists
    have hreached : ∀ node ∈ start :: before, graph.Reaches start node := fun node hnode =>
      ((hlists node).1 (List.mem_append_left _ hnode)).2
    rwa [List.dedup_eq_self.2 (hsimple.nodup_pending hgraph (List.nodup_append.1 hnodup).1
      hreached List.mem_cons_self)] at hnext

/-- **When depth-first order is the recursive pre-order.**  Behind the nodes that were visited, the
recursion goes on with the first pending node.  Depth-first order goes on with the first one that is
not pending a second time further behind.  So it is the recursive pre-order exactly if the node that
it takes is always the first pending one, which is so where no two edges lead to the same node. -/
theorem dfs_eq_preorder_iff (hgraph : graph.Grown) (start : NodeId) :
    (∀ before node after, graph.preorder [] [start] = before ++ node :: after →
      (graph.pending [] [start] before).head? = some node) ∧
    (∀ before node after, graph.dfs start = before ++ node :: after →
      (graph.pending [] [start] before).dedup.head? = some node) ∧
    (graph.dfs start = graph.preorder [] [start] ↔
      ∀ before node after, graph.dfs start = before ++ node :: after →
        (graph.pending [] [start] before).head? = some node) ∧
    (graph.SimpleFrom start → graph.dfs start = graph.preorder [] [start]) := by
  have hconsistent := hgraph.consistent
  refine ⟨fun _ _ _ => head?_pending_of_preorder hconsistent,
    fun _ _ _ => head?_dedup_pending_of_dfs, ⟨fun heq before node after hsplit => ?_,
      dfs_eq_of_next hconsistent⟩, fun hsimple => ?_⟩
  · exact head?_pending_of_preorder hconsistent (heq ▸ hsplit)
  · exact dfs_eq_of_next hconsistent fun _ _ _ => hsimple.head?_pending hconsistent

/-- A tree: edges lead from `0` to `1` and `2`, and from `1` to `3`. -/
def bough : Digraph Unit Unit where
  nodes := #[(), (), (), ()]
  arcs := #[⟨⟨0⟩, ⟨1⟩, ()⟩, ⟨⟨0⟩, ⟨2⟩, ()⟩, ⟨⟨1⟩, ⟨3⟩, ()⟩]
  leaving := #[[⟨0⟩, ⟨1⟩], [⟨2⟩], [], []]
  entering := #[[], [⟨0⟩], [⟨1⟩], [⟨2⟩]]

/-- The bough is grown from the empty graph. -/
lemma grown_bough : bough.Grown := by
  have hnodes : (ofNodes [(), (), (), ()] : Digraph Unit Unit).Grown := .ofNodes _
  have h0 := hnodes.addEdge (show Digraph.addEdge _ ⟨0⟩ ⟨1⟩ () = .ok (⟨0⟩, _) from rfl)
  have h1 := h0.addEdge (show Digraph.addEdge _ ⟨0⟩ ⟨2⟩ () = .ok (⟨1⟩, _) from rfl)
  exact h1.addEdge (show Digraph.addEdge _ ⟨1⟩ ⟨3⟩ () = .ok (⟨2⟩, bough) from rfl)

/-- On the bough, the search lists the nodes in pre-order, and what it visits next is the first
pending node. -/
theorem dfs_eq_preorder_iff_bough : bough.Grown ∧ bough.SimpleFrom ⟨0⟩ ∧
    bough.dfs ⟨0⟩ = [⟨0⟩, ⟨1⟩, ⟨3⟩, ⟨2⟩] ∧ bough.preorder [] [⟨0⟩] = [⟨0⟩, ⟨1⟩, ⟨3⟩, ⟨2⟩] ∧
    (bough.pending [] [⟨0⟩] [⟨0⟩, ⟨1⟩]).dedup.head? = some ⟨3⟩ := by
  obtain ⟨-, hnext, -, hsame⟩ := dfs_eq_preorder_iff grown_bough ⟨0⟩
  have hsimple : bough.SimpleFrom ⟨0⟩ := by
    have htargets : bough.arcs.toList.Pairwise fun arc other => arc.target ≠ other.target := by
      decide
    exact htargets.imp fun hne _ _ => hne
  exact ⟨grown_bough, hsimple, by decide, hsame hsimple ▸ by decide,
    hnext [⟨0⟩, ⟨1⟩] ⟨3⟩ [⟨2⟩] (by decide)⟩

/-- Edges lead from `0` to `1`, `2` and `3`, and from `1` to `3`. -/
def shortcut : Digraph Unit Unit where
  nodes := #[(), (), (), ()]
  arcs := #[⟨⟨0⟩, ⟨1⟩, ()⟩, ⟨⟨0⟩, ⟨2⟩, ()⟩, ⟨⟨0⟩, ⟨3⟩, ()⟩, ⟨⟨1⟩, ⟨3⟩, ()⟩]
  leaving := #[[⟨0⟩, ⟨1⟩, ⟨2⟩], [⟨3⟩], [], []]
  entering := #[[], [⟨0⟩], [⟨1⟩], [⟨2⟩, ⟨3⟩]]

/-- The graph with the shortcut is grown from the empty graph. -/
lemma grown_shortcut : shortcut.Grown := by
  have hnodes : (ofNodes [(), (), (), ()] : Digraph Unit Unit).Grown := .ofNodes _
  have h0 := hnodes.addEdge (show Digraph.addEdge _ ⟨0⟩ ⟨1⟩ () = .ok (⟨0⟩, _) from rfl)
  have h1 := h0.addEdge (show Digraph.addEdge _ ⟨0⟩ ⟨2⟩ () = .ok (⟨1⟩, _) from rfl)
  have h2 := h1.addEdge (show Digraph.addEdge _ ⟨0⟩ ⟨3⟩ () = .ok (⟨2⟩, _) from rfl)
  exact h2.addEdge (show Digraph.addEdge _ ⟨1⟩ ⟨3⟩ () = .ok (⟨3⟩, shortcut) from rfl)

/-- In the graph with the shortcut, pre-order goes through `1` to `3`. -/
lemma preorder_shortcut : shortcut.preorder [] [⟨0⟩] = [⟨0⟩, ⟨1⟩, ⟨3⟩, ⟨2⟩] := by
  have hcount : shortcut.nodeCount = 4 := rfl
  have h0 : shortcut.successors ⟨0⟩ = [⟨1⟩, ⟨2⟩, ⟨3⟩] := rfl
  have h1 : shortcut.successors ⟨1⟩ = [⟨3⟩] := rfl
  have h2 : shortcut.successors ⟨2⟩ = [] := rfl
  have h3 : shortcut.successors ⟨3⟩ = [] := rfl
  simp [preorder, mem_untouched, hcount, h0, h1, h2, h3]

/-- In the spiral, pre-order goes round the cycle before it enters the part without one. -/
lemma preorder_spiral : spiral.preorder [] [⟨3⟩] = [⟨3⟩, ⟨4⟩, ⟨0⟩, ⟨2⟩, ⟨1⟩] := by
  have hcount : spiral.nodeCount = 5 := rfl
  have h0 : spiral.successors ⟨0⟩ = [⟨2⟩, ⟨1⟩, ⟨2⟩] := rfl
  have h1 : spiral.successors ⟨1⟩ = [⟨2⟩] := rfl
  have h2 : spiral.successors ⟨2⟩ = [] := rfl
  have h3 : spiral.successors ⟨3⟩ = [⟨3⟩, ⟨4⟩] := rfl
  have h4 : spiral.successors ⟨4⟩ = [⟨3⟩, ⟨0⟩] := rfl
  simp [preorder, mem_untouched, hcount, h0, h1, h2, h3, h4]

/-- **Depth-first order is not the recursive pre-order of every graph.**  From `0` the recursion
reaches `3` through `1`, but `3` was marked on the way and waits behind `2`.  In the other graph the
second edge from `0` to `2` moves `2` behind `1`. -/
theorem dfs_overtakes :
    (shortcut.Grown ∧ shortcut.dfs ⟨0⟩ = [⟨0⟩, ⟨1⟩, ⟨2⟩, ⟨3⟩] ∧
      shortcut.preorder [] [⟨0⟩] = [⟨0⟩, ⟨1⟩, ⟨3⟩, ⟨2⟩]) ∧
    spiral.Grown ∧ spiral.dfs ⟨3⟩ = [⟨3⟩, ⟨4⟩, ⟨0⟩, ⟨1⟩, ⟨2⟩] ∧
      spiral.preorder [] [⟨3⟩] = [⟨3⟩, ⟨4⟩, ⟨0⟩, ⟨2⟩, ⟨1⟩] :=
  ⟨⟨grown_shortcut, by decide, preorder_shortcut⟩, grown_spiral, by decide, preorder_spiral⟩

end KeyedVM.Digraph
