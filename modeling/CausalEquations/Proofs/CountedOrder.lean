import CausalEquations.Proofs.Reachability
import CausalEquations.Proofs.Tables
import Mathlib.Data.List.Nodup

/-!
# Causal order by counting

Whether a child is ready when one of its parents leaves the queue need not be found out by going
through its other parents: it is enough to keep, for every node, the number of its parents that are
still missing. Each parent counts once, however often it is listed. Counting gives the same queue at
every moment, hence the same order.

* `Graph.countedOrder` — the order found by counting missing parents.
* `Graph.CountsMissing` — the invariant of the counters.
* `Graph.countedOrder_eq` — the two ways to find the order agree.
* `Graph.order_sorts` — a graph has no order exactly if it has a cycle; otherwise the order lists
  every node once, parents before children.
-/

namespace CausalEquations

namespace Graph

open Relation

/-! ## Counters -/

/-- The children of a node, in the order of their entries. -/
def childrenOf (g : Graph) (node : Name) : List Name :=
  (g.entries.filter fun e => e.2.contains node).map Prod.fst

/-- How many different parents every node has. -/
def parentCounts (g : Graph) : Table ℕ :=
  Table.ofList (g.nodes.map fun node => (node, (g.neighbours node).eraseDups.length))

/-- A child misses one parent less, and joins the queue if it misses none any more. -/
def countDown (state : Table ℕ × List Name) (child : Name) : Table ℕ × List Name :=
  let left := state.1.getD child 0 - 1
  (state.1.insert child left, if left = 0 then state.2 ++ [child] else state.2)

/-- Takes nodes from the front of the queue and counts down their children. At most `fuel` nodes
are taken. -/
def drainCounted (g : Graph) :
    (fuel : ℕ) → (missing : Table ℕ) → (finished queue : List Name) → List Name
  | 0, _, finished, _ => finished
  | _ + 1, _, finished, [] => finished
  | fuel + 1, missing, finished, node :: queue =>
    let state := (g.childrenOf node).foldl countDown (missing, queue)
    g.drainCounted fuel state.1 (finished ++ [node]) state.2

/-- The order that is found by counting missing parents. -/
def countedOrder (g : Graph) : Except CycleError (List Name) :=
  let ready := g.nodes.filter fun node => g.parentCounts.getD node 0 == 0
  let finished := g.drainCounted g.nodes.length g.parentCounts [] ready
  if finished.length = g.nodes.length then .ok finished else .error {}

/-! ## What the counters say -/

variable {g : Graph}

/-- The parents of a node that are not finished, each once. -/
def missingParents (g : Graph) (finished : List Name) (node : Name) : List Name :=
  (g.neighbours node).eraseDups.filter fun parent => !finished.contains parent

/-- The counter of every node is the number of its parents that are not finished. -/
def CountsMissing (g : Graph) (finished : List Name) (missing : Table ℕ) : Prop :=
  ∀ node, missing.getD node 0 = (g.missingParents finished node).length

lemma mem_missingParents {finished : List Name} {node parent : Name} :
    parent ∈ g.missingParents finished node ↔ g.Edge parent node ∧ parent ∉ finished := by
  simp [missingParents, List.mem_eraseDups, Edge]

lemma nodup_missingParents (finished : List Name) (node : Name) :
    (g.missingParents finished node).Nodup := (nodup_eraseDups _).filter _

/-- Nothing is finished at first. -/
lemma countsMissing_parentCounts (g : Graph) : g.CountsMissing [] g.parentCounts := by
  intro node
  rw [parentCounts, Table.getD_ofList_map]
  split
  · simp [missingParents]
  · rename_i hnode
    rw [eq_comm, List.length_eq_zero_iff, List.eq_nil_iff_forall_not_mem]
    exact fun parent hparent => hnode (child_mem_nodes (mem_missingParents.mp hparent).1)

/-- A node that is finished is missed no more, and it counted once. -/
lemma missingParents_concat (finished : List Name) (node child : Name) :
    g.missingParents (finished ++ [node]) child =
      (g.missingParents finished child).filter fun parent => parent != node := by
  rw [missingParents, missingParents, List.filter_filter]
  refine List.filter_congr fun parent _ => ?_
  rw [Bool.eq_iff_iff]
  simp [and_comm]

lemma length_missingParents_concat {finished : List Name} {node : Name} (hnew : node ∉ finished)
    (child : Name) : (g.missingParents (finished ++ [node]) child).length =
      if g.Edge node child then (g.missingParents finished child).length - 1
      else (g.missingParents finished child).length := by
  rw [missingParents_concat, ← (nodup_missingParents finished child).erase_eq_filter]
  split
  · rename_i hedge
    exact List.length_erase_of_mem (mem_missingParents.mpr ⟨hedge, hnew⟩)
  · rename_i hedge
    rw [List.erase_of_not_mem fun hmem => hedge (mem_missingParents.mp hmem).1]

/-! ## Counting down -/

/-- Counting down different children lowers their counters by one and leaves the others, and those
whose counters come to zero join the queue in their order. -/
lemma foldl_countDown {children : List Name} (hchildren : children.Nodup) (missing : Table ℕ)
    (queue : List Name) :
    (∀ node, (children.foldl countDown (missing, queue)).1.getD node 0 =
        if node ∈ children then missing.getD node 0 - 1 else missing.getD node 0) ∧
      (children.foldl countDown (missing, queue)).2 =
        queue ++ children.filter fun child => missing.getD child 0 - 1 == 0 := by
  induction children generalizing missing queue with
  | nil => simp
  | cons child rest ih =>
      obtain ⟨hchild, hrest⟩ := List.nodup_cons.mp hchildren
      obtain ⟨hcounts, hqueue⟩ := ih hrest (missing.insert child (missing.getD child 0 - 1))
        (if missing.getD child 0 - 1 = 0 then queue ++ [child] else queue)
      refine ⟨fun node => ?_, ?_⟩
      · rw [List.foldl_cons, countDown, hcounts, Table.getD_insert]
        by_cases hnode : child = node
        · subst hnode
          simp [hchild]
        · simp [hnode, Ne.symm hnode]
      · have hsame : (rest.filter fun node =>
            (missing.insert child (missing.getD child 0 - 1)).getD node 0 - 1 == 0) =
              rest.filter fun node => missing.getD node 0 - 1 == 0 :=
          List.filter_congr fun node hnode => by
            have hne : child ≠ node := fun heq => hchild (heq ▸ hnode)
            rw [Table.getD_insert, if_neg hne]
        rw [List.foldl_cons, countDown, hqueue, hsame, List.filter_cons]
        by_cases hzero : missing.getD child 0 - 1 = 0 <;> simp [hzero]

lemma mem_childrenOf {node child : Name} : child ∈ g.childrenOf node ↔ g.Edge node child := by
  simp only [childrenOf, List.mem_map, List.mem_filter, List.contains_iff_mem, Prod.exists,
    exists_and_right, exists_eq_right]
  constructor
  · rintro ⟨parents, hmem, hnode⟩
    rwa [Edge, neighbours_of_mem_entries hmem]
  · exact fun hedge => ⟨_, mem_entries_of_edge hedge, hedge⟩

lemma nodup_childrenOf (g : Graph) (node : Name) : (g.childrenOf node).Nodup :=
  List.Nodup.sublist (List.Sublist.map _ List.filter_sublist) g.nodup

/-- The children whose counters come to zero are those that the node frees. -/
lemma filter_childrenOf {finished : List Name} {missing : Table ℕ} {node : Name}
    (hnew : node ∉ finished) (h : g.CountsMissing finished missing) :
    ((g.childrenOf node).filter fun child => missing.getD child 0 - 1 == 0) =
      g.freed finished node := by
  rw [childrenOf, freed, List.filter_map, List.filter_filter]
  refine congrArg _ (List.filter_congr fun e he => ?_)
  have hparents : g.neighbours e.1 = e.2 := neighbours_of_mem_entries he
  rw [Bool.and_comm, Bool.eq_iff_iff, Bool.and_eq_true, Bool.and_eq_true]
  refine and_congr_right fun hnode => ?_
  have hedge : g.Edge node e.1 := by
    rw [Edge, hparents]
    exact List.contains_iff_mem.mp hnode
  have hlength := length_missingParents_concat (g := g) hnew e.1
  rw [if_pos hedge, ← h e.1] at hlength
  rw [Function.comp_apply, beq_iff_eq, ← hlength, List.length_eq_zero_iff,
    List.eq_nil_iff_forall_not_mem]
  simp only [mem_missingParents, Edge, hparents, List.mem_append, List.mem_singleton,
    List.all_eq_true, Bool.or_eq_true, beq_iff_eq, List.contains_iff_mem]
  constructor
  · intro hnone parent hparent
    by_contra hmissing
    exact hnone parent ⟨hparent, by tauto⟩
  · rintro hall parent ⟨hparent, hmissing⟩
    have := hall parent hparent
    tauto

/-- Counting down the children of a finished node keeps the invariant. -/
lemma CountsMissing.step {finished : List Name} {missing : Table ℕ} {node : Name}
    (hnew : node ∉ finished) (h : g.CountsMissing finished missing) (queue : List Name) :
    g.CountsMissing (finished ++ [node])
      ((g.childrenOf node).foldl countDown (missing, queue)).1 := by
  intro child
  rw [(foldl_countDown (nodup_childrenOf g node) missing queue).1 child,
    length_missingParents_concat hnew, h child]
  simp only [mem_childrenOf]

/-- Counting empties the queue in the same way. -/
lemma drainCounted_eq (fuel : ℕ) {missing : Table ℕ} {finished queue : List Name}
    (hstate : g.DrainState finished queue) (h : g.CountsMissing finished missing) :
    g.drainCounted fuel missing finished queue = g.drain fuel finished queue := by
  induction fuel generalizing missing finished queue with
  | zero => rfl
  | succ fuel ih =>
      cases queue with
      | nil => rfl
      | cons node queue =>
          have hnew := hstate.not_mem_finished
          have hqueue := (foldl_countDown (nodup_childrenOf g node) missing queue).2
          rw [filter_childrenOf hnew h] at hqueue
          have hrest := ih hstate.step (h.step hnew queue)
          rw [drainCounted, drain, hqueue, hrest]

/-- The nodes that miss no parent at first are those without parents. -/
lemma CountsMissing.filter_nodes {missing : Table ℕ} (h : g.CountsMissing [] missing) :
    (g.nodes.filter fun node => missing.getD node 0 == 0) = g.sources := by
  refine List.filter_congr fun node _ => ?_
  rw [h node, Bool.eq_iff_iff, beq_iff_eq, List.isEmpty_iff, List.length_eq_zero_iff,
    List.eq_nil_iff_forall_not_mem, List.eq_nil_iff_forall_not_mem]
  simp [mem_missingParents, Edge]

/-- **Counting finds the same order.** -/
theorem countedOrder_eq (g : Graph) : g.countedOrder = g.order := by
  rw [countedOrder, order, (countsMissing_parentCounts g).filter_nodes,
    drainCounted_eq _ (drainState_sources g) (countsMissing_parentCounts g)]

/-! ## The order -/

/-- In a causal order a parent has an earlier place than its child. -/
lemma IsCausalOrder.idxOf_lt {order : List Name} (h : g.IsCausalOrder order) {parent child : Name}
    (hedge : g.Edge parent child) : order.idxOf parent < order.idxOf child := by
  obtain ⟨before, after, rfl⟩ :=
    List.append_of_mem ((h.mem_iff child).mpr (child_mem_nodes hedge))
  have hparent : parent ∈ before := h.parents_before before child after rfl parent hedge
  have hchild : child ∉ before := fun hmem =>
    List.disjoint_of_nodup_append h.nodup hmem List.mem_cons_self
  rw [List.idxOf_append_of_mem hparent, List.idxOf_append_of_notMem hchild, List.idxOf_cons_self]
  have := List.idxOf_lt_length_of_mem hparent
  omega

/-- **The causal order sorts the graph.** Counting missing parents finds it. There is none exactly if
some node leads back to itself. Otherwise it lists every entry and every parent once, each parent
before each of its children. -/
theorem order_sorts (g : Graph) :
    g.countedOrder = g.order ∧
    (g.order = .error {} ↔ ∃ node, TransGen g.Edge node node) ∧
    ((¬ ∃ node, TransGen g.Edge node node) ↔ ∃ order, g.order = .ok order ∧ order.Nodup ∧
      (∀ node, node ∈ order ↔ node ∈ g.keys ∨ ∃ child, g.Edge node child) ∧
      ∀ parent child, g.Edge parent child → order.idxOf parent < order.idxOf child) := by
  have hcycle : ¬ g.Acyclic ↔ ∃ node, TransGen g.Edge node node := by
    simp only [Acyclic, not_forall, not_not]
  refine ⟨countedOrder_eq g, order_eq_error_iff.trans hcycle, ?_⟩
  rw [← hcycle, not_not]
  constructor
  · intro hg
    obtain ⟨order, horder⟩ := exists_order_of_acyclic hg
    have hcausal := isCausalOrder_of_order horder
    exact ⟨order, horder, hcausal.nodup,
      fun node => (hcausal.mem_iff node).trans mem_nodes_iff,
      fun parent child hedge => hcausal.idxOf_lt hedge⟩
  · rintro ⟨order, horder, -⟩
    exact (isCausalOrder_of_order horder).acyclic

end Graph

end CausalEquations
