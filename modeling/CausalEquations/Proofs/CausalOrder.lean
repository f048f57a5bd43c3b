import CausalEquations.Graph.Order
import CausalEquations.Proofs.Listing
import Mathlib.Data.Fintype.Card
import Mathlib.Data.Set.Finite.Basic
import Mathlib.Logic.Relation

/-!
# Finding a causal order

Draining the queue of ready nodes gives a causal order whenever it gives a list at all, and it gives
one for every graph of parents without a directed cycle.

* `Graph.Edge`, `Graph.Acyclic` — edges from parent to child, and graphs without directed cycle.
* `Graph.IsCausalOrder` — a listing of the nodes with parents before children.
* `Graph.DrainState` — the invariant of the queue: finished nodes form a causal order so far, and
  every node whose parents are all finished is finished or waiting.
* `Graph.Acyclic.induction` — what passes from parents to children holds of every node.
* `Graph.IsCausalOrder.acyclic` — a graph with a causal order has no directed cycle.
* `Graph.exists_order_of_acyclic`, `Graph.isCausalOrder_of_order` — the order is found, and it is
  one.
-/

namespace CausalEquations

namespace Graph

open Relation

/-! ## Edges and orders -/

/-- There is an edge from every parent of a node to the node. -/
def Edge (g : Graph) (parent child : Name) : Prop := parent ∈ g.neighbours child

instance (g : Graph) (parent child : Name) : Decidable (g.Edge parent child) :=
  inferInstanceAs (Decidable (parent ∈ g.neighbours child))

/-- No node leads back to itself along one or more edges. -/
def Acyclic (g : Graph) : Prop := ∀ node, ¬ TransGen g.Edge node node

/-- A listing of all nodes, each once, in which the parents of a node stand before it. -/
structure IsCausalOrder (g : Graph) (order : List Name) : Prop where
  nodup : order.Nodup
  mem_iff : ∀ node, node ∈ order ↔ node ∈ g.nodes
  parents_before : ∀ before node after, order = before ++ node :: after →
    ∀ parent, g.Edge parent node → parent ∈ before

variable {g : Graph}

lemma neighbours_of_mem_entries {node : Name} {parents : List Name}
    (h : (node, parents) ∈ g.entries) : g.neighbours node = parents := by
  simp only [neighbours, Table.getD, Table.get?_of_mem h, Option.getD_some]

/-- A node with a parent has an entry of its own, which lists that parent. -/
lemma mem_entries_of_edge {parent child : Name} (h : g.Edge parent child) :
    (child, g.neighbours child) ∈ g.entries := by
  unfold Edge neighbours Table.getD at h
  cases hget : g.get? child with
  | none => simp [hget] at h
  | some parents =>
      have hmem := Table.mem_of_get? hget
      rwa [neighbours_of_mem_entries hmem]

lemma mem_nodes_of_key {node : Name} (h : node ∈ g.keys) : node ∈ g.nodes := by
  simp only [nodes, List.mem_eraseDups, List.mem_append]
  exact Or.inl h

lemma child_mem_nodes {parent child : Name} (h : g.Edge parent child) : child ∈ g.nodes :=
  mem_nodes_of_key (List.mem_map.mpr ⟨_, mem_entries_of_edge h, rfl⟩)

lemma parent_mem_nodes {parent child : Name} (h : g.Edge parent child) : parent ∈ g.nodes := by
  simp only [nodes, List.mem_eraseDups, List.mem_append, List.mem_flatMap]
  exact Or.inr ⟨_, mem_entries_of_edge h, h⟩

/-- The nodes are the entries and the parents. -/
lemma mem_nodes_iff {node : Name} :
    node ∈ g.nodes ↔ node ∈ g.keys ∨ ∃ child, g.Edge node child := by
  constructor
  · intro h
    simp only [nodes, List.mem_eraseDups, List.mem_append, List.mem_flatMap] at h
    refine h.imp_right ?_
    rintro ⟨⟨child, parents⟩, hmem, hnode⟩
    exact ⟨child, by rwa [Edge, neighbours_of_mem_entries hmem]⟩
  · rintro (h | ⟨child, hedge⟩)
    · exact mem_nodes_of_key h
    · exact parent_mem_nodes hedge

lemma nodup_nodes (g : Graph) : g.nodes.Nodup := nodup_eraseDups _

/-! ## Acyclic graphs -/

/-- The nodes of an acyclic graph are well-founded under the edges. -/
lemma Acyclic.wellFounded (h : g.Acyclic) :
    WellFounded fun a b : {node // node ∈ g.nodes} => TransGen g.Edge a.1 b.1 := by
  have : Finite {node // node ∈ g.nodes} := (List.finite_toSet g.nodes).to_subtype
  have : IsTrans {node // node ∈ g.nodes} (fun a b => TransGen g.Edge a.1 b.1) :=
    ⟨fun _ _ _ hab hbc => hab.trans hbc⟩
  have : Std.Irrefl (fun a b : {node // node ∈ g.nodes} => TransGen g.Edge a.1 b.1) :=
    ⟨fun a => h a.1⟩
  exact Finite.wellFounded_of_trans_of_irrefl _

/-- What passes from the parents of a node to the node holds of every node. -/
theorem Acyclic.induction (h : g.Acyclic) {motive : Name → Prop}
    (step : ∀ node ∈ g.nodes, (∀ parent, g.Edge parent node → motive parent) → motive node) :
    ∀ node ∈ g.nodes, motive node := by
  intro node hnode
  have key : ∀ n : {node // node ∈ g.nodes}, motive n.1 := by
    intro n
    induction n using h.wellFounded.induction with
    | _ n ih =>
      refine step n.1 n.2 fun parent hedge => ?_
      exact ih ⟨parent, parent_mem_nodes hedge⟩ (TransGen.single hedge)
  exact key ⟨node, hnode⟩

/-- A causal order rules out directed cycles: along an edge the listing only goes on. -/
theorem IsCausalOrder.acyclic {order : List Name} (h : g.IsCausalOrder order) : g.Acyclic := by
  have hprecedes : ∀ a b, TransGen g.Edge a b → ∀ before after, order = before ++ b :: after →
      a ∈ before := by
    intro a b hab
    induction hab with
    | single hedge => exact fun before after hsplit => h.parents_before before _ after hsplit a hedge
    | @tail b c _ hedge ih =>
        intro before after hsplit
        have hmid := h.parents_before before c after hsplit b hedge
        obtain ⟨front, back, rfl⟩ := List.append_of_mem hmid
        exact List.mem_append_left _ (ih front (back ++ c :: after) (by rw [hsplit]; simp))
  intro node hcycle
  have hnode : node ∈ order := by
    obtain ⟨parent, hedge⟩ : ∃ parent, g.Edge parent node := by
      cases hcycle with
      | single hedge => exact ⟨_, hedge⟩
      | tail _ hedge => exact ⟨_, hedge⟩
    exact (h.mem_iff node).mpr (child_mem_nodes hedge)
  obtain ⟨before, after, rfl⟩ := List.append_of_mem hnode
  have hbefore := hprecedes node node hcycle before after rfl
  exact List.disjoint_of_nodup_append h.nodup hbefore List.mem_cons_self

/-! ## Draining the queue -/

/-- What holds whenever a node is taken from the queue. -/
structure DrainState (g : Graph) (finished queue : List Name) : Prop where
  nodup : (finished ++ queue).Nodup
  subset : ∀ node ∈ finished ++ queue, node ∈ g.nodes
  parents_before : ∀ before node after, finished = before ++ node :: after →
    ∀ parent, g.Edge parent node → parent ∈ before
  ready : ∀ node ∈ queue, ∀ parent, g.Edge parent node → parent ∈ finished
  complete : ∀ node ∈ g.nodes, (∀ parent, g.Edge parent node → parent ∈ finished) →
    node ∈ finished ++ queue

/-- A node is freed by one of its parents if its other parents are finished. -/
lemma mem_freed {finished : List Name} {node child : Name} :
    child ∈ g.freed finished node ↔
      g.Edge node child ∧ ∀ parent, g.Edge parent child → parent = node ∨ parent ∈ finished := by
  simp only [freed, List.mem_map, List.mem_filter, Bool.and_eq_true, List.contains_iff_mem,
    List.all_eq_true, Bool.or_eq_true, beq_iff_eq, Prod.exists, exists_and_right,
    exists_eq_right]
  constructor
  · rintro ⟨parents, hmem, hnode, hall⟩
    rw [Edge, neighbours_of_mem_entries hmem]
    refine ⟨hnode, fun parent hedge => hall parent ?_⟩
    rwa [Edge, neighbours_of_mem_entries hmem] at hedge
  · rintro ⟨hedge, hall⟩
    exact ⟨_, mem_entries_of_edge hedge, hedge, hall⟩

lemma nodup_freed (g : Graph) (finished : List Name) (node : Name) :
    (g.freed finished node).Nodup :=
  List.Nodup.sublist (List.Sublist.map _ List.filter_sublist) g.nodup

/-- The nodes without parents start the queue. -/
lemma drainState_sources (g : Graph) : g.DrainState [] g.sources where
  nodup := (nodup_nodes g).filter _
  subset := fun node h => (List.mem_filter.mp h).1
  parents_before := by
    intro before node after h
    simp at h
  ready := by
    intro node h parent hedge
    have hempty := (List.mem_filter.mp h).2
    rw [List.isEmpty_iff] at hempty
    rw [Edge, hempty] at hedge
    simp at hedge
  complete := by
    intro node hnode hparents
    refine List.mem_filter.mpr ⟨hnode, ?_⟩
    rw [List.isEmpty_iff]
    exact List.eq_nil_iff_forall_not_mem.mpr fun parent h => absurd (hparents parent h) (by simp)

section

variable {finished queue : List Name} {node : Name}

lemma DrainState.not_mem_finished (h : g.DrainState finished (node :: queue)) : node ∉ finished :=
  fun hm => List.disjoint_of_nodup_append h.nodup hm List.mem_cons_self

/-- A node that was reached before has all its parents finished, so no parent frees it now. -/
lemma DrainState.not_mem_of_mem_freed (h : g.DrainState finished (node :: queue)) {child : Name}
    (hchild : child ∈ g.freed finished node) : child ∉ finished ++ node :: queue := by
  intro hold
  have hedge := (mem_freed.mp hchild).1
  rcases List.mem_append.mp hold with hfin | hqueue
  · obtain ⟨before, after, rfl⟩ := List.append_of_mem hfin
    have hbefore := h.parents_before before child after rfl node hedge
    exact h.not_mem_finished (List.mem_append_left _ hbefore)
  · exact h.not_mem_finished (h.ready child hqueue node hedge)

/-- Finishing the first waiting node and queueing the nodes it frees keeps the invariant. -/
lemma DrainState.step (h : g.DrainState finished (node :: queue)) :
    g.DrainState (finished ++ [node]) (queue ++ g.freed finished node) := by
  have hsplit : finished ++ [node] ++ (queue ++ g.freed finished node) =
      (finished ++ node :: queue) ++ g.freed finished node := by simp
  have hparent : ∀ parent, parent ∈ finished ++ [node] ↔ parent = node ∨ parent ∈ finished := by
    intro parent
    rw [List.mem_append, List.mem_singleton, or_comm]
  constructor
  case nodup =>
    rw [hsplit, List.nodup_append]
    refine ⟨h.nodup, nodup_freed g finished node, ?_⟩
    rintro a ha b hb rfl
    exact h.not_mem_of_mem_freed hb ha
  case subset =>
    intro n hn
    rw [hsplit] at hn
    rcases List.mem_append.mp hn with hold | hfreed
    · exact h.subset n hold
    · exact child_mem_nodes (mem_freed.mp hfreed).1
  case parents_before =>
    intro before n after heq parent hedge
    rcases List.eq_nil_or_concat after with rfl | ⟨after', last, rfl⟩
    · obtain ⟨rfl, hn⟩ := List.append_inj' heq rfl
      obtain rfl : node = n := by simpa using hn
      exact h.ready node List.mem_cons_self parent hedge
    · have heq' : finished ++ [node] = (before ++ n :: after') ++ [last] := by simpa using heq
      obtain ⟨hfin, -⟩ := List.append_inj' heq' rfl
      exact h.parents_before before n after' hfin parent hedge
  case ready =>
    intro n hn parent hedge
    rw [hparent]
    rcases List.mem_append.mp hn with hqueue | hfreed
    · exact .inr (h.ready n (List.mem_cons_of_mem _ hqueue) parent hedge)
    · exact (mem_freed.mp hfreed).2 parent hedge
  case complete =>
    intro n hn hparents
    simp only [hparent] at hparents
    rw [hsplit]
    by_cases hedge : g.Edge node n
    · exact List.mem_append_right _ (mem_freed.mpr ⟨hedge, hparents⟩)
    · refine List.mem_append_left _ (h.complete n hn fun parent hp => ?_)
      refine (hparents parent hp).resolve_left ?_
      rintro rfl
      exact hedge hp

end

/-- A drained queue leaves a finished list that is closed under the invariant, or as many finished
nodes as there was fuel for. -/
lemma DrainState.drain (fuel : ℕ) {finished queue : List Name} (h : g.DrainState finished queue) :
    ∃ rest, g.DrainState (g.drain fuel finished queue) rest ∧
      (rest = [] ∨ finished.length + fuel ≤ (g.drain fuel finished queue).length) := by
  induction fuel generalizing finished queue with
  | zero => exact ⟨queue, by simpa [Graph.drain] using h, Or.inr (by simp [Graph.drain])⟩
  | succ fuel ih =>
      cases queue with
      | nil => exact ⟨[], by simpa [Graph.drain] using h, Or.inl rfl⟩
      | cons node queue =>
          obtain ⟨rest, hstate, hend⟩ := ih h.step
          refine ⟨rest, by simpa [Graph.drain] using hstate, hend.imp_right fun hlen => ?_⟩
          simp only [Graph.drain]
          simp only [List.length_append, List.length_singleton] at hlen
          omega

/-! ## The order -/

/-- As many finished nodes as there are nodes are all of them. -/
lemma DrainState.isCausalOrder {finished rest : List Name} (h : g.DrainState finished rest)
    (hlen : finished.length = g.nodes.length) : g.IsCausalOrder finished := by
  have hnodup : finished.Nodup := h.nodup.of_append_left
  have hsub : finished ⊆ g.nodes := fun node hn => h.subset node (List.mem_append_left _ hn)
  have hperm : finished.Perm g.nodes :=
    (List.subperm_of_subset hnodup hsub).perm_of_length_le hlen.ge
  exact ⟨hnodup, fun _ => hperm.mem_iff, h.parents_before⟩

/-- A closed list of finished nodes of an acyclic graph holds every node. -/
lemma DrainState.length_eq {finished : List Name} (h : g.DrainState finished [])
    (hg : g.Acyclic) : finished.length = g.nodes.length := by
  have hnodup : finished.Nodup := h.nodup.of_append_left
  have hall : ∀ node ∈ g.nodes, node ∈ finished := hg.induction fun node hn hparents => by
    simpa using h.complete node hn hparents
  refine le_antisymm ?_ ?_
  · exact (List.subperm_of_subset hnodup fun n hn => h.subset n (by simpa using hn)).length_le
  · exact (List.subperm_of_subset (nodup_nodes g) hall).length_le

/-- What is returned is a causal order. -/
theorem isCausalOrder_of_order {order : List Name} (h : g.order = .ok order) :
    g.IsCausalOrder order := by
  obtain ⟨rest, hstate, -⟩ := (drainState_sources g).drain g.nodes.length
  simp only [Graph.order] at h
  split at h
  · rename_i hlen
    cases h
    exact hstate.isCausalOrder hlen
  · cases h

/-- An acyclic graph has an order. -/
theorem exists_order_of_acyclic (hg : g.Acyclic) : ∃ order, g.order = .ok order := by
  obtain ⟨rest, hstate, hend⟩ := (drainState_sources g).drain g.nodes.length
  have hle : (g.drain g.nodes.length [] g.sources).length ≤ g.nodes.length :=
    (List.subperm_of_subset hstate.nodup.of_append_left
      fun n hn => hstate.subset n (List.mem_append_left _ hn)).length_le
  have hlen : (g.drain g.nodes.length [] g.sources).length = g.nodes.length := by
    rcases hend with rfl | hge
    · exact hstate.length_eq hg
    · simp only [List.length_nil, Nat.zero_add] at hge
      exact le_antisymm hle hge
  exact ⟨_, if_pos hlen⟩

lemma isSome_order_iff : g.order.toOption.isSome = true ↔ g.Acyclic := by
  constructor
  · intro h
    cases horder : g.order with
    | error e => simp [horder, Except.toOption] at h
    | ok order => exact (isCausalOrder_of_order horder).acyclic
  · intro hg
    obtain ⟨order, horder⟩ := exists_order_of_acyclic hg
    simp [horder, Except.toOption]

/-- Looking for an order decides whether there is a cycle. -/
instance (g : Graph) : Decidable g.Acyclic := decidable_of_iff _ isSome_order_iff

end Graph

end CausalEquations
