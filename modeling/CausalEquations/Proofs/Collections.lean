import CausalEquations.Proofs.Descendants

/-!
# Collecting descendants without a bound

Descendants are collected to a depth that is bounded by the number of nodes. Here the collection is
described by rules that know of no bound, on any graph of children. By these rules it comes to an
end with one result only, which is the one that is computed; so the bound is never felt. On a graph
with cycles a list may lack a descendant, but it has nothing else in it. On an acyclic graph it has
all of them, in whatever order nodes and children are visited.

* `Graph.Collects`, `Graph.Gathers`, `Graph.CollectsAll` — the rules.
* `Graph.collects_collect` — what is computed follows the rules.
* `Graph.Collects.unique` — nothing else does.
* `Graph.Rearranges` — the same nodes and children, in another order.
* `Graph.collectsAll_descendants` — the run through all nodes, and what it lists.
-/

namespace CausalEquations

namespace Graph

open Relation

/-! ## The rules -/

mutual

/-- Collecting the descendants of a node while others are being visited, from a table of finished
nodes: the list and the new table. -/
inductive Collects (c : Graph) : List Name → Graph → Name → List Name × Graph → Prop where
  /-- What is known of a finished node is used again. -/
  | known {visiting : List Name} {finished : Graph} {node : Name} {found : List Name} :
      finished.get? node = some found → Collects c visiting finished node (found, finished)
  /-- A node that is met again contributes nothing. -/
  | met {visiting : List Name} {finished : Graph} {node : Name} :
      finished.get? node = none → node ∈ visiting → Collects c visiting finished node ([], finished)
  /-- The children of a new node are gathered, and the node is finished. -/
  | visit {visiting : List Name} {finished : Graph} {node : Name} {result : List Name × Graph} :
      finished.get? node = none → node ∉ visiting →
      Gathers c (node :: visiting) ([], finished) (c.neighbours node) result →
      Collects c visiting finished node (result.1, result.2.insert node result.1)

/-- Gathering children one after the other, each with what is collected below it. -/
inductive Gathers (c : Graph) : List Name → List Name × Graph → List Name → List Name × Graph →
    Prop where
  | nil {visiting : List Name} {state : List Name × Graph} : Gathers c visiting state [] state
  | cons {visiting : List Name} {state below result : List Name × Graph} {child : Name}
      {rest : List Name} :
      Collects c visiting state.2 child below →
      Gathers c visiting (unionNames (unionNames state.1 [child]) below.1, below.2) rest result →
      Gathers c visiting state (child :: rest) result

end

/-- Collecting the descendants of nodes one after the other. -/
inductive CollectsAll (c : Graph) : Graph → List Name → Graph → Prop where
  | nil {finished : Graph} : CollectsAll c finished [] finished
  | cons {finished last : Graph} {node : Name} {rest : List Name} {result : List Name × Graph} :
      Collects c [] finished node result → CollectsAll c result.2 rest last →
      CollectsAll c finished (node :: rest) last

/-! ## One result at most -/

variable {c : Graph}

mutual

/-- The rules leave no choice. -/
lemma Collects.unique {visiting : List Name} {finished : Graph} {node : Name}
    {result other : List Name × Graph} :
    Collects c visiting finished node result → Collects c visiting finished node other →
      result = other
  | .known hknown, h => by
      cases h with
      | known hother => rw [Option.some.inj (hknown.symm.trans hother)]
      | met hnone _ => cases hknown.symm.trans hnone
      | visit hnone _ _ => cases hknown.symm.trans hnone
  | .met hnone hmem, h => by
      cases h with
      | known hother => cases hnone.symm.trans hother
      | met _ _ => rfl
      | visit _ hnew _ => exact absurd hmem hnew
  | .visit hnone hnew hgathers, h => by
      cases h with
      | known hother => cases hnone.symm.trans hother
      | met _ hmem => exact absurd hmem hnew
      | visit _ _ hother => rw [hgathers.unique hother]

lemma Gathers.unique {visiting children : List Name} {state result other : List Name × Graph} :
    Gathers c visiting state children result → Gathers c visiting state children other →
      result = other
  | .nil, .nil => rfl
  | .cons hchild hrest, .cons hother hrest' => by
      obtain rfl := hchild.unique hother
      exact hrest.unique hrest'

end

lemma CollectsAll.unique {finished last other : Graph} {nodes : List Name}
    (h : CollectsAll c finished nodes last) (hother : CollectsAll c finished nodes other) :
    last = other := by
  induction h with
  | nil =>
      cases hother
      rfl
  | cons hnode _ ih =>
      cases hother with
      | cons hnode' hrest =>
          obtain rfl := hnode.unique hnode'
          exact ih hrest

/-! ## What is computed follows the rules -/

lemma gathers_foldl {visiting : List Name} {visit : Graph → Name → List Name × Graph}
    {children : List Name}
    (hvisit : ∀ child ∈ children, ∀ finished,
      Collects c visiting finished child (visit finished child))
    (state : List Name × Graph) :
    Gathers c visiting state children (children.foldl (gather visit) state) := by
  induction children generalizing state with
  | nil => exact .nil
  | cons child rest ih =>
      obtain ⟨hchild, hrest⟩ := List.forall_mem_cons.mp hvisit
      exact .cons (hchild state.2) (ih hrest _)

/-- **The bound is never felt** by a collection that starts with more fuel than there are nodes: the
nodes that are being visited are different, so there is fuel left whenever a new one is met. -/
theorem collects_collect (fuel : ℕ) {visiting : List Name} {node : Name}
    (hvisiting : Above c visiting node) (hfuel : c.nodes.length + 1 ≤ fuel + visiting.length)
    (finished : Graph) :
    Collects c visiting finished node (collect c fuel visiting finished node) := by
  have hlength := hvisiting.length_le
  induction fuel generalizing visiting finished node with
  | zero => omega
  | succ fuel ih =>
      rw [collect_succ]
      cases hknown : finished.get? node with
      | some known => exact .known hknown
      | none =>
          by_cases hmet : node ∈ visiting
          · simp only [List.contains_iff_mem.mpr hmet, if_true]
            exact .met hknown hmet
          · have hcontains : visiting.contains node = false := by simpa using hmet
            simp only [hcontains, Bool.false_eq_true, if_false]
            refine .visit hknown hmet (gathers_foldl (fun child hedge finished => ?_) _)
            have hnext := hvisiting.child hmet hedge
            have hfuel' : c.nodes.length + 1 ≤ fuel + (node :: visiting).length := by
              simp only [List.length_cons]
              omega
            exact ih hnext hfuel' finished hnext.length_le

lemma collectsAll_foldl {nodes : List Name} (hnodes : ∀ node ∈ nodes, node ∈ c.nodes)
    (finished : Graph) :
    CollectsAll c finished nodes (nodes.foldl
      (fun finished node => (collect c (c.nodes.length + 1) [] finished node).2) finished) := by
  induction nodes generalizing finished with
  | nil => exact .nil
  | cons node rest ih =>
      obtain ⟨hnode, hrest⟩ := List.forall_mem_cons.mp hnodes
      have habove : Above c [] node := ⟨List.nodup_nil, hnode, by simp⟩
      exact .cons (collects_collect _ habove (by simp) finished) (ih hrest _)

/-! ## What is listed -/

/-- A node that is listed as a descendant is one, on any graph. -/
lemma descendants_sound {d node : Name} (hd : d ∈ c.descendants.neighbours node) :
    TransGen c.Edge d node := by
  obtain ⟨hsettles, -⟩ := settles_descendants
    (P := fun node found => ∀ d ∈ found, TransGen c.Edge d node) (fun _ _ => by simp)
    fun node parts found hnames hparts hjoins d => below_of_joins hnames hparts hjoins
  exact hsettles node _ (Table.get?_of_mem (mem_entries_of_edge hd)) d hd

lemma mem_keys_descendants {node : Name} (h : node ∈ c.keys) : node ∈ c.descendants.keys :=
  (settles_descendants (P := fun _ _ => True) (fun _ _ => trivial)
    fun _ _ _ _ _ _ => trivial).2 node h

/-- The same nodes with the same children, both listed in whatever order. -/
structure Rearranges (other c : Graph) : Prop where
  keys : other.keys.Perm c.keys
  children : ∀ node ∈ c.keys, (other.neighbours node).Perm (c.neighbours node)

lemma Rearranges.edge_eq {other : Graph} (h : other.Rearranges c) : other.Edge = c.Edge := by
  funext d node
  by_cases hnode : node ∈ c.keys
  · exact propext (h.children node hnode).mem_iff
  · -- A node without an entry has no children in either graph.
    have hentry : ∀ {g : Graph}, g.Edge d node → node ∈ g.keys :=
      fun hedge => List.mem_map_of_mem (mem_entries_of_edge hedge)
    exact propext (iff_of_false (fun hedge => hnode (h.keys.mem_iff.mp (hentry hedge)))
      fun hedge => hnode (hentry hedge))

/-- **Collecting the descendants of all nodes** ends, on any graph of children, with one table. It
has a list for every node, of nodes that are reached from it along one or more edges. On an acyclic
graph these are all nodes that are reached, in whatever order nodes and children are visited. -/
theorem collectsAll_descendants (c : Graph) :
    (∀ last, CollectsAll c Table.empty c.keys last ↔ last = c.descendants) ∧
    (∀ node ∈ c.keys, node ∈ c.descendants.keys) ∧
    (∀ node, ∀ d ∈ c.descendants.neighbours node, TransGen c.Edge d node) ∧
    (c.Acyclic → ∀ other : Graph, other.Rearranges c →
      ∀ node d, d ∈ other.descendants.neighbours node ↔ TransGen c.Edge d node) := by
  have hrun : CollectsAll c Table.empty c.keys c.descendants :=
    collectsAll_foldl (fun node => mem_nodes_of_key) Table.empty
  refine ⟨fun last => ⟨fun h => h.unique hrun, fun h => h ▸ hrun⟩,
    fun node => mem_keys_descendants, fun node d => descendants_sound,
    fun hc other hother node d => ?_⟩
  have hacyclic : other.Acyclic := by
    rw [Acyclic, hother.edge_eq]
    exact hc
  rw [mem_descendants hacyclic, hother.edge_eq]

/-- Four nodes of which the last is reached in two ways, visited from either end. -/
theorem collectsAll_descendants_diamond :
    let c : Graph := Table.ofList [("A", ["B", "C"]), ("B", ["D"]), ("C", ["D"]), ("D", [])]
    let other : Graph := Table.ofList [("D", []), ("C", ["D"]), ("B", ["D"]), ("A", ["C", "B"])]
    c.Acyclic ∧ other.Rearranges c ∧ "A" ∈ c.keys ∧ "A" ∈ c.descendants.keys ∧
      ∀ node d, d ∈ other.descendants.neighbours node ↔ TransGen c.Edge d node := by
  intro c other
  have hc : c.Acyclic := by decide +kernel
  have hother : other.Rearranges c := ⟨by decide +kernel, by decide +kernel⟩
  have hA : "A" ∈ c.keys := by decide +kernel
  obtain ⟨-, hkeys, -, hexact⟩ := collectsAll_descendants c
  exact ⟨hc, hother, hA, hkeys "A" hA, hexact hc other hother⟩

/-- On a cycle the first node visited has all descendants, and the second lacks itself. -/
example : (descendants (Table.ofList [("A", ["B"]), ("B", ["A"])])).entries =
    [("B", ["A"]), ("A", ["B", "A"])] := by
  decide

end Graph

end CausalEquations
