import CausalEquations.Graph.Reachability
import CausalEquations.Proofs.CausalOrder
import CausalEquations.Proofs.Tables

/-!
# Descendants

The descendants of a node are collected child by child, and what is known of a finished node is used
again. On an acyclic graph the collection is exact: a node is listed if and only if it is reached
along one or more edges.

* `Graph.edge_children` — the graph with every edge reversed.
* `Graph.Joins` — a list that consists of the children and of what lies below them.
* `Graph.collect_spec` — a property of the lists that passes from the children of a node to the node
  holds of everything that is collected, on any graph.
* `Graph.mem_descendants`, `Graph.mem_descendants_children` — the collection is exact.
-/

namespace CausalEquations

namespace Graph

open Relation

/-! ## Reversed edges -/

/-- The edges that a list of entries adds to a graph that is being reversed. -/
lemma mem_neighbours_foldl_children {x node : Name} (entries : List (Name × List Name))
    (t : Graph) :
    x ∈ neighbours (entries.foldl (fun t e =>
      e.2.foldl (fun t parent => addNeighbour t parent e.1) (Table.insertIfNew t e.1 [])) t) node ↔
      x ∈ t.neighbours node ∨ ∃ e ∈ entries, e.1 = x ∧ node ∈ e.2 := by
  have hparents : ∀ (parents : List Name) (child : Name) (t : Graph),
      x ∈ neighbours (parents.foldl (fun t parent => addNeighbour t parent child) t) node ↔
        x ∈ t.neighbours node ∨ (child = x ∧ node ∈ parents) := by
    intro parents child
    induction parents with
    | nil => simp
    | cons parent rest ih =>
        intro t
        rw [List.foldl_cons, ih, mem_neighbours_addNeighbour, List.mem_cons]
        simp only [eq_comm (a := x), eq_comm (a := parent)]
        tauto
  induction entries generalizing t with
  | nil => simp
  | cons e rest ih =>
      simp only [List.foldl_cons, ih, hparents, neighbours_insertIfNew, or_assoc,
        List.exists_mem_cons_iff]

/-- A node is a child of its parents. -/
lemma edge_children {g : Graph} {a b : Name} : g.children.Edge a b ↔ g.Edge b a := by
  unfold Edge children
  rw [mem_neighbours_foldl_children]
  constructor
  · rintro (hempty | ⟨⟨child, parents⟩, hmem, rfl, hparent⟩)
    · simp at hempty
    · rwa [neighbours_of_mem_entries hmem]
  · intro h
    exact .inr ⟨_, mem_entries_of_edge h, rfl, h⟩

lemma transGen_children {g : Graph} {a b : Name} :
    TransGen g.children.Edge a b ↔ TransGen g.Edge b a := by
  have hswap : g.children.Edge = Function.swap g.Edge := by
    funext a b
    exact propext edge_children
  rw [hswap, transGen_swap]

lemma Acyclic.children {g : Graph} (hg : g.Acyclic) : g.children.Acyclic :=
  fun node hcycle => hg node (transGen_children.mp hcycle)

/-! ## Collecting -/

lemma mem_unionNames {as bs : List Name} {x : Name} : x ∈ unionNames as bs ↔ x ∈ as ∨ x ∈ bs := by
  unfold unionNames
  induction bs generalizing as with
  | nil => simp
  | cons b rest ih =>
      rw [List.foldl_cons, ih, List.mem_cons]
      split
      · rename_i hold
        rw [List.contains_iff_mem] at hold
        exact ⟨fun h => h.imp_right .inr, by rintro (h | rfl | h) <;> tauto⟩
      · simp [or_assoc]

/-- The list holds the children and what lies below each of them, and nothing else. -/
def Joins (found : List Name) (parts : List (Name × List Name)) : Prop :=
  ∀ d, d ∈ found ↔ ∃ p ∈ parts, d = p.1 ∨ d ∈ p.2

/-- Every list in the table has the property for its node. -/
def Settles (P : Name → List Name → Prop) (finished : Graph) : Prop :=
  ∀ node found, finished.get? node = some found → P node found

/-- What one collection gives: a list with the property, and a table that has grown by such
lists. -/
structure Collected (P : Name → List Name → Prop) (node : Name) (before : Graph)
    (result : List Name × Graph) : Prop where
  found : P node result.1
  settles : Settles P result.2
  grows : ∀ n, n ∈ before.keys → n ∈ Table.keys result.2

/-- One more child joins a list, and with it what `visit` finds below it. -/
def gather (visit : Graph → Name → List Name × Graph) (state : List Name × Graph) (child : Name) :
    List Name × Graph :=
  (unionNames (unionNames state.1 [child]) (visit state.2 child).1, (visit state.2 child).2)

lemma collect_succ (c : Graph) (fuel : ℕ) (visiting : List Name) (finished : Graph) (node : Name) :
    collect c (fuel + 1) visiting finished node =
      match finished.get? node with
      | some known => (known, finished)
      | none =>
        if visiting.contains node then ([], finished)
        else
          let result := (c.neighbours node).foldl (gather (collect c fuel (node :: visiting)))
            ([], finished)
          (result.1, result.2.insert node result.1) := rfl

/-- The nodes that are being visited, none of them twice, all lie above the present one. -/
structure Above (c : Graph) (visiting : List Name) (node : Name) : Prop where
  nodup : visiting.Nodup
  node_mem : node ∈ c.nodes
  above : ∀ v ∈ visiting, v ∈ c.nodes ∧ TransGen c.Edge node v

lemma Above.length_le {c : Graph} {visiting : List Name} {node : Name}
    (h : Above c visiting node) : visiting.length ≤ c.nodes.length :=
  (List.subperm_of_subset h.nodup fun v hv => (h.above v hv).1).length_le

/-- The visit of a new node goes on to its children. -/
lemma Above.child {c : Graph} {visiting : List Name} {node child : Name}
    (h : Above c visiting node) (hnew : node ∉ visiting) (hedge : c.Edge child node) :
    Above c (node :: visiting) child where
  nodup := List.nodup_cons.mpr ⟨hnew, h.nodup⟩
  node_mem := parent_mem_nodes hedge
  above := List.forall_mem_cons.mpr ⟨⟨h.node_mem, .single hedge⟩,
    fun v hv => ⟨(h.above v hv).1, .head hedge (h.above v hv).2⟩⟩

section

variable {P : Name → List Name → Prop}

lemma Settles.insert {finished : Graph} {node : Name} {found : List Name}
    (h : Settles P finished) (hfound : P node found) : Settles P (finished.insert node found) := by
  intro other list hget
  rw [Table.get?_insert] at hget
  split at hget
  · rename_i heq
    rw [← heq, ← Option.some.inj hget]
    exact hfound
  · exact h other list hget

/-- Gathering child by child joins what is found below each of them. -/
lemma joins_foldl_gather {visit : Graph → Name → List Name × Graph} {children : List Name}
    (hvisit : ∀ child ∈ children, ∀ finished, Settles P finished →
      Collected P child finished (visit finished child)) {parts : List (Name × List Name)}
    {state : List Name × Graph} (hparts : ∀ p ∈ parts, P p.1 p.2) (hfound : Joins state.1 parts)
    (hfinished : Settles P state.2) :
    ∃ parts', parts'.map Prod.fst = parts.map Prod.fst ++ children ∧ (∀ p ∈ parts', P p.1 p.2) ∧
      Joins (children.foldl (gather visit) state).1 parts' ∧
      Settles P (children.foldl (gather visit) state).2 ∧
      ∀ n, n ∈ state.2.keys → n ∈ Table.keys (children.foldl (gather visit) state).2 := by
  induction children generalizing parts state with
  | nil => exact ⟨parts, by simp, hparts, hfound, hfinished, fun _ h => h⟩
  | cons child rest ih =>
      obtain ⟨hchild, hrest⟩ := List.forall_mem_cons.mp hvisit
      obtain ⟨hbelow, hnext, hgrows⟩ := hchild state.2 hfinished
      have hjoined : Joins (gather visit state child).1
          (parts ++ [(child, (visit state.2 child).1)]) := by
        intro d
        rw [gather, mem_unionNames, mem_unionNames, hfound d]
        simp [or_and_right, exists_or, or_assoc]
      have hparts' : ∀ p ∈ parts ++ [(child, (visit state.2 child).1)], P p.1 p.2 := by
        simp only [List.forall_mem_append, List.forall_mem_singleton]
        exact ⟨hparts, hbelow⟩
      obtain ⟨parts', hnames, hall, hjoins, hsettles, hgrows'⟩ := ih hrest hparts' hjoined hnext
      exact ⟨parts', by simpa using hnames, hall, hjoins, hsettles,
        fun n hn => hgrows' n (hgrows n hn)⟩

/-- **What holds of all that is collected**, on any graph: a property that the empty list has for a
node on a cycle, and that passes from the children of a node to the node. The nodes that are being
visited all lie above the present one, so there is fuel left whenever a new node is met. -/
theorem collect_spec {c : Graph} (hcycle : ∀ node, TransGen c.Edge node node → P node [])
    (hstep : ∀ node parts found, parts.map Prod.fst = c.neighbours node →
      (∀ p ∈ parts, P p.1 p.2) → Joins found parts → P node found)
    (fuel : ℕ) {visiting : List Name} {finished : Graph} {node : Name}
    (hfinished : Settles P finished) (hvisiting : Above c visiting node)
    (hfuel : c.nodes.length + 1 ≤ fuel + visiting.length) :
    Collected P node finished (collect c fuel visiting finished node) ∧
      (node ∉ visiting → node ∈ Table.keys (collect c fuel visiting finished node).2) := by
  have hlength := hvisiting.length_le
  induction fuel generalizing visiting finished node with
  | zero => omega
  | succ fuel ih =>
      rw [collect_succ]
      cases hknown : finished.get? node with
      | some known =>
          exact ⟨⟨hfinished node known hknown, hfinished, fun _ h => h⟩,
            fun _ => Table.mem_keys_iff.mpr ⟨known, hknown⟩⟩
      | none =>
          by_cases hmet : node ∈ visiting
          · simp only [List.contains_iff_mem.mpr hmet, if_true]
            exact ⟨⟨hcycle node (hvisiting.above node hmet).2, hfinished, fun _ h => h⟩,
              fun h => absurd hmet h⟩
          · have hcontains : visiting.contains node = false := by simpa using hmet
            simp only [hcontains, Bool.false_eq_true, if_false]
            have hchild : ∀ child ∈ c.neighbours node, ∀ finished, Settles P finished →
                Collected P child finished (collect c fuel (node :: visiting) finished child) := by
              intro child hedge finished hfinished
              have hnext := hvisiting.child hmet hedge
              have hfuel' : c.nodes.length + 1 ≤ fuel + (node :: visiting).length := by
                simp only [List.length_cons]
                omega
              exact (ih hfinished hnext hfuel' hnext.length_le).1
            have hstart : Joins ([], finished).1 [] := by simp [Joins]
            obtain ⟨parts, hnames, hparts, hjoins, hsettles, hgrows⟩ :=
              joins_foldl_gather hchild (by simp) hstart hfinished
            have hfound := hstep node parts _ (by simpa using hnames) hparts hjoins
            exact ⟨⟨hfound, hsettles.insert hfound,
              fun n hn => Table.mem_keys_insert.mpr (.inr (hgrows n hn))⟩,
              fun _ => Table.mem_keys_insert.mpr (.inl rfl)⟩

/-- Going through the nodes one after the other collects a list for each of them. -/
lemma settles_descendants {c : Graph} (hcycle : ∀ node, TransGen c.Edge node node → P node [])
    (hstep : ∀ node parts found, parts.map Prod.fst = c.neighbours node →
      (∀ p ∈ parts, P p.1 p.2) → Joins found parts → P node found) :
    Settles P c.descendants ∧ ∀ node ∈ c.keys, node ∈ Table.keys c.descendants := by
  have hfold : ∀ (rest : List Name), (∀ node ∈ rest, node ∈ c.nodes) →
      ∀ finished, Settles P finished →
      Settles P (rest.foldl
        (fun finished node => (collect c (c.nodes.length + 1) [] finished node).2) finished) ∧
      ∀ node, node ∈ finished.keys ∨ node ∈ rest → node ∈ Table.keys (rest.foldl
        (fun finished node => (collect c (c.nodes.length + 1) [] finished node).2) finished) := by
    intro rest
    induction rest with
    | nil => exact fun _ finished h => ⟨h, fun node hnode => by simpa using hnode⟩
    | cons node rest ih =>
        intro hrest finished hfinished
        obtain ⟨hnode, hrest⟩ := List.forall_mem_cons.mp hrest
        obtain ⟨hcollected, hnew⟩ := collect_spec hcycle hstep (c.nodes.length + 1) hfinished
          ⟨List.nodup_nil, hnode, by simp⟩ (by simp)
        obtain ⟨hsettles, hkeys⟩ := ih hrest _ hcollected.settles
        refine ⟨hsettles, fun n hn => hkeys n ?_⟩
        rcases hn with hold | hn
        · exact .inl (hcollected.grows n hold)
        · rcases List.mem_cons.mp hn with rfl | hn
          · exact .inl (hnew (by simp))
          · exact .inr hn
  have hempty : Settles P Table.empty := fun node found h => by simp at h
  obtain ⟨hsettles, hkeys⟩ := hfold c.keys (fun node => mem_nodes_of_key) _ hempty
  exact ⟨hsettles, fun node hnode => hkeys node (.inr hnode)⟩

end

/-! ## Exactness -/

/-- What joins children and nodes below them lies below. -/
lemma below_of_joins {c : Graph} {node : Name} {parts : List (Name × List Name)}
    {found : List Name} (hnames : parts.map Prod.fst = c.neighbours node)
    (hparts : ∀ p ∈ parts, ∀ d ∈ p.2, TransGen c.Edge d p.1) (hjoins : Joins found parts)
    {d : Name} (hd : d ∈ found) : TransGen c.Edge d node := by
  obtain ⟨⟨child, below⟩, hp, hd⟩ := (hjoins d).mp hd
  have hedge : c.Edge child node := by
    rw [Edge, ← hnames]
    exact List.mem_map_of_mem hp
  rcases hd with rfl | hd
  · exact .single hedge
  · exact .tail (hparts _ hp d hd) hedge

/-- What lies below a node is its children and what lies below them. -/
lemma mem_iff_of_joins {c : Graph} {node : Name} {parts : List (Name × List Name)}
    {found : List Name} (hnames : parts.map Prod.fst = c.neighbours node)
    (hparts : ∀ p ∈ parts, ∀ d, d ∈ p.2 ↔ TransGen c.Edge d p.1) (hjoins : Joins found parts)
    (d : Name) : d ∈ found ↔ TransGen c.Edge d node := by
  constructor
  · exact below_of_joins hnames (fun p hp d => (hparts p hp d).mp) hjoins
  · intro hbelow
    rw [hjoins d]
    obtain ⟨child, hchild, hedge⟩ := TransGen.tail'_iff.mp hbelow
    rw [Edge, ← hnames] at hedge
    obtain ⟨⟨child, below⟩, hp, rfl⟩ := List.mem_map.mp hedge
    refine ⟨_, hp, ?_⟩
    rcases reflTransGen_iff_eq_or_transGen.mp hchild with heq | htrans
    · exact .inl heq.symm
    · exact .inr ((hparts _ hp d).mpr htrans)

/-- **On an acyclic graph of children the collection is exact.** -/
theorem mem_descendants {c : Graph} (hc : c.Acyclic) {d node : Name} :
    d ∈ c.descendants.neighbours node ↔ TransGen c.Edge d node := by
  obtain ⟨hsettles, hkeys⟩ := settles_descendants
    (P := fun node found => ∀ d, d ∈ found ↔ TransGen c.Edge d node)
    (fun node hcycle => absurd hcycle (hc node))
    fun node parts found hnames hparts hjoins => mem_iff_of_joins hnames hparts hjoins
  unfold neighbours Table.getD
  cases hget : Table.get? c.descendants node with
  | some found => exact hsettles node found hget d
  | none =>
      refine iff_of_false (by simp) fun hbelow => ?_
      have hentry : node ∈ c.keys := by
        obtain ⟨child, -, hedge⟩ := TransGen.tail'_iff.mp hbelow
        exact List.mem_map.mpr ⟨_, mem_entries_of_edge hedge, rfl⟩
      exact Table.get?_eq_none_iff.mp hget (hkeys node hentry)

/-- The descendants of a node of an acyclic graph of parents. -/
theorem mem_descendants_children {g : Graph} (hg : g.Acyclic) {d node : Name} :
    d ∈ g.children.descendants.neighbours node ↔ TransGen g.Edge node d := by
  rw [mem_descendants hg.children, transGen_children]

end Graph

end CausalEquations
