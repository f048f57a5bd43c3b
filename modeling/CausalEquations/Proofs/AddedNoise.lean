import CausalEquations.Proofs.NoiseMarks
import CausalEquations.Proofs.ParentSets

/-!
# What noise nodes add to a graph

Giving every variable its noise node adds one parent to each of them and nothing else: the noise
nodes have no parents, and when they are deleted the graph is as it was, but for entries of the
listed variables that had none. So there is a causal order exactly if there was one, and a second
addition finds every noise node in place.

* `Graph.withEntries` — a graph with entries for certain names.
* `NoisyGraph.AddsNoise`, `NoisyGraph.addsNoise_ofGraph` — what is added.
* `NoisyGraph.IsSame`, `NoisyGraph.isSame_ofGraph_again` — noise nodes are added once.
* `NoisyGraph.ofGraph_extends` — all this, and the causal orders before and after.
-/

namespace CausalEquations

/-! ## Entries that are added -/

section

variable {β : Type}

/-- Names that a table does not have go to its end, each once. -/
lemma Table.keys_foldl_of_step {step : Table β → Name → Table β}
    (hstep : ∀ t name, (step t name).keys = if name ∈ t.keys then t.keys else t.keys ++ [name])
    (names : List Name) (t : Table β) :
    (names.foldl step t).keys = (t.keys ++ names).eraseDups := by
  induction names generalizing t with
  | nil =>
      rw [List.foldl_nil, List.append_nil]
      exact (eraseDups_of_nodup t.nodup).symm
  | cons name rest ih =>
      rw [List.foldl_cons, ih, hstep]
      split
      · rename_i hname
        have hold : (name :: rest).removeAll t.keys = rest.removeAll t.keys :=
          List.filter_cons_of_neg (by simpa using hname)
        rw [List.eraseDups_append, List.eraseDups_append, hold]
      · rw [List.append_assoc, List.singleton_append]

/-- A table stays as it is if a name gets the value that it has. -/
lemma Table.insert_getD_self {t : Table β} {name : Name} (hname : name ∈ t.keys) (fallback : β) :
    t.insert name (t.getD name fallback) = t := by
  obtain ⟨value, hvalue⟩ := Table.mem_keys_iff.mp hname
  refine Table.eq_of_get? ?_ fun other => ?_
  · rw [Table.keys_insert, if_pos hname]
  · rw [Table.get?_insert]
    split
    · rename_i heq
      rw [← heq, Table.getD, hvalue, Option.getD_some]
    · rfl

end

namespace Graph

variable {g g' : Graph}

/-- The graph with an entry for each of the names, without parents where there was none. -/
def withEntries (g : Graph) (names : List Name) : Graph :=
  names.foldl (fun g node => g.insertIfNew node []) g

lemma keys_withEntries (g : Graph) (names : List Name) :
    (g.withEntries names).keys = (g.keys ++ names).eraseDups :=
  Table.keys_foldl_of_step (fun t name => Table.keys_insertIfNew t name []) names g

lemma mem_keys_withEntries {names : List Name} {node : Name} :
    node ∈ (g.withEntries names).keys ↔ node ∈ g.keys ∨ node ∈ names := by
  rw [keys_withEntries, List.mem_eraseDups, List.mem_append]

lemma edge_withEntries {names : List Name} {parent child : Name} :
    (g.withEntries names).Edge parent child ↔ g.Edge parent child := by
  rw [Edge, Edge, withEntries, NoisyGraph.neighbours_foldl_insertIfNew]

lemma mem_nodes_withEntries {names : List Name} {node : Name} :
    node ∈ (g.withEntries names).nodes ↔ node ∈ g.nodes ∨ node ∈ names := by
  simp only [mem_nodes_iff, mem_keys_withEntries, edge_withEntries]
  tauto

lemma exists_order_iff : (∃ order, g.order = .ok order) ↔ g.Acyclic :=
  ⟨fun ⟨_, horder⟩ => (isCausalOrder_of_order horder).acyclic, exists_order_of_acyclic⟩

end Graph

/-! ## What noise nodes add -/

namespace NoisyGraph

open CausalEquations.Graph Relation

/-- The noisy graph has the noise nodes of the entries and of the listed names, and otherwise only
what the graph has: deleting them leaves the old entries, and empty ones for the other names. -/
structure AddsNoise (g : Graph) (names : List Name) (noisy : NoisyGraph) : Prop where
  mem_noiseNodes : ∀ node, node ∈ noisy.noiseNodes ↔
    ∃ v, (v ∈ g.keys ∨ v ∈ names) ∧ noiseId v = node
  mem_members : ∀ node, node ∈ noisy.members ↔ node ∈ names ∨ node ∈ noisy.noiseNodes
  /-- One parent is new, and the others are the old ones. -/
  neighbours_eq : ∀ v, v ∈ g.keys ∨ v ∈ names →
    noisy.graph.neighbours v = (g.neighbours v).eraseDups ++ [noiseId v] ∧
      noiseId v ∉ g.neighbours v
  get?_noiseNode : ∀ node ∈ noisy.noiseNodes, noisy.graph.get? node = some []
  sameParents : (noisy.graph.without noisy.noiseNodes).SameParents (g.withEntries names)

/-- The same graph with the same noise nodes, and the same set of variables. -/
structure IsSame (noisy noisy' : NoisyGraph) : Prop where
  graph_eq : noisy.graph = noisy'.graph
  noiseNodes_eq : noisy.noiseNodes = noisy'.noiseNodes
  mem_members_iff : ∀ node, node ∈ noisy.members ↔ node ∈ noisy'.members

/-- A noise node is a new parent once, however often it is added. -/
lemma neighbours_foldl_withNoise {nodes : List Name} {g : Graph} {child : Name}
    (hchild : Plain child) (hnew : noiseId child ∉ g.neighbours child) :
    neighbours (nodes.foldl withNoise g) child =
      g.neighbours child ++ if child ∈ nodes then [noiseId child] else [] := by
  induction nodes using List.reverseRecOn with
  | nil => simp
  | append_singleton nodes node ih =>
      rw [List.foldl_append, List.foldl_cons, List.foldl_nil]
      by_cases hnode : child = node
      · subst hnode
        have hmark : ¬ isNoise child = true := by simpa [Plain] using hchild
        rw [withNoise, if_neg hmark, addNeighbour, neighbours_insert, if_pos rfl, ih]
        by_cases hseen : child ∈ nodes <;> simp [hseen, hnew]
      · have hother : neighbours (withNoise (nodes.foldl withNoise g) node) child =
            neighbours (nodes.foldl withNoise g) child := by
          unfold withNoise
          split
          · exact neighbours_insertIfNew _ _ _
          · rw [addNeighbour, neighbours_insert, if_neg (Ne.symm hnode)]
        simp [hother, ih, hnode]

lemma keys_withNoise (g : Graph) (node : Name) :
    (withNoise g node).keys = if node ∈ g.keys then g.keys else g.keys ++ [node] := by
  unfold withNoise
  split
  · exact Table.keys_insertIfNew g node []
  · exact Table.keys_insert g node _

/-! ### Adding noise nodes again -/

/-- Where the noise node stands already, nothing is added. -/
lemma withNoise_eq_self {g : Graph} {node : Name} (hnode : node ∈ g.keys)
    (hnoise : Plain node → noiseId node ∈ g.neighbours node) : withNoise g node = g := by
  unfold withNoise
  split
  · rw [Table.insertIfNew, if_pos ((Table.contains_iff_mem_keys g node).mpr hnode)]
  · rename_i hmark
    have hmem := hnoise (Bool.eq_false_of_not_eq_true hmark)
    rw [addNeighbour, if_pos (List.contains_iff_mem.mpr hmem)]
    exact Table.insert_getD_self hnode []

lemma map_eraseDups_eq_self {g : Graph} (h : g.ListsOnce) :
    (g.map fun _ parents => parents.eraseDups) = g := by
  refine Table.eq_of_get? (Table.keys_map g _) fun node => ?_
  rw [Table.get?_map]
  cases hget : Table.get? g node with
  | none => rfl
  | some parents =>
      have hparents : g.neighbours node = parents := by
        rw [neighbours, Table.getD, hget, Option.getD_some]
      rw [Option.map_some, eraseDups_of_nodup (hparents ▸ h node)]

/-- No parent is listed twice in a graph with noise nodes. -/
lemma listsOnce_ofGraph (g : Graph) (names : List Name) : (ofGraph g names).graph.ListsOnce := by
  have hold : ListsOnce (g.map fun _ parents => parents.eraseDups) := fun node => by
    rw [neighbours_map g List.eraseDups rfl]
    exact nodup_eraseDups _
  have hfed : ListsOnce ((g.keys ++ names.eraseDups).foldl withNoise
      (g.map fun _ parents => parents.eraseDups)) := by
    refine List.foldlRecOn (motive := ListsOnce) _ _ hold fun t ht node _ => ?_
    unfold withNoise
    split
    · exact fun other => (neighbours_insertIfNew t node other).symm ▸ ht other
    · exact ht.addNeighbour node (noiseId node)
  intro node
  rw [ofGraph, neighbours_foldl_insertIfNew]
  exact hfed node

/-- Noise nodes are not added where they stand already. -/
lemma isSame_of_closed {noisy : NoisyGraph} {names : List Name} (honce : noisy.graph.ListsOnce)
    (hnames : ∀ v, v ∈ names ↔ v ∈ noisy.members) (hmembers : ∀ v ∈ names, v ∈ noisy.graph.keys)
    (hnoise : ∀ v ∈ noisy.graph.keys, Plain v → noiseId v ∈ noisy.graph.neighbours v)
    (htargets : (noisy.graph.keys.filter fun v => !isNoise v).map noiseId = noisy.noiseNodes)
    (hnodes : ∀ node ∈ noisy.noiseNodes, node ∈ noisy.graph.keys ∧ node ∈ noisy.members) :
    (ofGraph noisy.graph names).IsSame noisy := by
  have hkeys : (noisy.graph.keys ++ names.eraseDups).eraseDups = noisy.graph.keys :=
    eraseDups_append_of_subset noisy.graph.nodup fun v hv => hmembers v (List.mem_eraseDups.mp hv)
  have hnoiseNodes : (ofGraph noisy.graph names).noiseNodes = noisy.noiseNodes := by
    rw [← htargets, ofGraph, hkeys]
  have hfed : (noisy.graph.keys ++ names.eraseDups).foldl withNoise noisy.graph = noisy.graph := by
    refine List.foldlRecOn (motive := (· = noisy.graph)) _ _ rfl fun t ht v hv => ?_
    rw [ht]
    have hkey : v ∈ noisy.graph.keys := by
      rw [← hkeys]
      exact List.mem_eraseDups.mpr hv
    exact withNoise_eq_self hkey (hnoise v hkey)
  have hgraph : (ofGraph noisy.graph names).graph =
      (sortedNames noisy.noiseNodes).foldl (fun g node => g.insertIfNew node [])
        ((noisy.graph.keys ++ names.eraseDups).foldl withNoise
          (noisy.graph.map fun _ parents => parents.eraseDups)) := by
    rw [← hnoiseNodes]
    rfl
  refine ⟨?_, hnoiseNodes, fun v => ?_⟩
  · rw [hgraph, map_eraseDups_eq_self honce, hfed]
    refine List.foldlRecOn (motive := (· = noisy.graph)) _ _ rfl fun t ht node hnode => ?_
    have hkey := (hnodes node (mem_sortedNames.mp hnode)).1
    rw [ht, Table.insertIfNew, if_pos ((Table.contains_iff_mem_keys _ node).mpr hkey)]
  · have hlisted : v ∈ (ofGraph noisy.graph names).members ↔ v ∈ names ∨ v ∈ noisy.noiseNodes := by
      rw [← hnoiseNodes, ofGraph, List.mem_eraseDups, List.mem_append, List.mem_eraseDups]
    rw [hlisted, hnames]
    exact or_iff_left_of_imp fun h => (hnodes v h).2

section

variable {g : Graph} {names : List Name}

/-! ### The entries -/

/-- An entry has the same place whether the names are listed once or more often. -/
lemma eraseDups_append_eraseDups (l l' : List Name) :
    (l ++ l'.eraseDups).eraseDups = (l ++ l').eraseDups := by
  have hfilter : l'.eraseDups.removeAll l = (l'.removeAll l).eraseDups :=
    (eraseDups_filter (fun a => !l.elem a) l').symm
  rw [List.eraseDups_append, List.eraseDups_append, hfilter, eraseDups_of_nodup (nodup_eraseDups _)]

lemma noiseId_not_mem_nodes (hplain : ∀ node ∈ g.nodes, Plain node) (v : Name) :
    noiseId v ∉ g.nodes := fun hmem => by
  have hmark := hplain _ hmem
  rw [Plain, isNoise_noiseId] at hmark
  cases hmark

variable (hplain : ∀ node ∈ g.nodes, Plain node) (hnames : ∀ name ∈ names, Plain name)

include hplain hnames

lemma plain_of_mem_entries {v : Name} (hv : v ∈ (g.withEntries names).keys) : Plain v := by
  exact (mem_keys_withEntries.mp hv).elim (fun h => hplain v (mem_nodes_of_key h)) (hnames v)

/-- None of the entries is that of a noise node. -/
lemma filter_entries : (g.withEntries names).keys.filter (fun node => !isNoise node) =
    (g.withEntries names).keys :=
  List.filter_eq_self.mpr fun node hnode => by
    have hmark : isNoise node = false := plain_of_mem_entries hplain hnames hnode
    rw [hmark, Bool.not_false]

/-- The noise nodes are those of the entries, in their order. -/
lemma noiseNodes_eq : (ofGraph g names).noiseNodes = (g.withEntries names).keys.map noiseId := by
  have htargets : (g.keys ++ names.eraseDups).eraseDups = (g.withEntries names).keys := by
    rw [eraseDups_append_eraseDups, keys_withEntries]
  simp only [ofGraph, htargets, filter_entries hplain hnames]

lemma not_mem_noiseNodes_of_entry {v : Name} (hv : v ∈ (g.withEntries names).keys) :
    v ∉ (ofGraph g names).noiseNodes :=
  fun hnoise => not_plain_of_mem_noiseNodes hnoise (plain_of_mem_entries hplain hnames hv)

/-- The entries of the graph, then those of the listed names, then the noise nodes. -/
lemma keys_eq : (ofGraph g names).graph.keys =
    (g.withEntries names).keys ++ sortedNames (ofGraph g names).noiseNodes := by
  have hfed : ((g.keys ++ names.eraseDups).foldl withNoise
      (g.map fun _ parents => parents.eraseDups)).keys = (g.withEntries names).keys := by
    have hself : (g.keys ++ names.eraseDups).removeAll g.keys =
        names.eraseDups.removeAll g.keys := by
      simp [List.removeAll]
    rw [Table.keys_foldl_of_step keys_withNoise, Table.keys_map, List.eraseDups_append, hself,
      ← List.eraseDups_append, eraseDups_append_eraseDups, keys_withEntries]
  have hnodup : ((g.withEntries names).keys ++ sortedNames (ofGraph g names).noiseNodes).Nodup := by
    refine List.nodup_append.mpr ⟨(g.withEntries names).nodup, ?_, ?_⟩
    · rw [(sortedNames_perm _).nodup_iff, noiseNodes_eq hplain hnames]
      exact (g.withEntries names).nodup.map noiseId_injective
    · rintro v hv node hnode rfl
      exact not_mem_noiseNodes_of_entry hplain hnames hv (mem_sortedNames.mp hnode)
  have hkeys : (ofGraph g names).graph.keys = (((g.keys ++ names.eraseDups).foldl withNoise
      (g.map fun _ parents => parents.eraseDups)).keys ++
        sortedNames (ofGraph g names).noiseNodes).eraseDups :=
    Table.keys_foldl_of_step (fun t node => Table.keys_insertIfNew t node []) _ _
  rw [hkeys, hfed, eraseDups_of_nodup hnodup]

lemma mem_keys_ofGraph {node : Name} : node ∈ (ofGraph g names).graph.keys ↔
    (node ∈ g.keys ∨ node ∈ names) ∨ node ∈ (ofGraph g names).noiseNodes := by
  rw [keys_eq hplain hnames, List.mem_append, mem_sortedNames, mem_keys_withEntries]

/-- Deleting the noise nodes leaves the other entries. -/
lemma keys_without_noiseNodes :
    ((ofGraph g names).graph.without (ofGraph g names).noiseNodes).keys =
      (g.withEntries names).keys := by
  have hkept : (g.withEntries names).keys.filter
      (fun node => !(ofGraph g names).noiseNodes.contains node) = (g.withEntries names).keys :=
    List.filter_eq_self.mpr fun node hnode => by
      simpa using not_mem_noiseNodes_of_entry hplain hnames hnode
  have hdeleted : (sortedNames (ofGraph g names).noiseNodes).filter
      (fun node => !(ofGraph g names).noiseNodes.contains node) = [] :=
    List.filter_eq_nil_iff.mpr fun node hnode => by simpa using mem_sortedNames.mp hnode
  have hfilter : ((ofGraph g names).graph.without (ofGraph g names).noiseNodes).keys =
      (ofGraph g names).graph.keys.filter
        fun node => !(ofGraph g names).noiseNodes.contains node := by
    rw [without, Table.keys_map, Table.keys, Table.keys, Table.filter, List.filter_map]
    rfl
  rw [hfilter, keys_eq hplain hnames, List.filter_append, hkept, hdeleted, List.append_nil]

/-- The parents of a variable are the old ones, each once, and its noise node. -/
lemma neighbours_ofGraph {v : Name} (hv : v ∈ g.keys ∨ v ∈ names) :
    (ofGraph g names).graph.neighbours v = (g.neighbours v).eraseDups ++ [noiseId v] ∧
      noiseId v ∉ g.neighbours v := by
  have hnew : noiseId v ∉ g.neighbours v := fun hedge =>
    noiseId_not_mem_nodes hplain v (parent_mem_nodes hedge)
  have hmem : v ∈ g.keys ++ names.eraseDups := by
    rwa [List.mem_append, List.mem_eraseDups]
  have hmark : Plain v := plain_of_mem_entries hplain hnames (mem_keys_withEntries.mpr hv)
  have hold : neighbours (g.map fun _ parents => parents.eraseDups) v =
      (g.neighbours v).eraseDups := neighbours_map g List.eraseDups rfl v
  refine ⟨?_, hnew⟩
  rw [ofGraph, neighbours_foldl_insertIfNew, neighbours_foldl_withNoise hmark
    (by rwa [hold, List.mem_eraseDups]), hold, if_pos hmem]

/-- **What noise nodes add.** -/
theorem addsNoise_ofGraph : (ofGraph g names).AddsNoise g names where
  mem_noiseNodes node := by
    rw [noiseNodes_eq hplain hnames, List.mem_map]
    exact exists_congr fun v => and_congr_left' mem_keys_withEntries
  mem_members node := by
    simp only [ofGraph, List.mem_eraseDups, List.mem_append]
  neighbours_eq v hv := neighbours_ofGraph hplain hnames hv
  get?_noiseNode node hnode := by
    have hkey : node ∈ (ofGraph g names).graph.keys :=
      (mem_keys_ofGraph hplain hnames).mpr (.inr hnode)
    obtain ⟨parents, hparents⟩ := Table.mem_keys_iff.mp hkey
    have hnone := neighbours_eq_nil_of_mem_noiseNodes hplain hnode
    rw [neighbours, Table.getD, hparents, Option.getD_some] at hnone
    rw [hparents, hnone]
  sameParents := ⟨keys_without_noiseNodes hplain hnames, fun parent child => by
    rw [edge_without_noiseNodes hplain, edge_withEntries]⟩

/-- **Noise nodes are added once.** -/
theorem isSame_ofGraph_again {listing : List Name}
    (hlisting : ∀ v, v ∈ listing ↔ v ∈ (ofGraph g names).members) :
    (ofGraph (ofGraph g names).graph listing).IsSame (ofGraph g names) := by
  have hadds := addsNoise_ofGraph hplain hnames
  have hentry : ∀ node ∈ (ofGraph g names).noiseNodes, node ∈ (ofGraph g names).graph.keys :=
    fun node hnode => (mem_keys_ofGraph hplain hnames).mpr (.inr hnode)
  refine isSame_of_closed (listsOnce_ofGraph g names) hlisting (fun v hv => ?_)
    (fun v hv hmark => ?_) ?_ fun node hnode => ⟨hentry node hnode, (hadds.mem_members node).mpr (.inr hnode)⟩
  · rcases (hadds.mem_members v).mp ((hlisting v).mp hv) with hname | hnoise
    · exact (mem_keys_ofGraph hplain hnames).mpr (.inl (.inr hname))
    · exact hentry v hnoise
  · rcases (mem_keys_ofGraph hplain hnames).mp hv with hv | hnoise
    · rw [(hadds.neighbours_eq v hv).1]
      exact List.mem_append_right _ (List.mem_singleton_self _)
    · exact absurd hmark (not_plain_of_mem_noiseNodes hnoise)
  · have hnone : (sortedNames (ofGraph g names).noiseNodes).filter (fun v => !isNoise v) = [] :=
      List.filter_eq_nil_iff.mpr fun v hv => by
        simpa [Plain] using not_plain_of_mem_noiseNodes (mem_sortedNames.mp hv)
    rw [keys_eq hplain hnames, List.filter_append, filter_entries hplain hnames, hnone,
      List.append_nil, noiseNodes_eq hplain hnames]

/-! ### Causal orders -/

/-- The nodes are those of the graph, the listed names and the noise nodes. -/
lemma mem_nodes_iff_withEntries {node : Name} : node ∈ (ofGraph g names).graph.nodes ↔
    node ∈ (g.withEntries names).nodes ∨ node ∈ (ofGraph g names).noiseNodes := by
  rw [mem_nodes_iff, mem_nodes_iff, mem_keys_ofGraph hplain hnames, mem_keys_withEntries]
  simp only [edge_withEntries, edge_ofGraph_iff]
  constructor
  · rintro ((hkey | hnoise) | ⟨child, hedge | ⟨hchild, hmark, rfl⟩⟩)
    · exact .inl (.inl hkey)
    · exact .inr hnoise
    · exact .inl (.inr ⟨child, hedge⟩)
    · exact .inr (mem_noiseNodes_ofGraph.mpr ⟨child, hchild, hmark, rfl⟩)
  · rintro ((hkey | ⟨child, hedge⟩) | hnoise)
    · exact .inl (.inl hkey)
    · exact .inr ⟨child, .inl hedge⟩
    · exact .inl (.inr hnoise)

lemma not_mem_noiseNodes_of_node {node : Name} (hnode : node ∈ (g.withEntries names).nodes) :
    node ∉ (ofGraph g names).noiseNodes := fun hnoise =>
  (mem_nodes_withEntries.mp hnode).elim (not_mem_nodes_of_mem_noiseNodes hplain hnoise)
    fun hname => not_plain_of_mem_noiseNodes hnoise (hnames node hname)

/-- A causal order without its noise nodes is one of the graph with the entries of the names. -/
lemma isCausalOrder_without_noise {order : List Name}
    (h : (ofGraph g names).graph.IsCausalOrder order) :
    (g.withEntries names).IsCausalOrder
      (order.filter fun node => node ∉ (ofGraph g names).noiseNodes) := by
  have hfilter : (order.filter fun node => node ∉ (ofGraph g names).noiseNodes) =
      order.filter fun node => node ∈ (g.withEntries names).nodes := by
    refine List.filter_congr fun node hnode => decide_eq_decide.mpr ?_
    rw [h.mem_iff, mem_nodes_iff_withEntries hplain hnames] at hnode
    exact ⟨hnode.resolve_right, not_mem_noiseNodes_of_node hplain hnames⟩
  rw [hfilter]
  refine h.filter_nodes (fun node hnode => ?_) fun parent child hedge => ?_
  · exact (mem_nodes_iff_withEntries hplain hnames).mpr (.inl hnode)
  · exact edge_ofGraph_iff.mpr (.inl (edge_withEntries.mp hedge))

/-- **Noise nodes change neither a graph nor its causal orders.** Every entry and every listed name
gets one new parent, its noise node, which has no parents; deleting the noise nodes gives the graph
back, with empty entries for the names that had none. There is a causal order exactly if there was
one. Without its noise nodes it is a causal order of the graph with those entries, and what it lists
of the graph is a causal order of the graph. Adding noise nodes to the result, whose variables may
be listed in any order, changes nothing. -/
theorem ofGraph_extends :
    (ofGraph g names).AddsNoise g names ∧
    ((∃ order, (ofGraph g names).graph.order = .ok order) ↔ ∃ order, g.order = .ok order) ∧
    (∀ order, (ofGraph g names).graph.order = .ok order →
      (g.withEntries names).IsCausalOrder
        (order.filter fun node => node ∉ (ofGraph g names).noiseNodes) ∧
      g.IsCausalOrder (order.filter fun node => node ∈ g.nodes)) ∧
    ∀ listing, (∀ v, v ∈ listing ↔ v ∈ (ofGraph g names).members) →
      (ofGraph (ofGraph g names).graph listing).IsSame (ofGraph g names) := by
  have hedges : ∀ parent child, g.Edge parent child → (ofGraph g names).graph.Edge parent child :=
    fun parent child h => edge_ofGraph_iff.mpr (.inl h)
  refine ⟨addsNoise_ofGraph hplain hnames, ?_, fun order horder => ?_,
    fun listing => isSame_ofGraph_again hplain hnames⟩
  · rw [exists_order_iff, exists_order_iff]
    exact ⟨fun h node hcycle => h node (TransGen.mono hedges node node hcycle),
      fun h => acyclic_ofGraph hplain h names⟩
  · have hcausal := isCausalOrder_of_order horder
    have hnodes : ∀ node ∈ g.nodes, node ∈ (ofGraph g names).graph.nodes := fun node hnode =>
      (mem_nodes_iff_withEntries hplain hnames).mpr (.inl (mem_nodes_withEntries.mpr (.inl hnode)))
    exact ⟨isCausalOrder_without_noise hplain hnames hcausal, hcausal.filter_nodes hnodes hedges⟩

end

/-- `X` is only read, and twice; `W` is only listed. -/
def readTwice : Graph := Table.ofList [("Y", ["X", "X"]), ("Z", ["Y"])]

/-- The noise node of `Y` joins its one parent, and there still is a causal order. -/
theorem ofGraph_extends_readTwice :
    (∀ node ∈ readTwice.nodes, Plain node) ∧ (∀ name ∈ ["W", "Y"], Plain name) ∧
      (ofGraph readTwice ["W", "Y"]).graph.neighbours "Y" = ["X", "noise:Y"] ∧
      ∃ order, (ofGraph readTwice ["W", "Y"]).graph.order = .ok order := by
  have hplain : ∀ node ∈ readTwice.nodes, Plain node := by decide +kernel
  have hnames : ∀ name ∈ ["W", "Y"], Plain name := by decide +kernel
  have hadded : (readTwice.neighbours "Y").eraseDups ++ [noiseId "Y"] = ["X", "noise:Y"] := by
    decide +kernel
  have hacyclic : readTwice.Acyclic := by decide +kernel
  obtain ⟨hadds, horder, -, -⟩ := ofGraph_extends hplain hnames
  refine ⟨hplain, hnames, ?_, horder.mpr (exists_order_of_acyclic hacyclic)⟩
  rw [(hadds.neighbours_eq "Y" (.inr (by decide))).1]
  exact hadded

end NoisyGraph

end CausalEquations
