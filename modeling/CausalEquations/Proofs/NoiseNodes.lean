import CausalEquations.Proofs.CausalOrder
import CausalEquations.Proofs.NameOrder
import CausalEquations.Proofs.NoiseNames
import CausalEquations.Sampling

/-!
# Graphs with noise nodes

Noise nodes are added to a graph without changing what it says about other nodes: the old edges
stay, every variable gets one more parent, and the new nodes have none.

* `Graph.IsCausalOrder.filter_nodes` — a causal order of a graph holds one of every part of it.
* `NoisyGraph.edge_ofGraph_iff`, `NoisyGraph.keys_ofGraph` — the edges and the entries.
* `NoisyGraph.noiseNodes_ofGraph`, `NoisyGraph.rootNodes_ofGraph` — the noise nodes and the roots.
* `NoisyGraph.isCausalOrder_plain` — a causal order without its noise nodes is a causal order of the
  old graph.
-/

namespace CausalEquations

/-! ## Edges and entries -/

namespace Graph

/-- The roots, read from the neighbours of the entries. -/
lemma rootNodes_eq (g : Graph) :
    rootNodes g = g.keys.filter fun node => !isNoise node && (g.neighbours node).all isNoise := by
  rw [rootNodes, Table.keys, List.filter_map]
  refine congrArg _ (List.filter_congr fun e he => ?_)
  rw [Function.comp_apply, neighbours_of_mem_entries he]

/-- **A causal order of a graph holds one of every part of it.** -/
lemma IsCausalOrder.filter_nodes {g g' : Graph} {order : List Name} (h : g.IsCausalOrder order)
    (hnodes : ∀ node ∈ g'.nodes, node ∈ g.nodes)
    (hedges : ∀ parent child, g'.Edge parent child → g.Edge parent child) :
    g'.IsCausalOrder (order.filter fun node => node ∈ g'.nodes) := by
  refine ⟨h.nodup.filter _, fun node => ?_, fun before node after hsplit parent hedge => ?_⟩
  · rw [List.mem_filter, h.mem_iff, decide_eq_true_iff]
    exact ⟨fun hnode => hnode.2, fun hnode => ⟨hnodes node hnode, hnode⟩⟩
  · obtain ⟨front, back, rfl, rfl, hback⟩ := List.filter_eq_append_iff.mp hsplit
    obtain ⟨skipped, rest, rfl, hskipped, -, -⟩ := List.filter_eq_cons_iff.mp hback
    have hparent := h.parents_before (front ++ skipped) node rest (by simp) parent
      (hedges parent node hedge)
    have hkept : parent ∈ g'.nodes := parent_mem_nodes hedge
    rcases List.mem_append.mp hparent with hfront | hgap
    · exact List.mem_filter.mpr ⟨hfront, decide_eq_true hkept⟩
    · exact absurd (decide_eq_true hkept) (hskipped parent hgap)

end Graph

namespace NoisyGraph

open CausalEquations.Graph

lemma neighbours_map (g : Graph) (f : List Name → List Name) (hf : f [] = []) (node : Name) :
    neighbours (g.map fun _ parents => f parents) node = f (g.neighbours node) := by
  simp only [neighbours, Table.getD, Table.get?_map]
  cases Table.get? g node with
  | none => exact hf.symm
  | some parents => rfl

lemma mem_neighbours_foldl_withNoise {nodes : List Name} {g : Graph} {x child : Name} :
    x ∈ neighbours (nodes.foldl withNoise g) child ↔
      x ∈ g.neighbours child ∨ (child ∈ nodes ∧ Plain child ∧ x = noiseId child) := by
  induction nodes generalizing g with
  | nil => simp
  | cons node rest ih =>
      have hstep : x ∈ neighbours (withNoise g node) child ↔
          x ∈ g.neighbours child ∨ (child = node ∧ Plain child ∧ x = noiseId child) := by
        unfold withNoise
        by_cases hnoise : isNoise node = true
        · rw [if_pos hnoise, neighbours_insertIfNew]
          refine (or_iff_left ?_).symm
          rintro ⟨rfl, hplain, -⟩
          rw [hplain] at hnoise
          cases hnoise
        · rw [if_neg hnoise, mem_neighbours_addNeighbour]
          refine or_congr_right ⟨?_, ?_⟩
          · rintro ⟨rfl, rfl⟩
            exact ⟨rfl, Bool.eq_false_of_not_eq_true hnoise, rfl⟩
          · rintro ⟨rfl, -, rfl⟩
            exact ⟨rfl, rfl⟩
      rw [List.foldl_cons, ih, hstep, List.mem_cons]
      tauto

lemma neighbours_foldl_insertIfNew (nodes : List Name) (g : Graph) (node : Name) :
    neighbours (nodes.foldl (fun g n => g.insertIfNew n []) g) node = g.neighbours node := by
  induction nodes generalizing g with
  | nil => rfl
  | cons first rest ih => rw [List.foldl_cons, ih, neighbours_insertIfNew]

/-- The old edges, and one from the noise node of each variable. -/
theorem edge_ofGraph_iff {g : Graph} {names : List Name} {x child : Name} :
    (ofGraph g names).graph.Edge x child ↔
      g.Edge x child ∨ ((child ∈ g.keys ∨ child ∈ names) ∧ Plain child ∧ x = noiseId child) := by
  unfold Edge
  simp only [ofGraph, neighbours_foldl_insertIfNew, mem_neighbours_foldl_withNoise,
    neighbours_map g List.eraseDups rfl, List.mem_eraseDups, List.mem_append]

lemma keys_foldl_withNoise {nodes : List Name} {g : Graph} (hsub : nodes ⊆ g.keys) :
    Table.keys (nodes.foldl withNoise g) = g.keys := by
  induction nodes generalizing g with
  | nil => rfl
  | cons node rest ih =>
      obtain ⟨hnode, hrest⟩ := List.cons_subset.mp hsub
      have hstep : Table.keys (withNoise g node) = g.keys := by
        unfold withNoise
        split
        · rw [Table.keys_insertIfNew, if_pos hnode]
        · rw [addNeighbour, Table.keys_insert, if_pos hnode]
      rw [List.foldl_cons, ih (by rwa [hstep]), hstep]

/-- New entries stand behind the old ones. -/
lemma keys_foldl_insertIfNew (nodes : List Name) (g : Graph) :
    ∃ extra, extra ⊆ nodes ∧
      Table.keys (nodes.foldl (fun g n => g.insertIfNew n []) g) = g.keys ++ extra := by
  induction nodes generalizing g with
  | nil => exact ⟨[], by simp, by simp⟩
  | cons first rest ih =>
      obtain ⟨extra, hsub, hkeys⟩ := ih (g.insertIfNew first [])
      rw [List.foldl_cons, hkeys, Table.keys_insertIfNew]
      split
      · exact ⟨extra, fun x hx => List.mem_cons_of_mem _ (hsub hx), rfl⟩
      · exact ⟨first :: extra, List.cons_subset_cons first hsub, by simp⟩

section

variable {g : Graph} {names : List Name} (hplain : ∀ node ∈ g.nodes, Plain node)
  (hnames : names ⊆ g.keys)

include hnames

lemma keys_append_names : g.keys ++ names.eraseDups ⊆ g.keys := by
  intro node hnode
  rcases List.mem_append.mp hnode with h | h
  · exact h
  · exact hnames (List.mem_eraseDups.mp h)

include hplain

/-- Every entry of the graph has its noise node, in the order of the entries. -/
theorem noiseNodes_ofGraph : (ofGraph g names).noiseNodes = g.keys.map noiseId := by
  have htargets : (g.keys ++ names.eraseDups).eraseDups = g.keys :=
    eraseDups_append_of_subset g.nodup fun node hnode => hnames (List.mem_eraseDups.mp hnode)
  have hall : g.keys.filter (fun node => !isNoise node) = g.keys :=
    List.filter_eq_self.mpr fun node hnode => by
      have hmark : isNoise node = false := hplain node (mem_nodes_of_key hnode)
      simp [hmark]
  simp only [ofGraph, htargets, hall]

/-- The old entries, and noise nodes behind them. -/
theorem keys_ofGraph : ∃ extra, (∀ node ∈ extra, isNoise node = true) ∧
    (ofGraph g names).graph.keys = g.keys ++ extra := by
  obtain ⟨extra, hsub, hkeys⟩ := keys_foldl_insertIfNew (sortedNames (ofGraph g names).noiseNodes)
    ((g.keys ++ names.eraseDups).foldl withNoise (g.map fun _ parents => parents.eraseDups))
  refine ⟨extra, fun node hnode => ?_, ?_⟩
  · have hmem := mem_sortedNames.mp (hsub hnode)
    rw [noiseNodes_ofGraph hplain hnames] at hmem
    obtain ⟨target, -, rfl⟩ := List.mem_map.mp hmem
    exact isNoise_noiseId target
  · have hsub' : g.keys ++ names.eraseDups ⊆
        Table.keys (g.map fun _ parents => parents.eraseDups) := by
      rw [Table.keys_map]
      exact keys_append_names hnames
    rw [keys_foldl_withNoise hsub', Table.keys_map] at hkeys
    exact hkeys

/-- The plain nodes are those of the graph. -/
lemma mem_nodes_ofGraph {node : Name} (hnode : Plain node) :
    node ∈ (ofGraph g names).graph.nodes ↔ node ∈ g.nodes := by
  obtain ⟨extra, hextra, hkeys⟩ := keys_ofGraph hplain hnames
  have hout : ∀ {other}, isNoise other = true → node ≠ other := by
    rintro other hother rfl
    rw [hnode] at hother
    cases hother
  rw [mem_nodes_iff, mem_nodes_iff, hkeys, List.mem_append,
    or_iff_left fun h => hout (hextra node h) rfl]
  refine or_congr_right (exists_congr fun child => ?_)
  rw [edge_ofGraph_iff, or_iff_left]
  rintro ⟨-, -, heq⟩
  exact hout (isNoise_noiseId child) heq

/-- The roots are the entries without parents, in the order of the entries. -/
theorem rootNodes_ofGraph :
    rootNodes (ofGraph g names).graph = g.keys.filter fun node => (g.neighbours node).isEmpty := by
  obtain ⟨extra, hextra, hkeys⟩ := keys_ofGraph hplain hnames
  have hnone : extra.filter (fun node => !isNoise node &&
      ((ofGraph g names).graph.neighbours node).all isNoise) = [] :=
    List.filter_eq_nil_iff.mpr fun node hnode => by simp [hextra node hnode]
  rw [rootNodes_eq, hkeys, List.filter_append, hnone, List.append_nil]
  refine List.filter_congr fun node hnode => Bool.eq_iff_iff.mpr ?_
  have hnoise : isNoise node = false := hplain node (mem_nodes_of_key hnode)
  simp only [hnoise, Bool.not_false, Bool.true_and, List.all_eq_true, List.isEmpty_iff]
  constructor
  · intro hall
    refine List.eq_nil_iff_forall_not_mem.mpr fun parent hparent => ?_
    have hedge : g.Edge parent node := hparent
    have hmark := hall parent (edge_ofGraph_iff.mpr (.inl hedge))
    rw [hplain parent (parent_mem_nodes hedge)] at hmark
    cases hmark
  · intro hempty parent hparent
    rcases edge_ofGraph_iff.mp hparent with hedge | ⟨-, -, rfl⟩
    · rw [Edge, hempty] at hedge
      cases hedge
    · exact isNoise_noiseId node

/-- **Noise nodes can be left out of a causal order**, and what remains is one of the old graph. -/
theorem isCausalOrder_plain {order : List Name}
    (horder : (ofGraph g names).graph.IsCausalOrder order) :
    g.IsCausalOrder (order.filter fun node => !isNoise node) := by
  have hfilter : (order.filter fun node => !isNoise node) =
      order.filter fun node => node ∈ g.nodes := by
    refine List.filter_congr fun node hnode => Bool.eq_iff_iff.mpr ?_
    rw [Bool.not_eq_true', decide_eq_true_iff]
    refine ⟨fun hmark => ?_, hplain node⟩
    exact (mem_nodes_ofGraph hplain hnames hmark).mp ((horder.mem_iff node).mp hnode)
  rw [hfilter]
  refine horder.filter_nodes (fun node hnode => ?_) fun parent child hedge => ?_
  · exact (mem_nodes_ofGraph hplain hnames (hplain node hnode)).mpr hnode
  · exact edge_ofGraph_iff.mpr (.inl hedge)

end

end NoisyGraph

end CausalEquations
