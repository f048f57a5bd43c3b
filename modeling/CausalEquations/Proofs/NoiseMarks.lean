import CausalEquations.Proofs.ExcludedNodes
import CausalEquations.Proofs.NoiseNodes

/-!
# Marks of a graph with noise nodes

The marks of the edges are determined by the edges and by the controls that stand at some edge: how a
graph lists its nodes and neighbours plays no part in them. A noise node has no parents, so nothing
leads through it, and with the noise nodes excluded a graph has the marks that it has without them.

* `Graph.walks_congr`, `Graph.simplePaths_of_ne` — the paths depend on the neighbours only.
* `Graph.isOpen_congr`, `Graph.changeOf_congr` — what controlling does to a path.
* `Graph.edgeStatus_congr` — the marks of two graphs with the same edges.
* `NoisyGraph.acyclic_ofGraph`, `NoisyGraph.edge_without_noiseNodes` — noise nodes close no cycle,
  and without them the edges are the old ones.
* `NoisyGraph.edgeStatus_ofGraph` — noise nodes do not show in the marks.
-/

namespace CausalEquations

namespace Graph

open Relation

variable {g g' : Graph}

/-! ## Paths -/

/-- The search sees of a graph which neighbours each node has. -/
lemma walks_congr (hg : g.ListsOnce) (hg' : g'.ListsOnce)
    (h : ∀ a b, b ∈ g.neighbours a ↔ b ∈ g'.neighbours a) (goal : Name) (room : ℕ) (node : Name)
    (passed : List Name) : g.walks goal room node passed = g'.walks goal room node passed := by
  induction room generalizing node passed with
  | zero => rw [walks, walks]
  | succ room ih =>
      have hnexts : g.nexts node passed = g'.nexts node passed := by
        rw [nexts, nexts, sortedNames_congr (hg node) (hg' node) (h node)]
      rw [walks, walks, hnexts]
      simp only [ih]

lemma contains_of_mem_neighbours {a b : Name} (h : b ∈ g.neighbours a) : g.contains a = true := by
  rw [Table.contains_iff_mem_keys]
  exact List.mem_map.mpr ⟨_, mem_entries_of_edge h, rfl⟩

/-- A path between two different nodes starts with a step. -/
lemma IsSimplePath.exists_next {limit : ℕ} {start goal : Name} {path : List Name}
    (h : g.IsSimplePath limit start goal path) (hne : start ≠ goal) :
    ∃ next, next ∈ g.neighbours start := by
  obtain ⟨hstarts, hends, hchain, -, -⟩ := h
  match path, hstarts, hends, hchain with
  | [_], hstarts, hends, _ =>
      obtain rfl := Option.some.inj hstarts
      obtain rfl := Option.some.inj hends
      exact absurd rfl hne
  | _ :: next :: _, hstarts, _, hchain =>
      obtain rfl := Option.some.inj hstarts
      exact ⟨next, (List.isChain_cons_cons.mp hchain).1⟩

/-- Between different nodes of an undirected graph nothing is found that an entry has to permit. -/
lemma simplePaths_of_ne (hg : ∀ a b, b ∈ g.neighbours a → a ∈ g.neighbours b) {start goal : Name}
    (hne : start ≠ goal) (search : PathSearch) :
    g.simplePaths start goal search =
      (g.allPaths search.nodeLimit start goal).take search.pathLimit := by
  rw [simplePaths_eq_take]
  split
  · rfl
  · rename_i hmissing
    have hnone : g.allPaths search.nodeLimit start goal = [] := by
      refine List.eq_nil_iff_forall_not_mem.mpr fun path hpath => hmissing ?_
      have hsimple := (mem_allPaths_iff (nodeLimit_pos search)).mp hpath
      obtain ⟨next, hnext⟩ := hsimple.exists_next hne
      obtain ⟨previous, hprevious⟩ := (hsimple.reverse hg).exists_next hne.symm
      rw [contains_of_mem_neighbours hnext, contains_of_mem_neighbours hprevious]
      rfl
    rw [hnone, List.take_nil]

lemma simplePaths_skeleton_congr (h : ∀ a b, g.Edge a b ↔ g'.Edge a b) {x y : Name} (hne : x ≠ y)
    (excluded : List Name) (search : PathSearch) :
    (g.skeleton excluded).simplePaths x y search =
      (g'.skeleton excluded).simplePaths x y search := by
  rw [simplePaths_of_ne (fun _ _ => neighbours_skeleton_comm) hne,
    simplePaths_of_ne (fun _ _ => neighbours_skeleton_comm) hne, allPaths, allPaths,
    walks_congr (listsOnce_skeleton g excluded) (listsOnce_skeleton g' excluded)]
  intro a b
  rw [mem_neighbours_skeleton, mem_neighbours_skeleton, h, h]

/-- A path that is looked at runs between nodes of the graph. -/
lemma mem_nodes_of_mem_searchedPaths {x y : Name} {controls excluded path : List Name}
    {search : PathSearch} (h : path ∈ g.searchedPaths x y controls excluded search) :
    x ∈ g.nodes ∧ y ∈ g.nodes := by
  unfold searchedPaths at h
  split at h
  · rename_i hquestion
    have hne : x ≠ y := by
      simp only [isQuestion, Bool.and_eq_true, Bool.not_eq_true', beq_eq_false_iff_ne] at hquestion
      exact hquestion.1.1.1.2
    have hnode : ∀ {a b}, b ∈ (g.skeleton excluded).neighbours a → a ∈ g.nodes := by
      intro a b hb
      rw [mem_neighbours_skeleton] at hb
      exact hb.2.2.elim parent_mem_nodes child_mem_nodes
    have hsimple := isSimplePath_of_mem_simplePaths h
    obtain ⟨next, hnext⟩ := hsimple.exists_next hne
    obtain ⟨previous, hprevious⟩ :=
      (hsimple.reverse fun _ _ => neighbours_skeleton_comm).exists_next hne.symm
    exact ⟨hnode hnext, hnode hprevious⟩
  · cases h

/-! ## What controlling does -/

/-- There is an edge from or to the node. -/
def AtEdge (g : Graph) (node : Name) : Prop := ∃ other, g.Edge node other ∨ g.Edge other node

/-- The same nodes at edges are controlled. -/
def ControlsAgree (g : Graph) (controls controls' : List Name) : Prop :=
  ∀ c, g.AtEdge c → (c ∈ controls ↔ c ∈ controls')

section

variable {controls controls' path : List Name} (hg : g.Acyclic)
  (hedges : ∀ a b, g.Edge a b ↔ g'.Edge a b) (hcontrols : g.ControlsAgree controls controls')

include hedges

lemma edge_eq : g.Edge = g'.Edge := funext₂ fun a b => propext (hedges a b)

lemma hasEdge_congr (a b : Name) : g.hasEdge a b = g'.hasEdge a b := by
  rw [Bool.eq_iff_iff, hasEdge_iff, hasEdge_iff, hedges]

lemma edgeLabel?_congr (a b : Name) : edgeLabel? g a b = edgeLabel? g' a b := by
  simp only [edgeLabel?, hasEdge_congr hedges]

include hg hcontrols

/-- Whether a path transmits depends on the controls at edges: its interior nodes stand at edges, and
so do their descendants. -/
lemma isOpen_congr (hpath : path.IsChain fun a b => g.Edge a b ∨ g.Edge b a) :
    isOpen g g.children.descendants controls path =
      isOpen g' g'.children.descendants controls' path := by
  have heq := edge_eq hedges
  have hg' : g'.Acyclic := by
    unfold Acyclic
    rw [← heq]
    exact hg
  rw [Bool.eq_iff_iff, isOpen_iff_passes, isOpen_iff_passes]
  refine forall_congr' fun a => forall_congr' fun node => forall_congr' fun b =>
    imp_congr_right fun hplace => ?_
  have hnode : g.AtEdge node := by
    have hstep : [a, node] <:+: path := List.IsInfix.trans ⟨[], [b], rfl⟩ hplace
    exact ⟨a, (isChain_iff_steps.mp hpath a node hstep).symm⟩
  have hbelow : (∃ d ∈ controls, TransGen g.Edge node d) ↔
      ∃ d ∈ controls', TransGen g.Edge node d := by
    refine exists_congr fun d => and_congr_left fun hd => hcontrols d ?_
    obtain ⟨parent, -, hedge⟩ := TransGen.tail'_iff.mp hd
    exact ⟨parent, .inr hedge⟩
  rw [passes_iff fun _ _ => mem_descendants_children hg,
    passes_iff fun _ _ => mem_descendants_children hg']
  simp only [← hedges, ← heq, hcontrols node hnode, hbelow]

lemma changeOf_congr (hpath : path.IsChain fun a b => g.Edge a b ∨ g.Edge b a) :
    changeOf g g.children.descendants controls path =
      changeOf g' g'.children.descendants controls' path := by
  have hnone : g.ControlsAgree [] [] := fun _ _ => Iff.rfl
  have hdirected : g.isDirectedPath path = g'.isDirectedPath path := by
    simp only [isDirectedPath, hasEdge_congr hedges]
  rw [changeOf, changeOf, isOpen_congr hg hedges hcontrols hpath,
    isOpen_congr hg hedges hnone hpath, hdirected]

end

/-! ## Marks -/

/-- Without controls nothing is changed. -/
lemma changeOf_noControls (parents descendants : Graph) (path : List Name) :
    changeOf parents descendants [] path = none := by
  simp [changeOf]

/-- The marks, computed on all paths between two different variables even if there is no control
that counts. -/
lemma edgeStatus_eq_foldl (g : Graph) (x y : Name) (controls : List Name) (search : PathSearch) :
    g.edgeStatus x y controls [] search =
      (if x ≠ "" ∧ y ≠ "" ∧ x ≠ y then (g.skeleton []).simplePaths x y search else []).foldl
        (markChange g g.children.descendants (effectiveControls controls [])) Table.empty := by
  unfold edgeStatus searchedPaths
  by_cases hcontrols : effectiveControls controls [] = []
  · have hstay : ∀ marks path,
        markChange g g.children.descendants [] marks path = marks := by
      intro marks path
      simp only [markChange, changeOf_noControls]
    have hquestion : isQuestion x y controls [] = false := by simp [isQuestion, hcontrols]
    rw [hquestion, hcontrols]
    exact (List.foldl_fixed' (hstay _) _).symm
  · have hquestion : isQuestion x y controls [] = true ↔ x ≠ "" ∧ y ≠ "" ∧ x ≠ y := by
      simp [isQuestion, hcontrols, and_assoc]
    by_cases h : x ≠ "" ∧ y ≠ "" ∧ x ≠ y
    · rw [if_pos h, if_pos (hquestion.mpr h)]
    · rw [if_neg h, if_neg (mt hquestion.mp h)]

/-- **The marks are determined by the edges** and by the controls at them. -/
theorem edgeStatus_congr (hg : g.Acyclic) (hedges : ∀ a b, g.Edge a b ↔ g'.Edge a b)
    {controls controls' : List Name} (hcontrols : g.ControlsAgree controls controls') (x y : Name)
    (search : PathSearch) :
    g.edgeStatus x y controls [] search = g'.edgeStatus x y controls' [] search := by
  rw [edgeStatus_eq_foldl, edgeStatus_eq_foldl]
  split
  · rename_i hquestion
    rw [← simplePaths_skeleton_congr hedges hquestion.2.2]
    refine List.foldl_ext _ _ _ fun marks path hpath => ?_
    have hchain : path.IsChain fun a b => g.Edge a b ∨ g.Edge b a :=
      (isSimplePath_of_mem_simplePaths hpath).chain.imp fun a b hb =>
        (mem_neighbours_skeleton.mp hb).2.2
    have hagree : g.ControlsAgree (effectiveControls controls []) (effectiveControls controls' []) :=
      fun c hc => by rw [mem_effectiveControls, mem_effectiveControls, hcontrols c hc]
    have hmark : ∀ status, markPath g marks path status = markPath g' marks path status := by
      intro status
      simp only [markPath, edgeLabel?_congr hedges]
    simp only [markChange, changeOf_congr hg hedges hagree hchain, hmark]
  · rfl

end Graph

/-! ## Noise nodes -/

namespace NoisyGraph

open CausalEquations.Graph Relation

variable {g : Graph} {names : List Name}

lemma mem_noiseNodes_ofGraph {node : Name} :
    node ∈ (ofGraph g names).noiseNodes ↔
      ∃ v, (v ∈ g.keys ∨ v ∈ names) ∧ Plain v ∧ noiseId v = node := by
  simp [ofGraph, Plain, and_assoc]

lemma not_plain_of_mem_noiseNodes {node : Name} (h : node ∈ (ofGraph g names).noiseNodes) :
    ¬ Plain node := by
  obtain ⟨v, -, -, rfl⟩ := mem_noiseNodes_ofGraph.mp h
  simp [Plain, isNoise_noiseId]

section

variable (hplain : ∀ node ∈ g.nodes, Plain node)

include hplain

lemma not_mem_nodes_of_mem_noiseNodes {node : Name} (h : node ∈ (ofGraph g names).noiseNodes) :
    node ∉ g.nodes :=
  fun hnode => not_plain_of_mem_noiseNodes h (hplain node hnode)

lemma plain_of_edge_ofGraph {parent child : Name} (h : (ofGraph g names).graph.Edge parent child) :
    Plain child := by
  rcases edge_ofGraph_iff.mp h with hedge | ⟨-, hchild, -⟩
  · exact hplain child (child_mem_nodes hedge)
  · exact hchild

/-- A noise node has no parents. -/
lemma neighbours_eq_nil_of_mem_noiseNodes {node : Name}
    (h : node ∈ (ofGraph g names).noiseNodes) : (ofGraph g names).graph.neighbours node = [] :=
  List.eq_nil_iff_forall_not_mem.mpr fun _ hparent =>
    not_plain_of_mem_noiseNodes h (plain_of_edge_ofGraph hplain hparent)

/-- A way that starts at a variable is one of the old graph. -/
lemma path_of_path_ofGraph {a b : Name} (h : TransGen (ofGraph g names).graph.Edge a b)
    (ha : Plain a) : TransGen g.Edge a b := by
  have hold : ∀ {parent child}, (ofGraph g names).graph.Edge parent child → Plain parent →
      g.Edge parent child := by
    intro parent child hedge hparent
    refine (edge_ofGraph_iff.mp hedge).resolve_right ?_
    rintro ⟨-, -, rfl⟩
    rw [Plain, isNoise_noiseId] at hparent
    cases hparent
  induction h with
  | single hedge => exact .single (hold hedge ha)
  | tail hpath hedge ih =>
      obtain ⟨before, -, hlast⟩ := TransGen.tail'_iff.mp hpath
      exact ih.tail (hold hedge (plain_of_edge_ofGraph hplain hlast))

/-- **Noise nodes close no cycle.** -/
theorem acyclic_ofGraph (hg : g.Acyclic) (names : List Name) :
    (ofGraph g names).graph.Acyclic := by
  intro node hcycle
  obtain ⟨before, -, hlast⟩ := TransGen.tail'_iff.mp hcycle
  exact hg node (path_of_path_ofGraph hplain hcycle (plain_of_edge_ofGraph hplain hlast))

/-- **Without the noise nodes the edges are the old ones.** -/
theorem edge_without_noiseNodes {a b : Name} :
    ((ofGraph g names).graph.without (ofGraph g names).noiseNodes).Edge a b ↔ g.Edge a b := by
  have hout : ∀ {node}, node ∈ g.nodes → node ∉ (ofGraph g names).noiseNodes :=
    fun hnode hnoise => not_mem_nodes_of_mem_noiseNodes hplain hnoise hnode
  rw [edge_without, edge_ofGraph_iff]
  constructor
  · rintro ⟨hedge | ⟨hb, hmark, rfl⟩, ha, -⟩
    · exact hedge
    · exact absurd (mem_noiseNodes_ofGraph.mpr ⟨b, hb, hmark, rfl⟩) ha
  · exact fun hedge => ⟨.inl hedge, hout (parent_mem_nodes hedge), hout (child_mem_nodes hedge)⟩

/-- **Noise nodes do not show in the marks.** With the noise nodes excluded, the graph has the marks
that it has without noise nodes, whatever the two variables and the controls are. -/
theorem edgeStatus_ofGraph (hg : g.Acyclic) (names : List Name) (x y : Name)
    (controls : List Name) (search : PathSearch) :
    ∀ label, ((ofGraph g names).graph.edgeStatus x y controls (ofGraph g names).noiseNodes
        search).get? label = (g.edgeStatus x y controls [] search).get? label := by
  intro label
  have hacyclic := acyclic_ofGraph hplain hg names
  by_cases hends : x ∈ (ofGraph g names).noiseNodes ∨ y ∈ (ofGraph g names).noiseNodes
  · -- a noise node at either end: it is excluded on one side and no node on the other
    have hquestion : isQuestion x y controls (ofGraph g names).noiseNodes = false := by
      rcases hends with hx | hy
      · simp [isQuestion, hx]
      · simp [isQuestion, hy]
    have hnone : g.searchedPaths x y controls [] search = [] := by
      refine List.eq_nil_iff_forall_not_mem.mpr fun path hpath => ?_
      obtain ⟨hx, hy⟩ := mem_nodes_of_mem_searchedPaths hpath
      exact hends.elim (fun h => not_mem_nodes_of_mem_noiseNodes hplain h hx)
        fun h => not_mem_nodes_of_mem_noiseNodes hplain h hy
    rw [edgeStatus, edgeStatus, hnone, searchedPaths, hquestion]
    rfl
  · rw [not_or] at hends
    have hagree : ((ofGraph g names).graph.without (ofGraph g names).noiseNodes).ControlsAgree
        (keptControls controls (ofGraph g names).noiseNodes) controls := by
      rintro c ⟨other, hedge⟩
      have hout : c ∉ (ofGraph g names).noiseNodes :=
        hedge.elim (fun h => (edge_without.mp h).2.1) fun h => (edge_without.mp h).2.2
      simp [keptControls, hout]
    rw [edgeStatus_without_of_noParents hacyclic hends.1 hends.2
        fun _ hnoise => neighbours_eq_nil_of_mem_noiseNodes hplain hnoise,
      edgeStatus_congr (hacyclic.without _) (fun _ _ => edge_without_noiseNodes hplain) hagree]

end

/-- Controlling `S` opens the collider `M`, with noise nodes at all five variables or at none. -/
theorem edgeStatus_ofGraph_hiddenLink :
    (∀ node ∈ hiddenLink.nodes, Plain node) ∧ hiddenLink.Acyclic ∧
      ((ofGraph hiddenLink ["X", "M"]).graph.edgeStatus "X" "Y" ["S"]
        (ofGraph hiddenLink ["X", "M"]).noiseNodes {}).get? "X->M" = some .bad := by
  have hnames : ∀ node ∈ hiddenLink.nodes, Plain node := by decide +kernel
  have hmark : (hiddenLink.edgeStatus "X" "Y" ["S"] [] {}).get? "X->M" = some .bad := by cbv
  refine ⟨hnames, acyclic_hiddenLink, ?_⟩
  rw [edgeStatus_ofGraph hnames acyclic_hiddenLink ["X", "M"] "X" "Y" ["S"] {} "X->M"]
  exact hmark

end NoisyGraph

end CausalEquations
