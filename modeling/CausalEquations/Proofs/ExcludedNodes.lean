import CausalEquations.Proofs.PathEnumeration
import CausalEquations.Proofs.Skeleton
import CausalEquations.Proofs.WorstMarks

/-!
# Excluded nodes

No path that is looked at passes an excluded node, and no excluded node counts as a control. The
descendants of a collider, however, are those in the whole graph. So excluding a node differs from
deleting it in one respect: a collider that leads to a control through excluded nodes only is opened
by the control, although nothing of the way there is left when they are deleted.

* `Graph.searchedPaths_without` — the same paths are looked at.
* `Graph.Opens.of_without`, `Graph.blocksDirected_without`, `Graph.blocksIndirect_without` — what
  controlling does to a path when nodes are deleted, and when they are excluded.
* `Graph.edgeStatus_without_of_noParents` — nodes without parents may as well be deleted.
* `Graph.edgeStatus_without_iff` — when excluding is deleting, and what the difference is.
* `Graph.edgeStatus_hiddenLink` — a collider that is opened through an excluded node.
-/

namespace CausalEquations

namespace Graph

open Relation

variable {g : Graph} {x y : Name} {controls excluded : List Name} {search : PathSearch}

/-! ## The question without the nodes -/

/-- The controls that are not excluded. -/
def keptControls (controls excluded : List Name) : List Name :=
  controls.filter fun c => !excluded.contains c

lemma effectiveControls_kept (controls excluded : List Name) :
    effectiveControls (keptControls controls excluded) [] =
      effectiveControls controls excluded := by
  simp [effectiveControls, keptControls, List.filter_filter]

/-- **The same paths are looked at** whether nodes are excluded or deleted. -/
lemma searchedPaths_without (g : Graph) (hx : x ∉ excluded) (hy : y ∉ excluded)
    (controls : List Name) (search : PathSearch) :
    (g.without excluded).searchedPaths x y (keptControls controls excluded) [] search =
      g.searchedPaths x y controls excluded search := by
  have hquestion : isQuestion x y (keptControls controls excluded) [] =
      isQuestion x y controls excluded := by
    simp [isQuestion, effectiveControls_kept, hx, hy]
  rw [searchedPaths, searchedPaths, hquestion, skeleton_without]

/-- A descendant in the smaller graph is a descendant in the whole graph. -/
lemma descends_of_without {deleted : List Name} {a d : Name}
    (h : TransGen (g.without deleted).Edge a d) : TransGen g.Edge a d :=
  TransGen.mono (fun _ _ hedge => (edge_without.mp hedge).1) a d h

lemma Acyclic.without (hg : g.Acyclic) (deleted : List Name) : (g.without deleted).Acyclic :=
  fun node hcycle => hg node (descends_of_without hcycle)

/-! ## Paths that avoid the nodes -/

/-- No step of the path begins or ends at one of the nodes. -/
def Avoids (path : List Name) (nodes : List Name) : Prop :=
  ∀ a b, [a, b] <:+: path → a ∉ nodes ∧ b ∉ nodes

/-- The paths that are looked at avoid the excluded nodes and repeat no node. -/
lemma avoids_of_mem_searchedPaths {path : List Name}
    (h : path ∈ g.searchedPaths x y controls excluded search) :
    Avoids path excluded ∧ path.Nodup := by
  unfold searchedPaths at h
  split at h
  · have hsimple := isSimplePath_of_mem_simplePaths h
    refine ⟨fun a b hstep => ?_, hsimple.nodup⟩
    have hneighbour := isChain_iff_steps.mp hsimple.chain a b hstep
    rw [mem_neighbours_skeleton] at hneighbour
    exact ⟨hneighbour.1, hneighbour.2.1⟩
  · cases h

section

variable {path : List Name} (h : Avoids path excluded)

include h

lemma Avoids.edge_iff {a b : Name} (hstep : [a, b] <:+: path) :
    ((g.without excluded).Edge a b ↔ g.Edge a b) ∧
      ((g.without excluded).Edge b a ↔ g.Edge b a) := by
  obtain ⟨ha, hb⟩ := h a b hstep
  simp [edge_without, ha, hb]

lemma Avoids.collider_iff {node : Name} :
    (g.without excluded).Collider path node ↔ g.Collider path node := by
  refine exists_congr fun a => exists_congr fun b => and_congr_right fun hplace => ?_
  have hbefore : [a, node] <:+: path := List.IsInfix.trans ⟨[], [b], rfl⟩ hplace
  have hbehind : [node, b] <:+: path := List.IsInfix.trans ⟨[a], [], rfl⟩ hplace
  rw [(h.edge_iff hbefore).1, (h.edge_iff hbehind).2]

lemma Avoids.directed_iff : (g.without excluded).Directed path ↔ g.Directed path := by
  simp only [Directed, isChain_iff_steps, Function.swap]
  refine or_congr ?_ ?_
  · exact forall_congr' fun a => forall_congr' fun b => imp_congr_right fun hstep =>
      (h.edge_iff hstep).1
  · exact forall_congr' fun a => forall_congr' fun b => imp_congr_right fun hstep =>
      (h.edge_iff hstep).2

lemma Avoids.bears_iff {label : Name} :
    (g.without excluded).Bears path label ↔ g.Bears path label := by
  have hlabel : ∀ a b, [a, b] <:+: path →
      edgeLabel? (g.without excluded) a b = edgeLabel? g a b := by
    intro a b hstep
    obtain ⟨hforward, hbackward⟩ := h.edge_iff (g := g) hstep
    simp only [← hasEdge_iff, ← Bool.eq_iff_iff] at hforward hbackward
    rw [edgeLabel?, edgeLabel?, hforward, hbackward]
  simp only [Bears, Prod.exists, mem_steps_iff]
  exact exists_congr fun a => exists_congr fun b => and_congr_right fun hstep => by
    rw [hlabel a b hstep]

/-! ## What controlling does to them -/

variable {C : Set Name}

lemma blocksDirected_without :
    (g.without excluded).BlocksDirected C path ↔ g.BlocksDirected C path :=
  ⟨fun hb => ⟨h.directed_iff.mp hb.directed, hb.blocked⟩,
    fun hb => ⟨h.directed_iff.mpr hb.directed, hb.blocked⟩⟩

lemma blocksIndirect_without :
    (g.without excluded).BlocksIndirect C path ↔ g.BlocksIndirect C path := by
  constructor
  · exact fun hb => ⟨fun node hc => hb.noCollider node (h.collider_iff.mpr hc),
      fun hd => hb.indirect (h.directed_iff.mpr hd), hb.blocked⟩
  · exact fun hb => ⟨fun node hc => hb.noCollider node (h.collider_iff.mp hc),
      fun hd => hb.indirect (h.directed_iff.mp hd), hb.blocked⟩

/-- What controlling opens in the smaller graph it opens in the whole graph. -/
lemma Opens.of_without (hopens : (g.without excluded).Opens C path) : g.Opens C path where
  colliders node hc := by
    refine (hopens.colliders node (h.collider_iff.mpr hc)).imp_right ?_
    rintro ⟨d, hd, hpath⟩
    exact ⟨d, hd, descends_of_without hpath⟩
  others node hinterior hplain :=
    hopens.others node hinterior fun hc => hplain (h.collider_iff.mp hc)
  collider := by
    obtain ⟨node, hc⟩ := hopens.collider
    exact ⟨node, h.collider_iff.mp hc⟩

/-- What controlling opens in the whole graph it opens in the smaller graph as well if the deleted
nodes have no parents: no way to a descendant passes them. -/
lemma Opens.without (hparents : ∀ node ∈ excluded, g.neighbours node = [])
    (hopens : g.Opens C path) : (g.without excluded).Opens C path where
  colliders node hc := by
    refine (hopens.colliders node (h.collider_iff.mp hc)).imp_right ?_
    rintro ⟨d, hd, hpath⟩
    refine ⟨d, hd, ?_⟩
    obtain ⟨a, b, hplace, -⟩ := hc
    have hnode : node ∉ excluded := (h a node (List.IsInfix.trans ⟨[], [b], rfl⟩ hplace)).2
    have hchild : ∀ {parent child}, g.Edge parent child → child ∉ excluded := by
      intro parent child hedge hchild
      rw [Edge, hparents child hchild] at hedge
      cases hedge
    clear hd
    induction hpath with
    | single hedge => exact .single (edge_without.mpr ⟨hedge, hnode, hchild hedge⟩)
    | tail hpath hedge ih =>
        obtain ⟨_, -, hlast⟩ := TransGen.tail'_iff.mp hpath
        exact ih.tail (edge_without.mpr ⟨hedge, hchild hlast, hchild hedge⟩)
  others node hinterior hplain :=
    hopens.others node hinterior fun hc => hplain (h.collider_iff.mpr hc)
  collider := by
    obtain ⟨node, hc⟩ := hopens.collider
    exact ⟨node, h.collider_iff.mpr hc⟩

end

/-! ## The marks -/

/-- The marks that the paths give when the nodes are deleted, in terms of the whole graph: only the
mark bad depends on the smaller graph. -/
lemma gives_without (hg : g.Acyclic) (hx : x ∉ excluded) (hy : y ∉ excluded)
    (controls : List Name) (search : PathSearch) (label : Name) :
    let C : Set Name := {c | c ∈ controls ∧ c ≠ "" ∧ c ∉ excluded}
    let given := (g.without excluded).Gives x y (keptControls controls excluded) [] search label
    (∀ status, status ≠ .bad → (given status ↔ g.Gives x y controls excluded search label status)) ∧
      (g.Gives x y controls excluded search label .bad ↔
        ∃ path ∈ g.searchedPaths x y controls excluded search, g.Opens C path ∧
          g.Bears path label) ∧
      (given .bad ↔ ∃ path ∈ g.searchedPaths x y controls excluded search,
        (g.without excluded).Opens C path ∧ g.Bears path label) := by
  intro C given
  have hC : {c | c ∈ effectiveControls controls excluded} = C :=
    Set.ext fun _ => mem_effectiveControls
  have hg' := hg.without excluded
  simp only [given, Gives, searchedPaths_without g hx hy, effectiveControls_kept]
  refine ⟨fun status hstatus => ?_, ?_, ?_⟩ <;>
    refine exists_congr fun path => and_congr_right fun hpath => ?_ <;>
    obtain ⟨havoids, hnodup⟩ := avoids_of_mem_searchedPaths hpath
  · rw [havoids.bears_iff]
    refine and_congr_left' ?_
    cases status with
    | bad => exact absurd rfl hstatus
    | maybe =>
        rw [changeOf_eq_maybe hg' hnodup, changeOf_eq_maybe hg hnodup,
          blocksDirected_without havoids]
    | good =>
        rw [changeOf_eq_good hg' hnodup, changeOf_eq_good hg hnodup,
          blocksIndirect_without havoids]
  · rw [changeOf_eq_bad hg hnodup, hC]
  · rw [changeOf_eq_bad hg' hnodup, hC, havoids.bears_iff]

/-- What the paths give when the nodes are deleted they give when the nodes are excluded. -/
lemma gives_of_without (hg : g.Acyclic) (hx : x ∉ excluded) (hy : y ∉ excluded) {label : Name}
    {status : EdgeStatus}
    (h : (g.without excluded).Gives x y (keptControls controls excluded) [] search label status) :
    g.Gives x y controls excluded search label status := by
  obtain ⟨hother, hbad, hbad'⟩ := gives_without hg hx hy controls search label
  by_cases hstatus : status = .bad
  · subst hstatus
    obtain ⟨path, hpath, hopens, hlabel⟩ := hbad'.mp h
    exact hbad.mpr ⟨path, hpath, hopens.of_without (avoids_of_mem_searchedPaths hpath).1, hlabel⟩
  · exact (hother status hstatus).mp h

/-- A label has the same mark in both graphs exactly if it is not bad in the whole graph only. -/
lemma edgeStatus_eq_without_iff (hg : g.Acyclic) (hx : x ∉ excluded) (hy : y ∉ excluded)
    {label : Name} :
    let paths := g.searchedPaths x y controls excluded search
    let C : Set Name := {c | c ∈ controls ∧ c ≠ "" ∧ c ∉ excluded}
    (g.edgeStatus x y controls excluded search).get? label =
        ((g.without excluded).edgeStatus x y (keptControls controls excluded) [] search).get?
          label ↔
      ((∃ path ∈ paths, g.Opens C path ∧ g.Bears path label) →
        ∃ path ∈ paths, (g.without excluded).Opens C path ∧ g.Bears path label) := by
  intro paths C
  obtain ⟨hother, hbad, hbad'⟩ := gives_without hg hx hy controls search label
  have hworst := isWorst_edgeStatus g x y controls excluded search label
  have hworst' := isWorst_edgeStatus (g.without excluded) x y (keptControls controls excluded) []
    search label
  rw [← hbad, ← hbad']
  constructor
  · intro hsame hgiven
    rw [← hworst'.eq_bad_iff, ← hsame]
    exact hworst.eq_bad_iff.mpr hgiven
  · intro hgiven
    refine hworst.eq hworst' fun status => ⟨fun hgives => ?_, gives_of_without hg hx hy⟩
    by_cases hstatus : status = .bad
    · subst hstatus
      exact hgiven hgives
    · exact (hother status hstatus).mpr hgives

/-- **Nodes without parents** may as well be deleted: excluding them leaves the same marks. -/
theorem edgeStatus_without_of_noParents (hg : g.Acyclic) (hx : x ∉ excluded) (hy : y ∉ excluded)
    (hparents : ∀ node ∈ excluded, g.neighbours node = []) (search : PathSearch) (label : Name) :
    (g.edgeStatus x y controls excluded search).get? label =
      ((g.without excluded).edgeStatus x y (keptControls controls excluded) [] search).get?
        label := by
  refine (edgeStatus_eq_without_iff hg hx hy).mpr ?_
  rintro ⟨path, hpath, hopens, hlabel⟩
  exact ⟨path, hpath, Opens.without (avoids_of_mem_searchedPaths hpath).1 hparents hopens, hlabel⟩

/-- **Excluding is deleting, but for the mark bad.** The marks are those of the graph without the
excluded nodes, except that a label may be bad in addition. They agree if and only if every edge of
a path that controlling opens lies on one that it opens in the graph without these nodes. -/
theorem edgeStatus_without_iff (hg : g.Acyclic) (hx : x ∉ excluded) (hy : y ∉ excluded)
    (controls : List Name) (search : PathSearch) :
    let paths := g.searchedPaths x y controls excluded search
    let C : Set Name := {c | c ∈ controls ∧ c ≠ "" ∧ c ∉ excluded}
    let status := (g.edgeStatus x y controls excluded search).get?
    let status' := ((g.without excluded).edgeStatus x y (keptControls controls excluded) []
      search).get?
    (∀ label, status label = status' label ∨ status label = some .bad) ∧
      ((∀ label, status label = status' label) ↔
        ∀ path ∈ paths, g.Opens C path → ∀ label, g.Bears path label →
          ∃ path' ∈ paths, (g.without excluded).Opens C path' ∧ g.Bears path' label) := by
  intro paths C status status'
  refine ⟨fun label => ?_, fun hsame path hpath hopens label hlabel => ?_, fun hopens label => ?_⟩
  · obtain ⟨hother, -⟩ := gives_without hg hx hy controls search label
    exact (isWorst_edgeStatus ..).eq_or_bad (isWorst_edgeStatus ..)
      (fun _ => gives_of_without hg hx hy) fun status hstatus => (hother status hstatus).mpr
  · exact (edgeStatus_eq_without_iff hg hx hy).mp (hsame label) ⟨path, hpath, hopens, hlabel⟩
  · refine (edgeStatus_eq_without_iff hg hx hy).mpr ?_
    rintro ⟨path, hpath, hpathOpens, hlabel⟩
    exact hopens path hpath hpathOpens label hlabel

/-! ## A hidden link -/

/-- The collider `M` of `X` and `Y` leads to `S`, but only through `U`. -/
def hiddenLink : Graph :=
  Table.ofList [("X", []), ("Y", []), ("M", ["X", "Y"]), ("U", ["M"]), ("S", ["U"])]

lemma acyclic_hiddenLink : hiddenLink.Acyclic := by decide +kernel

/-- With `U` excluded, controlling `S` opens the collider; with `U` deleted, it does not. -/
theorem edgeStatus_hiddenLink :
    hiddenLink.Acyclic ∧ "X" ∉ ["U"] ∧ "Y" ∉ ["U"] ∧ keptControls ["S"] ["U"] = ["S"] ∧
      (hiddenLink.edgeStatus "X" "Y" ["S"] ["U"] {}).get? "X->M" = some .bad ∧
      ((hiddenLink.without ["U"]).edgeStatus "X" "Y" ["S"] [] {}).get? "X->M" = none :=
  ⟨acyclic_hiddenLink, by decide, by decide, by decide, by cbv, by cbv⟩

theorem edgeStatus_without_iff_hiddenLink :
    hiddenLink.Acyclic ∧ "X" ∉ ["U"] ∧ "Y" ∉ ["U"] ∧
      ∃ path ∈ hiddenLink.searchedPaths "X" "Y" ["S"] ["U"] {},
        hiddenLink.Opens {c | c ∈ ["S"] ∧ c ≠ "" ∧ c ∉ ["U"]} path ∧
          ¬ (hiddenLink.without ["U"]).Opens {c | c ∈ ["S"] ∧ c ≠ "" ∧ c ∉ ["U"]} path := by
  have hx : "X" ∉ ["U"] := by decide
  have hy : "Y" ∉ ["U"] := by decide
  obtain ⟨-, hiff⟩ := edgeStatus_without_iff acyclic_hiddenLink hx hy ["S"] {}
  have hmark : (hiddenLink.edgeStatus "X" "Y" ["S"] ["U"] {}).get? "X->M" = some .bad := by cbv
  have hmark' : ((hiddenLink.without ["U"]).edgeStatus "X" "Y" (keptControls ["S"] ["U"]) []
      {}).get? "X->M" = none := by cbv
  refine ⟨acyclic_hiddenLink, hx, hy, ?_⟩
  by_contra hnone
  push Not at hnone
  have hsame := hiff.mpr fun path hpath hopens label hlabel =>
    ⟨path, hpath, hnone path hpath hopens, hlabel⟩
  rw [hsame "X->M", hmark'] at hmark
  cases hmark

end Graph

end CausalEquations
