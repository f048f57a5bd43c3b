import CausalEquations.Proofs.PathEnumeration
import CausalEquations.Proofs.Skeleton
import CausalEquations.Proofs.WorstMarks

/-!
# Exchanging the endpoints

A path can be followed in either direction. Which of its nodes are colliders, whether its edges all
point the same way and what they are called do not depend on the direction, so neither does what
controlling does to the path. As the search finds the same paths from either end, unless it stops at
its limit, the two variables of a question may be exchanged.

* `Graph.changeOf_reverse`, `Graph.bears_reverse` — what a reversed path gives, and to which edges.
* `Graph.searchedPaths_perm_reverse` — the paths of the exchanged question.
* `Graph.edgeStatus_comm` — the marks do not depend on which of the variables comes first.
-/

namespace CausalEquations

namespace Graph

/-! ## Reversed paths -/

section

variable {parents descendants : Graph} {controls path : List Name}

lemma passes_comm (a node b : Name) :
    passes parents descendants controls a node b =
      passes parents descendants controls b node a := by
  simp only [passes, Bool.and_comm]

lemma isOpen_reverse :
    isOpen parents descendants controls path.reverse =
      isOpen parents descendants controls path := by
  have hplace : ∀ a node b, [a, node, b] <:+: path.reverse ↔ [b, node, a] <:+: path :=
    fun a node b => show [b, node, a].reverse <:+: path.reverse ↔ _ from List.reverse_infix
  rw [Bool.eq_iff_iff, isOpen_iff_passes, isOpen_iff_passes]
  simp only [hplace]
  constructor
  · intro h a node b hinfix
    rw [passes_comm]
    exact h b node a hinfix
  · intro h a node b hinfix
    rw [passes_comm]
    exact h b node a hinfix

lemma directed_reverse : parents.Directed path.reverse ↔ parents.Directed path := by
  unfold Directed
  rw [List.isChain_reverse, List.isChain_reverse, or_comm]

lemma isDirectedPath_reverse :
    parents.isDirectedPath path.reverse = parents.isDirectedPath path := by
  rw [Bool.eq_iff_iff, isDirectedPath_iff, isDirectedPath_iff, directed_reverse,
    List.length_reverse]

/-- Controlling does the same to a path and to the reversed path. -/
lemma changeOf_reverse : changeOf parents descendants controls path.reverse =
    changeOf parents descendants controls path := by
  simp only [changeOf, isOpen_reverse, isDirectedPath_reverse]

end

variable {g : Graph}

/-- On an acyclic graph the label of an edge does not depend on the direction in which the edge is
passed, as there is no edge back. -/
lemma edgeLabel?_comm (hg : g.Acyclic) (a b : Name) : edgeLabel? g a b = edgeLabel? g b a := by
  have honce : ¬ (g.hasEdge a b = true ∧ g.hasEdge b a = true) := by
    rintro ⟨hforward, hbackward⟩
    exact hg a (.tail (.single (hasEdge_iff.mp hforward)) (hasEdge_iff.mp hbackward))
  unfold edgeLabel?
  cases hforward : g.hasEdge a b <;> cases hbackward : g.hasEdge b a <;> simp_all

lemma bears_reverse (hg : g.Acyclic) {path : List Name} {label : Name} :
    g.Bears path.reverse label ↔ g.Bears path label := by
  have hplace : ∀ a b, [a, b] <:+: path.reverse ↔ [b, a] <:+: path :=
    fun a b => show [b, a].reverse <:+: path.reverse ↔ _ from List.reverse_infix
  simp only [Bears, Prod.exists, mem_steps_iff, hplace]
  rw [exists_comm]
  refine exists_congr fun a => exists_congr fun b => and_congr_right fun _ => ?_
  rw [edgeLabel?_comm hg]

/-! ## Exchanged questions -/

variable {x y : Name} {controls excluded : List Name} {search : PathSearch}

lemma isQuestion_comm (x y : Name) (controls excluded : List Name) :
    isQuestion x y controls excluded = isQuestion y x controls excluded := by
  rw [Bool.eq_iff_iff]
  simp only [isQuestion, Bool.and_eq_true, Bool.not_eq_true', beq_eq_false_iff_ne, ne_comm (a := x)]
  tauto

/-- The same paths are looked at, reversed. -/
lemma searchedPaths_perm_reverse
    (hfew : (g.searchedPaths x y controls excluded search).length < search.pathLimit) :
    (g.searchedPaths y x controls excluded search).Perm
      ((g.searchedPaths x y controls excluded search).map List.reverse) := by
  unfold searchedPaths at hfew ⊢
  rw [isQuestion_comm y x]
  split
  · rename_i hquestion
    rw [if_pos hquestion] at hfew
    exact simplePaths_perm_reverse (fun _ _ => neighbours_skeleton_comm)
      (listsOnce_skeleton g excluded) hfew
  · rfl

/-- The exchanged question is given the same marks. -/
lemma gives_comm (hg : g.Acyclic)
    (hfew : (g.searchedPaths x y controls excluded search).length < search.pathLimit)
    (label : Name) (status : EdgeStatus) :
    g.Gives x y controls excluded search label status ↔
      g.Gives y x controls excluded search label status := by
  have hpaths : ∀ path, path ∈ g.searchedPaths y x controls excluded search ↔
      path.reverse ∈ g.searchedPaths x y controls excluded search := by
    intro path
    rw [(searchedPaths_perm_reverse hfew).mem_iff, List.mem_map]
    constructor
    · rintro ⟨path, hpath, rfl⟩
      rwa [List.reverse_reverse]
    · exact fun hpath => ⟨path.reverse, hpath, List.reverse_reverse path⟩
  unfold Gives
  rw [List.reverse_surjective.exists]
  refine exists_congr fun path => and_congr (hpaths path).symm (and_congr ?_ (bears_reverse hg))
  rw [changeOf_reverse]

/-- **The endpoints may be exchanged.** If the search does not stop at its limit, the marks of an
acyclic graph are the same whichever of the two variables comes first. -/
theorem edgeStatus_comm {g : Graph} (hg : g.Acyclic) (x y : Name) (controls excluded : List Name)
    (search : PathSearch)
    (hfew : (g.searchedPaths x y controls excluded search).length < search.pathLimit) :
    ∀ label, (g.edgeStatus x y controls excluded search).get? label =
      (g.edgeStatus y x controls excluded search).get? label := by
  intro label
  exact (isWorst_edgeStatus g x y controls excluded search label).eq
    (isWorst_edgeStatus g y x controls excluded search label) (gives_comm hg hfew label)

theorem edgeStatus_comm_threePaths :
    threePaths.Acyclic ∧
      (threePaths.searchedPaths "X" "Y" ["S"] ["U"] {}).length < PathSearch.pathLimit {} ∧
      (threePaths.edgeStatus "Y" "X" ["S"] ["U"] {}).get? "A->M" = some .bad := by
  have hg : threePaths.Acyclic := by decide +kernel
  have hfew : (threePaths.searchedPaths "X" "Y" ["S"] ["U"] {}).length <
      PathSearch.pathLimit {} := by cbv
  have hbad : (threePaths.edgeStatus "X" "Y" ["S"] ["U"] {}).get? "A->M" = some .bad := by cbv
  exact ⟨hg, hfew, (edgeStatus_comm hg "X" "Y" ["S"] ["U"] {} hfew "A->M").symm.trans hbad⟩

end Graph

end CausalEquations
