import CausalEquations.Proofs.PathEnumeration
import Mathlib.Data.List.Permutation

/-!
# Simple paths in lexicographic order

The search for paths tries neighbours in the order of their names, so it lists the simple paths in
lexicographic order, and a search that stops early has found the first of them. No path is the
beginning of another one, so it is the first difference that decides.

* `Name.Precedes`, `PathPrecedes` — names in code point order, and paths compared name by name.
* `Graph.pairwise_walks` — paths are found in order.
* `Graph.ListsPaths`, `Graph.ListsPaths.unique` — the list of all simple paths, said without a
  search.
* `Graph.simplePaths_first` — the search finds the first paths of that list.
-/

namespace CausalEquations

/-! ## Comparing paths -/

/-- The name comes before another one in code point order. -/
def Name.Precedes (a b : Name) : Prop := Name.le a b = true ∧ a ≠ b

lemma Name.Precedes.asymm {a b : Name} (h : Name.Precedes a b) : ¬ Name.Precedes b a :=
  fun h' => h.2 (Name.le_antisymm h.1 h'.1)

/-- The path comes before another one: the first nodes that differ are in order, or the other path
goes on where this one ends. -/
abbrev PathPrecedes : List Name → List Name → Prop := List.Lex Name.Precedes

lemma PathPrecedes.asymm {path path' : List Name} (h : PathPrecedes path path') :
    ¬ PathPrecedes path' path := by
  induction h with
  | nil => exact nofun
  | rel hlt =>
      intro h'
      cases h' with
      | rel hgt => exact hlt.asymm hgt
      | cons _ => exact hlt.2 rfl
  | cons _ ih =>
      intro h'
      cases h' with
      | rel hlt => exact hlt.2 rfl
      | cons h' => exact ih h'

/-- Paths that part ways are in the order of the nodes at which they do. -/
lemma pathPrecedes_of_prefix {common path path' : List Name} {a b : Name}
    (hab : Name.Precedes a b) (h : common ++ [a] <+: path) (h' : common ++ [b] <+: path') :
    PathPrecedes path path' := by
  obtain ⟨rest, rfl⟩ := h
  obtain ⟨rest', rfl⟩ := h'
  induction common with
  | nil => exact .rel hab
  | cons node common ih => exact .cons ih

namespace Graph

variable {g : Graph} {goal : Name}

/-! ## The order of the search -/

/-- The ways to go on are tried in order. -/
lemma pairwise_nexts (hg : g.ListsOnce) (node : Name) (passed : List Name) :
    (g.nexts node passed).Pairwise Name.Precedes := by
  have hnodup : (sortedNames (g.neighbours node)).Nodup :=
    (sortedNames_perm _).nodup_iff.mpr (hg node)
  exact ((pairwise_sortedNames _).and hnodup).filter _

/-- **Paths are found in order.** Two paths part ways at the latest at different ways to go on, and
these are tried in order. -/
theorem pairwise_walks (hg : g.ListsOnce) (goal : Name) (room : ℕ) (node : Name)
    (passed : List Name) : (g.walks goal room node passed).Pairwise PathPrecedes := by
  induction room generalizing node passed with
  | zero =>
      rw [walks]
      split <;> simp
  | succ room ih =>
      rw [walks]
      split
      · simp
      · refine List.pairwise_flatMap.mpr ⟨fun next _ => ih next _, ?_⟩
        refine (pairwise_nexts hg node passed).imp fun hnext path hpath path' hpath' => ?_
        have hprefix := prefix_of_mem_walks hpath
        have hprefix' := prefix_of_mem_walks hpath'
        rw [List.reverse_cons] at hprefix hprefix'
        exact pathPrecedes_of_prefix hnext hprefix hprefix'

/-! ## The list of all simple paths -/

/-- The list holds the simple paths from `start` to `goal` with at most `limit` nodes, each of them
once, in lexicographic order. -/
structure ListsPaths (g : Graph) (limit : ℕ) (start goal : Name) (paths : List (List Name)) :
    Prop where
  mem_iff : ∀ path, path ∈ paths ↔ g.IsSimplePath limit start goal path
  nodup : paths.Nodup
  sorted : paths.Pairwise PathPrecedes

/-- The order leaves no choice. -/
lemma ListsPaths.unique {limit : ℕ} {start : Name} {paths paths' : List (List Name)}
    (h : g.ListsPaths limit start goal paths) (h' : g.ListsPaths limit start goal paths') :
    paths = paths' := by
  have hperm : paths.Perm paths' := (List.perm_ext_iff_of_nodup h.nodup h'.nodup).mpr fun path =>
    (h.mem_iff path).trans (h'.mem_iff path).symm
  exact hperm.eq_of_pairwise (fun _ _ _ _ hlt hgt => absurd hgt hlt.asymm) h.sorted h'.sorted

lemma listsPaths_allPaths (hg : g.ListsOnce) {limit : ℕ} (hlimit : 0 < limit) (start goal : Name) :
    g.ListsPaths limit start goal (g.allPaths limit start goal) where
  mem_iff _ := mem_allPaths_iff hlimit
  nodup := nodup_allPaths hg limit start goal
  sorted := pairwise_walks hg goal _ start _

/-- A search has found as many paths as it may exactly if it says so. -/
lemma reachedLimit_iff (start goal : Name) (search : PathSearch) :
    reachedLimit search (g.simplePaths start goal search) = true ↔
      (g.simplePaths start goal search).length = search.pathLimit := by
  have hle : (g.simplePaths start goal search).length ≤ search.pathLimit := by
    rw [simplePaths_eq_take]
    split
    · exact List.length_take_le _ _
    · exact Nat.zero_le _
  rw [reachedLimit, decide_eq_true_iff]
  omega

/-- **The search finds the first simple paths.** There is exactly one list of all simple paths with
as many nodes as the search allows. If both ends are nodes, the search returns as many paths from
the front of that list as it may, else none; and it says that it has stopped exactly if it returns
as many as it may. -/
theorem simplePaths_first (hg : g.ListsOnce) (start goal : Name) (search : PathSearch) :
    (∃! paths, g.ListsPaths (max 2 search.maxDepth).toNat start goal paths ∧
      g.simplePaths start goal search =
        if start ∈ g.keys ∧ goal ∈ g.keys then paths.take (max 1 search.maxPaths).toNat else []) ∧
    (reachedLimit search (g.simplePaths start goal search) = true ↔
      (g.simplePaths start goal search).length = (max 1 search.maxPaths).toNat) := by
  refine ⟨⟨g.allPaths search.nodeLimit start goal, ⟨?_, ?_⟩, ?_⟩,
    reachedLimit_iff start goal search⟩
  · exact listsPaths_allPaths hg (nodeLimit_pos search) start goal
  · rw [simplePaths_eq_take]
    simp only [Bool.and_eq_true, Table.contains_iff_mem_keys]
    rfl
  · rintro paths ⟨hpaths, -⟩
    exact hpaths.unique (listsPaths_allPaths hg (nodeLimit_pos search) start goal)

/-- The graph without directions in which all of four nodes are neighbours. -/
def completeFour : Graph :=
  skeleton (Table.ofList [("B", ["A"]), ("C", ["B", "A"]), ("D", ["C", "A", "B"])]) []

/-- Both bounds cut: of the five simple paths two are too long, and the last of the others is not
found any more. -/
theorem simplePaths_first_completeFour :
    completeFour.ListsOnce ∧ ∃ paths, completeFour.ListsPaths 3 "A" "D" paths ∧
      paths.take 2 = [["A", "B", "D"], ["A", "C", "D"]] ∧
      reachedLimit ⟨3, 2⟩ (completeFour.simplePaths "A" "D" ⟨3, 2⟩) = true := by
  have hg : completeFour.ListsOnce := listsOnce_skeleton _ _
  have hfound : completeFour.simplePaths "A" "D" ⟨3, 2⟩ = [["A", "B", "D"], ["A", "C", "D"]] := by
    cbv
  obtain ⟨⟨paths, ⟨hpaths, hfirst⟩, -⟩, hlimit⟩ := simplePaths_first hg "A" "D" ⟨3, 2⟩
  rw [hfound, if_pos (by decide +kernel)] at hfirst
  exact ⟨hg, paths, hpaths, hfirst.symm, hlimit.mpr (by rw [hfound]; rfl)⟩

end Graph

end CausalEquations
