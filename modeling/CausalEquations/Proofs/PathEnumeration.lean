import CausalEquations.Proofs.NameOrder
import CausalEquations.Proofs.SimplePaths
import CausalEquations.Proofs.Skeleton
import Mathlib.Data.List.Nodup

/-!
# All simple paths

A search that may find any number of paths lists every simple path within the bound on its nodes,
and lists it once. The search that stops at a number of paths has found the beginning of this
listing, so it misses nothing as long as it does not reach its limit.

* `Graph.walks`, `Graph.allPaths` — the search without a limit on the number of paths.
* `Graph.walk_eq_take`, `Graph.simplePaths_eq_take` — the limit cuts the listing off and does
  nothing else.
* `Graph.IsSimplePath` — what a simple path is, without a search.
* `Graph.mem_allPaths_iff`, `Graph.nodup_allPaths` — the listing is complete, and each path is
  listed once.
* `Graph.simplePaths_perm_reverse` — the paths back are the reversed paths there.
-/

namespace CausalEquations

namespace Graph

/-! ## Searching without a limit -/

/-- Where a path can go on from `node`, in code point order. -/
def nexts (g : Graph) (node : Name) (passed : List Name) : List Name :=
  (sortedNames (g.neighbours node)).filter fun next => !passed.contains next

/-- All simple paths to `goal` that extend `passed`, which is listed from its end and ends in
`node`, by at most `room` nodes. -/
def walks (g : Graph) (goal : Name) :
    (room : ℕ) → (node : Name) → (passed : List Name) → List (List Name)
  | room, node, passed =>
    if node = goal then [passed.reverse]
    else
      match room with
      | 0 => []
      | room + 1 =>
        (g.nexts node passed).flatMap fun next => g.walks goal room next (next :: passed)

/-- All simple paths from `start` to `goal` with at most `limit` nodes. -/
def allPaths (g : Graph) (limit : ℕ) (start goal : Name) : List (List Name) :=
  g.walks goal (limit - 1) start [start]

lemma take_take_append {α : Type} (l l' : List α) (n : ℕ) :
    (l.take n ++ l').take n = (l ++ l').take n := by
  have hleft : n - min n l.length = n - l.length := by omega
  rw [List.take_append, List.take_append, List.take_take, min_self, List.length_take, hleft]

/-- Collecting pieces until there are enough is collecting all of them and cutting off. -/
lemma foldl_collect_eq_take (skip : Name → Bool) (pieces : Name → List (List Name)) {budget : ℕ}
    {found : List (List Name)} (names : List Name) (hfound : found.length ≤ budget) :
    names.foldl (fun found name =>
        if skip name || budget ≤ found.length then found
        else found ++ (pieces name).take (budget - found.length)) found =
      (found ++ (names.filter fun name => !skip name).flatMap pieces).take budget := by
  induction names generalizing found with
  | nil => simp [List.take_of_length_le hfound]
  | cons name rest ih =>
      rw [List.foldl_cons]
      cases hskip : skip name with
      | true => simpa [hskip] using ih hfound
      | false =>
          have hstep : (if (false || decide (budget ≤ found.length)) = true then found
              else found ++ (pieces name).take (budget - found.length)) =
                (found ++ pieces name).take budget := by
            by_cases hfull : budget ≤ found.length
            · simp [hfull, List.take_append_of_le_length hfull,
                List.take_of_length_le hfound]
            · simp [hfull, List.take_append, List.take_of_length_le hfound]
          rw [hstep, ih (List.length_take_le _ _), take_take_append]
          simp [hskip]

/-- **The limit only cuts off.** -/
theorem walk_eq_take (g : Graph) (goal : Name) (room budget : ℕ) (node : Name)
    (passed : List Name) :
    g.walk goal room budget node passed = (g.walks goal room node passed).take budget := by
  induction room generalizing budget node passed with
  | zero =>
      rw [walk, walks]
      by_cases hbudget : budget = 0
      · simp [hbudget]
      · by_cases hgoal : node = goal
        · simp [hbudget, hgoal, List.take_of_length_le, Nat.one_le_iff_ne_zero]
        · simp [hbudget, hgoal]
  | succ room ih =>
      rw [walk, walks]
      by_cases hbudget : budget = 0
      · simp [hbudget]
      · by_cases hgoal : node = goal
        · simp [hbudget, hgoal, List.take_of_length_le, Nat.one_le_iff_ne_zero]
        · simp only [hbudget, hgoal, if_false, ih]
          exact foldl_collect_eq_take passed.contains
            (fun next => g.walks goal room next (next :: passed)) _ (Nat.zero_le _)

theorem simplePaths_eq_take (g : Graph) (start goal : Name) (search : PathSearch) :
    g.simplePaths start goal search =
      if g.contains start && g.contains goal then
        (g.allPaths search.nodeLimit start goal).take search.pathLimit
      else [] := by
  rw [simplePaths, allPaths, walk_eq_take]

/-! ## What is listed -/

/-- A simple path from `start` to `goal` with at most `limit` nodes. -/
structure IsSimplePath (g : Graph) (limit : ℕ) (start goal : Name) (path : List Name) : Prop where
  starts : path.head? = some start
  ends : path.getLast? = some goal
  chain : path.IsChain fun a b => b ∈ g.neighbours a
  nodup : path.Nodup
  length_le : path.length ≤ limit

variable {g : Graph} {goal : Name}

lemma mem_nexts {node next : Name} {passed : List Name} :
    next ∈ g.nexts node passed ↔ next ∈ g.neighbours node ∧ next ∉ passed := by
  simp [nexts]

/-- Every path that is found extends what was passed before. -/
lemma prefix_of_mem_walks {room : ℕ} {node : Name} {passed path : List Name}
    (h : path ∈ g.walks goal room node passed) : passed.reverse <+: path := by
  induction room generalizing node passed with
  | zero =>
      rw [walks] at h
      split at h
      · rw [List.mem_singleton.mp h]
      · cases h
  | succ room ih =>
      rw [walks] at h
      split at h
      · rw [List.mem_singleton.mp h]
      · obtain ⟨next, -, hpath⟩ := List.mem_flatMap.mp h
        have hlonger := ih hpath
        rw [List.reverse_cons] at hlonger
        exact (List.prefix_append _ _).trans hlonger

/-- At the goal the search stops. -/
lemma walks_goal (g : Graph) (goal : Name) (room : ℕ) (passed : List Name) :
    g.walks goal room goal passed = [passed.reverse] := by
  cases room <;> rw [walks, if_pos rfl]

/-- The list leads on from `node` to the goal along neighbours, over at most `room` nodes. -/
structure LeadsOn (g : Graph) (goal : Name) (room : ℕ) (node : Name) (rest : List Name) : Prop where
  ends : (node :: rest).getLast? = some goal
  chain : (node :: rest).IsChain fun a b => b ∈ g.neighbours a
  length_le : rest.length ≤ room

lemma leadsOn_nil {room : ℕ} {node : Name} : g.LeadsOn goal room node [] ↔ node = goal :=
  ⟨fun h => by simpa using h.ends, fun h => ⟨by simp [h], by simp, by simp⟩⟩

lemma leadsOn_cons {room : ℕ} {node next : Name} {rest : List Name} :
    g.LeadsOn goal (room + 1) node (next :: rest) ↔
      next ∈ g.neighbours node ∧ g.LeadsOn goal room next rest := by
  constructor
  · rintro ⟨hends, hchain, hlength⟩
    obtain ⟨hnext, hrest⟩ := List.isChain_cons_cons.mp hchain
    exact ⟨hnext, by simpa using hends, hrest, by simpa using hlength⟩
  · rintro ⟨hnext, hends, hrest, hlength⟩
    exact ⟨by simpa using hends, List.isChain_cons_cons.mpr ⟨hnext, hrest⟩, by simpa using hlength⟩

/-- Nothing follows the goal on a path that has passed it before and ends with it. -/
lemma LeadsOn.eq_nil {room : ℕ} {passed rest : List Name} (h : g.LeadsOn goal room goal rest)
    (hgoal : goal ∈ passed) (hnodup : (passed ++ rest).Nodup) : rest = [] := by
  rcases rest.eq_nil_or_concat with rfl | ⟨front, last, rfl⟩
  · rfl
  · obtain rfl : last = goal := by simpa [List.getLast?_cons] using h.ends
    exact absurd rfl ((List.nodup_append.mp hnodup).2.2 last hgoal last (by simp))

/-- At the goal nothing is left to find. -/
lemma mem_walks_goal {room : ℕ} {before path : List Name} (hpassed : (goal :: before).Nodup) :
    path ∈ g.walks goal room goal (goal :: before) ↔
      path.Nodup ∧ ∃ rest, g.LeadsOn goal room goal rest ∧
        path = (goal :: before).reverse ++ rest := by
  rw [walks_goal, List.mem_singleton]
  constructor
  · rintro rfl
    exact ⟨List.nodup_reverse.mpr hpassed, [], leadsOn_nil.mpr rfl, by simp⟩
  · rintro ⟨hnodup, rest, hrest, rfl⟩
    rw [hrest.eq_nil (by simp) hnodup, List.append_nil]

/-- **Every way to go on is found.** What is found extends what was passed by a list that leads on
to the goal, and repeats no node. -/
theorem mem_walks_iff {room : ℕ} {node : Name} {before path : List Name}
    (hpassed : (node :: before).Nodup) :
    path ∈ g.walks goal room node (node :: before) ↔
      path.Nodup ∧ ∃ rest, g.LeadsOn goal room node rest ∧
        path = (node :: before).reverse ++ rest := by
  induction room generalizing node before with
  | zero =>
      by_cases hgoal : node = goal
      · subst hgoal
        exact mem_walks_goal hpassed
      · rw [walks, if_neg hgoal]
        refine iff_of_false List.not_mem_nil ?_
        rintro ⟨-, rest, hrest, -⟩
        obtain rfl : rest = [] := List.length_eq_zero_iff.mp (Nat.le_zero.mp hrest.length_le)
        exact hgoal (leadsOn_nil.mp hrest)
  | succ room ih =>
      by_cases hgoal : node = goal
      · subst hgoal
        exact mem_walks_goal hpassed
      · rw [walks, if_neg hgoal, List.mem_flatMap]
        constructor
        · rintro ⟨next, hnext, hpath⟩
          obtain ⟨hneighbour, hnew⟩ := mem_nexts.mp hnext
          obtain ⟨hnodup, rest, hrest, rfl⟩ := (ih (List.nodup_cons.mpr ⟨hnew, hpassed⟩)).mp hpath
          exact ⟨hnodup, next :: rest, leadsOn_cons.mpr ⟨hneighbour, hrest⟩, by simp⟩
        · rintro ⟨hnodup, rest, hrest, rfl⟩
          cases rest with
          | nil => exact absurd (leadsOn_nil.mp hrest) hgoal
          | cons next rest =>
              obtain ⟨hneighbour, hrest⟩ := leadsOn_cons.mp hrest
              have hnew : next ∉ node :: before := fun hmem =>
                (List.nodup_append.mp hnodup).2.2 next (List.mem_reverse.mpr hmem) next (by simp)
                  rfl
              exact ⟨next, mem_nexts.mpr ⟨hneighbour, hnew⟩,
                (ih (List.nodup_cons.mpr ⟨hnew, hpassed⟩)).mpr ⟨hnodup, rest, hrest, by simp⟩⟩

/-- **The listing is complete**, and holds simple paths only. -/
theorem mem_allPaths_iff {limit : ℕ} {start : Name} {path : List Name} (hlimit : 0 < limit) :
    path ∈ g.allPaths limit start goal ↔ g.IsSimplePath limit start goal path := by
  rw [allPaths, mem_walks_iff (List.nodup_singleton start)]
  constructor
  · rintro ⟨hnodup, rest, hrest, rfl⟩
    have hlength := hrest.length_le
    exact ⟨by simp, by simpa using hrest.ends, by simpa using hrest.chain, hnodup, by
      simp only [List.reverse_singleton, List.singleton_append, List.length_cons]
      omega⟩
  · rintro ⟨hstarts, hends, hchain, hnodup, hlength⟩
    obtain ⟨rest, rfl⟩ : ∃ rest, path = start :: rest := by
      cases path with
      | nil => cases hstarts
      | cons first rest => exact ⟨rest, by rw [Option.some.inj hstarts]⟩
    refine ⟨hnodup, rest, ⟨hends, hchain, ?_⟩, by simp⟩
    simp only [List.length_cons] at hlength
    omega

lemma nodeLimit_pos (search : PathSearch) : 0 < search.nodeLimit := by
  unfold PathSearch.nodeLimit
  omega

/-- What a search finds is a simple path, whether it stops at its limit or not. -/
theorem isSimplePath_of_mem_simplePaths {start : Name} {search : PathSearch} {path : List Name}
    (h : path ∈ g.simplePaths start goal search) :
    g.IsSimplePath search.nodeLimit start goal path := by
  rw [simplePaths_eq_take] at h
  split at h
  · exact (mem_allPaths_iff (nodeLimit_pos search)).mp (List.mem_of_mem_take h)
  · cases h

/-! ## Each path once -/

/-- No path is found twice if no neighbour is listed twice: paths over different neighbours
differ. -/
theorem nodup_walks (hg : g.ListsOnce) (goal : Name) (room : ℕ) (node : Name)
    (passed : List Name) : (g.walks goal room node passed).Nodup := by
  induction room generalizing node passed with
  | zero =>
      rw [walks]
      split <;> simp
  | succ room ih =>
      rw [walks]
      split
      · simp
      · have hnexts : (g.nexts node passed).Nodup :=
          ((sortedNames_perm _).nodup_iff.mpr (hg node)).filter _
        refine List.nodup_flatMap.mpr ⟨fun next _ => ih next _, hnexts.imp fun hne => ?_⟩
        intro path hpath hpath'
        have hprefix := prefix_of_mem_walks hpath
        have hprefix' := prefix_of_mem_walks hpath'
        have heq := List.prefix_of_prefix_length_le hprefix hprefix' (by simp)
        have hlast := heq.eq_of_length (by simp)
        exact hne (by simpa using hlast)

lemma nodup_allPaths (hg : g.ListsOnce) (limit : ℕ) (start goal : Name) :
    (g.allPaths limit start goal).Nodup := nodup_walks hg goal _ start _

/-! ## Paths back -/

lemma IsSimplePath.reverse (hg : ∀ a b, b ∈ g.neighbours a → a ∈ g.neighbours b) {limit : ℕ}
    {start : Name} {path : List Name} (h : g.IsSimplePath limit start goal path) :
    g.IsSimplePath limit goal start path.reverse where
  starts := by simpa using h.ends
  ends := by simpa using h.starts
  chain := List.isChain_reverse.mpr (h.chain.imp hg)
  nodup := List.nodup_reverse.mpr h.nodup
  length_le := by simpa using h.length_le

/-- **The paths back are the paths there, reversed**, in a graph without directions, if the search
does not stop at its limit. -/
theorem simplePaths_perm_reverse (hg : ∀ a b, b ∈ g.neighbours a → a ∈ g.neighbours b)
    (hg' : g.ListsOnce) {start : Name} {search : PathSearch}
    (hfew : (g.simplePaths start goal search).length < search.pathLimit) :
    (g.simplePaths goal start search).Perm
      ((g.simplePaths start goal search).map List.reverse) := by
  rw [simplePaths_eq_take] at hfew
  rw [simplePaths_eq_take, simplePaths_eq_take, Bool.and_comm]
  split
  · rename_i hnodes
    rw [if_pos hnodes, List.length_take] at hfew
    have hall : (g.allPaths search.nodeLimit start goal).length ≤ search.pathLimit := by omega
    have hperm : (g.allPaths search.nodeLimit goal start).Perm
        ((g.allPaths search.nodeLimit start goal).map List.reverse) := by
      refine (List.perm_ext_iff_of_nodup (nodup_allPaths hg' _ _ _)
        ((nodup_allPaths hg' _ _ _).map List.reverse_injective)).mpr fun path => ?_
      simp only [List.mem_map, mem_allPaths_iff (nodeLimit_pos search)]
      constructor
      · exact fun h => ⟨path.reverse, h.reverse hg, List.reverse_reverse path⟩
      · rintro ⟨path, h, rfl⟩
        exact h.reverse hg
    have hback : (g.allPaths search.nodeLimit goal start).length ≤ search.pathLimit := by
      rw [hperm.length_eq, List.length_map]
      exact hall
    rwa [List.take_of_length_le hall, List.take_of_length_le hback]
  · rfl

end Graph

end CausalEquations
