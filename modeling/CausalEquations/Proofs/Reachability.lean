import CausalEquations.Graph.Reachability
import CausalEquations.Proofs.CausalOrder

/-!
# Cycles closed by an edge

The nodes reached from a node are collected in rounds. A round that finds nothing new ends the
collection, and every other round uses up an entry, so as many rounds as entries find everything.

* `Graph.mem_reached_iff` — what is collected are the nodes that paths lead to.
* `Graph.closesCycle_iff` — the test for a new edge asks for a path back.
* `Graph.order_eq_error_iff` — the graphs without causal order are those with a cycle.
* `Graph.acyclic_iff_of_newEdge` — a changed graph with one new edge is acyclic exactly if the old
  graph has no path back.
-/

namespace CausalEquations

namespace Graph

open Relation

variable {g : Graph}

/-! ## One round -/

/-- Whatever has a parent among the nodes is one of them. -/
def ClosedUnder (g : Graph) (seen : List Name) : Prop :=
  ∀ parent ∈ seen, ∀ child, g.Edge parent child → child ∈ seen

/-- The entries that have not been seen. -/
def missing (g : Graph) (seen : List Name) : List Name := g.keys.filter fun node => node ∉ seen

lemma child_mem_keys {parent child : Name} (h : g.Edge parent child) : child ∈ g.keys :=
  List.mem_map.mpr ⟨_, mem_entries_of_edge h, rfl⟩

/-- A round adds the children of what has been seen. -/
lemma mem_grow {seen : List Name} {node : Name} :
    node ∈ g.grow seen ↔ node ∈ seen ∨ ∃ parent ∈ seen, g.Edge parent node := by
  have hany : ((g.neighbours node).any fun parent => seen.contains parent) = true ↔
      ∃ parent ∈ seen, g.Edge parent node := by
    simp only [List.any_eq_true, List.contains_iff_mem]
    exact exists_congr fun parent => and_comm
  simp only [grow, List.mem_append, List.mem_filter, Bool.and_eq_true, hany]
  constructor
  · rintro (hseen | ⟨-, -, hparent⟩)
    · exact .inl hseen
    · exact .inr hparent
  · rintro (hseen | ⟨parent, hparent, hedge⟩)
    · exact .inl hseen
    · by_cases hseen : node ∈ seen
      · exact .inl hseen
      · exact .inr ⟨child_mem_keys hedge, by simpa using hseen, parent, hparent, hedge⟩

/-- A closed list stays as it is. -/
lemma ClosedUnder.grow_eq {seen : List Name} (h : g.ClosedUnder seen) : g.grow seen = seen := by
  have hnone : (g.keys.filter fun child => !seen.contains child &&
      (g.neighbours child).any fun parent => seen.contains parent) = [] := by
    refine List.filter_eq_nil_iff.mpr fun child _ hchild => ?_
    simp only [Bool.and_eq_true, List.any_eq_true, Bool.not_eq_true', List.contains_eq_mem,
      decide_eq_false_iff_not] at hchild
    obtain ⟨hnew, parent, hedge, hparent⟩ := hchild
    exact hnew (h parent (by simpa using hparent) child hedge)
  rw [grow, hnone, List.append_nil]

/-- A round over a list that is not closed finds a missing entry. -/
lemma length_missing_grow {seen : List Name} (h : ¬ g.ClosedUnder seen) :
    (g.missing (g.grow seen)).length < (g.missing seen).length := by
  obtain ⟨parent, hparent, child, hedge, hnew⟩ :
      ∃ parent ∈ seen, ∃ child, g.Edge parent child ∧ child ∉ seen := by
    simpa [ClosedUnder] using h
  have hsub : ∀ node, node ∉ g.grow seen → node ∉ seen := fun node hn hseen =>
    hn (mem_grow.mpr (.inl hseen))
  have hsplit : g.missing (g.grow seen) = (g.missing seen).filter fun node => node ∉ g.grow seen := by
    rw [missing, missing, List.filter_filter]
    refine List.filter_congr fun node _ => ?_
    simpa using hsub node
  rw [hsplit]
  refine List.length_filter_lt_length_iff_exists.mpr ⟨child, ?_, ?_⟩
  · exact List.mem_filter.mpr ⟨child_mem_keys hedge, by simpa using hnew⟩
  · simpa using mem_grow.mpr (.inr ⟨parent, hparent, hedge⟩)

/-! ## All rounds -/

lemma subset_growTimes (rounds : ℕ) (seen : List Name) : seen ⊆ g.growTimes rounds seen := by
  induction rounds generalizing seen with
  | zero => exact fun _ h => h
  | succ rounds ih => exact fun node h => ih (g.grow seen) (mem_grow.mpr (.inl h))

/-- What is collected can be reached. -/
lemma exists_path_of_mem_growTimes {rounds : ℕ} {seen : List Name} {node : Name}
    (h : node ∈ g.growTimes rounds seen) : ∃ start ∈ seen, ReflTransGen g.Edge start node := by
  induction rounds generalizing seen with
  | zero => exact ⟨node, h, .refl⟩
  | succ rounds ih =>
      obtain ⟨next, hnext, hpath⟩ := ih h
      rcases mem_grow.mp hnext with hseen | ⟨parent, hparent, hedge⟩
      · exact ⟨next, hseen, hpath⟩
      · exact ⟨parent, hparent, hpath.head hedge⟩

lemma ClosedUnder.growTimes_eq {seen : List Name} (h : g.ClosedUnder seen) (rounds : ℕ) :
    g.growTimes rounds seen = seen := by
  induction rounds with
  | zero => rfl
  | succ rounds ih => rw [growTimes, h.grow_eq, ih]

/-- As many rounds as entries are missing end on a closed list. -/
lemma closedUnder_growTimes {rounds : ℕ} {seen : List Name}
    (h : (g.missing seen).length ≤ rounds) : g.ClosedUnder (g.growTimes rounds seen) := by
  induction rounds generalizing seen with
  | zero =>
      by_contra hopen
      have := length_missing_grow hopen
      simp only [growTimes] at this
      omega
  | succ rounds ih =>
      by_cases hclosed : g.ClosedUnder seen
      · rwa [hclosed.growTimes_eq]
      · have := length_missing_grow hclosed
        exact ih (by omega)

/-- **What is reached from a node is what paths lead to.** -/
theorem mem_reached_iff {start node : Name} :
    node ∈ g.reached start ↔ ReflTransGen g.Edge start node := by
  constructor
  · intro h
    obtain ⟨_, hstart, hpath⟩ := exists_path_of_mem_growTimes h
    exact List.mem_singleton.mp hstart ▸ hpath
  · intro hpath
    have hrounds : (g.missing [start]).length ≤ g.size := by
      rw [Table.size, ← List.length_map Prod.fst]
      exact List.length_filter_le _ g.keys
    have hclosed : g.ClosedUnder (g.reached start) := closedUnder_growTimes hrounds
    induction hpath with
    | refl => exact subset_growTimes _ _ (List.mem_singleton_self start)
    | tail _ hedge ih => exact hclosed _ ih _ hedge

/-- An edge closes a cycle if a path leads back from its end to its beginning. -/
theorem closesCycle_iff {source target : Name} :
    g.closesCycle source target = true ↔
      source ≠ "" ∧ target ≠ "" ∧ ReflTransGen g.Edge target source := by
  simp only [closesCycle, Bool.and_eq_true, Bool.not_eq_true', List.contains_iff_mem,
    mem_reached_iff, and_assoc, ← Bool.not_eq_true, String.isEmpty_iff, ne_eq]

/-! ## A new edge -/

/-- The graphs without a causal order are those with a cycle. -/
theorem order_eq_error_iff : g.order = .error {} ↔ ¬ g.Acyclic := by
  constructor
  · intro h hg
    obtain ⟨order, hok⟩ := exists_order_of_acyclic hg
    rw [h] at hok
    cases hok
  · intro hg
    cases h : g.order with
    | error e => rfl
    | ok order => exact absurd (isCausalOrder_of_order h).acyclic hg

variable {g' : Graph} {source target : Name}

/-- A path over a graph with one new edge is an old path, or it comes by the new edge. -/
lemma old_or_through (hnew : ∀ parent child, g'.Edge parent child →
      g.Edge parent child ∨ (parent = source ∧ child = target)) {a b : Name}
    (h : TransGen g'.Edge a b) :
    TransGen g.Edge a b ∨ (ReflTransGen g.Edge a source ∧ ReflTransGen g.Edge target b) := by
  induction h with
  | single hedge =>
      rcases hnew _ _ hedge with hold | ⟨rfl, rfl⟩
      · exact .inl (.single hold)
      · exact .inr ⟨.refl, .refl⟩
  | tail _ hedge ih =>
      rcases hnew _ _ hedge with hold | ⟨rfl, rfl⟩
      · exact ih.imp (·.tail hold) fun hthrough => ⟨hthrough.1, hthrough.2.tail hold⟩
      · exact .inr ⟨ih.elim TransGen.to_reflTransGen And.left, .refl⟩

/-- In an acyclic graph no path from a node enters that node again, so the path is there as long
as the edges into other nodes are. -/
lemma path_of_keeps (hg : g.Acyclic) (hkeep : ∀ parent child, g.Edge parent child →
    child ≠ target → g'.Edge parent child) {node : Name} (h : ReflTransGen g.Edge target node) :
    ReflTransGen g'.Edge target node := by
  induction h with
  | refl => exact .refl
  | tail hpath hedge ih =>
      refine ih.tail (hkeep _ _ hedge ?_)
      rintro rfl
      exact hg _ (.tail' hpath hedge)

/-- **A new edge closes a cycle exactly if there is a path back.** The edges of an acyclic graph may
change at one node, where one edge is new and any of the old ones may be lost. Then the changed
graph is acyclic exactly if the old one has no path from the end of the new edge to its
beginning. -/
theorem acyclic_iff_of_newEdge (hg : g.Acyclic) (hedge : g'.Edge source target)
    (hnew : ∀ parent child, g'.Edge parent child →
      g.Edge parent child ∨ (parent = source ∧ child = target))
    (hkeep : ∀ parent child, g.Edge parent child → child ≠ target → g'.Edge parent child) :
    g'.Acyclic ↔ ¬ ReflTransGen g.Edge target source := by
  constructor
  · intro hg' hback
    exact hg' target (.tail' (path_of_keeps hg hkeep hback) hedge)
  · intro hback node hcycle
    rcases old_or_through hnew hcycle with hold | ⟨hto, hfrom⟩
    · exact hg node hold
    · exact hback (hfrom.trans hto)

end Graph

end CausalEquations
