import CausalEquations.Proofs.CausalOrder
import CausalEquations.Proofs.Tables
import Mathlib.Data.List.Nodup

/-!
# The graph without directions

Two nodes are neighbours in the skeleton if an edge joins them, whichever way it points, and neither
of them is excluded. So it makes no difference whether nodes are excluded from the skeleton or
deleted from the graph before.

* `Graph.mem_neighbours_skeleton`, `Graph.neighbours_skeleton_comm` — the neighbours.
* `Graph.ListsOnce`, `Graph.listsOnce_skeleton` — no neighbour is listed twice.
* `Graph.without`, `Graph.edge_without` — a graph with nodes deleted, and its edges.
* `Graph.skeleton_without` — excluding nodes is deleting them first.
-/

namespace CausalEquations

namespace Graph

/-! ## Neighbours -/

/-- What one parent of `child` adds to the skeleton. -/
def join (excluded : List Name) (child : Name) (t : Graph) (parent : Name) : Graph :=
  if excluded.contains parent then t else (t.addNeighbour child parent).addNeighbour parent child

/-- What one entry adds to the skeleton. -/
def joinEntry (excluded : List Name) (t : Graph) (e : Name × List Name) : Graph :=
  if excluded.contains e.1 then t
  else e.2.foldl (join excluded e.1) (t.insertIfNew e.1 [])

lemma skeleton_eq (g : Graph) (excluded : List Name) :
    g.skeleton excluded = g.entries.foldl (joinEntry excluded) Table.empty := rfl

variable {g : Graph} {excluded : List Name}

lemma mem_neighbours_join {t : Graph} {child parent node x : Name} :
    x ∈ (join excluded child t parent).neighbours node ↔
      x ∈ t.neighbours node ∨ (parent ∉ excluded ∧
        ((child = node ∧ parent = x) ∨ (child = x ∧ parent = node))) := by
  unfold join
  by_cases hparent : parent ∈ excluded
  · simp [hparent]
  · simp only [List.contains_iff_mem, hparent, if_false, mem_neighbours_addNeighbour, or_assoc,
      not_false_eq_true, true_and, eq_comm (a := x)]
    tauto

lemma mem_neighbours_joinEntry {t : Graph} {e : Name × List Name} {node x : Name} :
    x ∈ (joinEntry excluded t e).neighbours node ↔
      x ∈ t.neighbours node ∨ (e.1 ∉ excluded ∧ ∃ parent ∈ e.2, parent ∉ excluded ∧
        ((e.1 = node ∧ parent = x) ∨ (e.1 = x ∧ parent = node))) := by
  have hparents : ∀ (parents : List Name) (t : Graph),
      x ∈ neighbours (parents.foldl (join excluded e.1) t) node ↔
        x ∈ t.neighbours node ∨ ∃ parent ∈ parents, parent ∉ excluded ∧
          ((e.1 = node ∧ parent = x) ∨ (e.1 = x ∧ parent = node)) := by
    intro parents
    induction parents with
    | nil => simp
    | cons parent rest ih =>
        intro t
        rw [List.foldl_cons, ih, List.exists_mem_cons_iff, mem_neighbours_join, or_assoc]
  unfold joinEntry
  by_cases hchild : e.1 ∈ excluded
  · simp [hchild]
  · rw [if_neg (by simpa using hchild), hparents, neighbours_insertIfNew]
    simp [hchild]

/-- **The neighbours in the skeleton** are the parents and the children that are not excluded. -/
theorem mem_neighbours_skeleton {a b : Name} :
    b ∈ (g.skeleton excluded).neighbours a ↔
      a ∉ excluded ∧ b ∉ excluded ∧ (g.Edge a b ∨ g.Edge b a) := by
  have hentries : ∀ (entries : List (Name × List Name)) (t : Graph),
      b ∈ neighbours (entries.foldl (joinEntry excluded) t) a ↔
        b ∈ t.neighbours a ∨ ∃ e ∈ entries, e.1 ∉ excluded ∧ ∃ parent ∈ e.2, parent ∉ excluded ∧
          ((e.1 = a ∧ parent = b) ∨ (e.1 = b ∧ parent = a)) := by
    intro entries
    induction entries with
    | nil => simp
    | cons e rest ih =>
        intro t
        rw [List.foldl_cons, ih, List.exists_mem_cons_iff, mem_neighbours_joinEntry, or_assoc]
  rw [skeleton_eq, hentries, neighbours_empty]
  constructor
  · rintro (hnone | ⟨⟨child, parents⟩, hmem, hchild, parent, hparent, hfree, hends⟩)
    · cases hnone
    · have hedge : g.Edge parent child := by rwa [Edge, neighbours_of_mem_entries hmem]
      rcases hends with ⟨rfl, rfl⟩ | ⟨rfl, rfl⟩
      · exact ⟨hchild, hfree, .inr hedge⟩
      · exact ⟨hfree, hchild, .inl hedge⟩
  · rintro ⟨ha, hb, hedge | hedge⟩
    · exact .inr ⟨_, mem_entries_of_edge hedge, hb, a, hedge, ha, .inr ⟨rfl, rfl⟩⟩
    · exact .inr ⟨_, mem_entries_of_edge hedge, ha, b, hedge, hb, .inl ⟨rfl, rfl⟩⟩

lemma neighbours_skeleton_comm {a b : Name} (h : b ∈ (g.skeleton excluded).neighbours a) :
    a ∈ (g.skeleton excluded).neighbours b := by
  rw [mem_neighbours_skeleton] at h ⊢
  exact ⟨h.2.1, h.1, h.2.2.symm⟩

/-- Every listing of neighbours is without repetition. -/
def ListsOnce (g : Graph) : Prop := ∀ node, (g.neighbours node).Nodup

/-- Neighbours are given as sets if no entry lists one twice. -/
lemma listsOnce_of_entries (h : ∀ e ∈ g.entries, e.2.Nodup) : g.ListsOnce := by
  intro node
  rw [neighbours, Table.getD]
  cases hget : g.get? node with
  | none => exact List.nodup_nil
  | some names => exact h _ (Table.mem_of_get? hget)

lemma ListsOnce.addNeighbour (h : g.ListsOnce) (node neighbour : Name) :
    (g.addNeighbour node neighbour).ListsOnce := by
  intro other
  simp only [Graph.addNeighbour, neighbours_insert]
  split
  · split
    · exact h node
    · rename_i hnew
      rw [List.contains_iff_mem] at hnew
      exact List.concat_eq_append ▸ (h node).concat hnew
  · exact h other

/-- A neighbour is added to the skeleton once. -/
lemma listsOnce_skeleton (g : Graph) (excluded : List Name) : (g.skeleton excluded).ListsOnce := by
  have hjoin : ∀ t : Graph, t.ListsOnce → ∀ child parent,
      (join excluded child t parent).ListsOnce := by
    intro t ht child parent
    unfold join
    split
    · exact ht
    · exact (ht.addNeighbour child parent).addNeighbour parent child
  have hentry : ∀ t : Graph, t.ListsOnce → ∀ e, (joinEntry excluded t e).ListsOnce := by
    intro t ht e
    unfold joinEntry
    split
    · exact ht
    · exact List.foldlRecOn (motive := ListsOnce) e.2 _ (fun node => by simpa using ht node)
        fun t ht parent _ => hjoin t ht e.1 parent
  exact List.foldlRecOn (motive := ListsOnce) g.entries _ (fun node => by simp)
    fun t ht e _ => hentry t ht e

/-! ## Deleted nodes -/

/-- The graph without certain nodes and all edges at them. -/
def without (g : Graph) (deleted : List Name) : Graph :=
  (g.filter fun node _ => !deleted.contains node).map fun _ parents =>
    parents.filter fun parent => !deleted.contains parent

/-- The edges that are left are those between the nodes that are left. -/
lemma edge_without {deleted : List Name} {parent child : Name} :
    (g.without deleted).Edge parent child ↔
      g.Edge parent child ∧ parent ∉ deleted ∧ child ∉ deleted := by
  unfold Edge neighbours Table.getD without
  rw [Table.get?_map, Table.get?_filter]
  cases Table.get? g child with
  | none => simp
  | some parents =>
      by_cases hchild : child ∈ deleted <;> simp [Option.filter, hchild]

/-- **Excluding nodes is deleting them first**, as far as the skeleton goes. -/
theorem skeleton_without (g : Graph) (deleted : List Name) :
    (g.without deleted).skeleton [] = g.skeleton deleted := by
  have hjoin : ∀ child t parent, (if (!deleted.contains parent) = true then join [] child t parent
      else t) = join deleted child t parent := by
    intro child t parent
    by_cases hparent : parent ∈ deleted <;> simp [join, hparent]
  have hentry : ∀ t (e : Name × List Name), (if (!deleted.contains e.1) = true then
      joinEntry [] t (e.1, e.2.filter fun parent => !deleted.contains parent) else t) =
        joinEntry deleted t e := by
    intro t e
    by_cases hchild : e.1 ∈ deleted
    · simp [joinEntry, hchild]
    · simp only [joinEntry, List.foldl_filter, hjoin]
      simp [hchild]
  simp only [skeleton_eq, without, Table.map, Table.filter, List.foldl_map, List.foldl_filter,
    hentry]

end Graph

end CausalEquations
