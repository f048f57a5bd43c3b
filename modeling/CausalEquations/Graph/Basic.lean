import CausalEquations.Model.Basic

/-!
# Dependency graphs

A graph lists for each node its neighbours. In the graph of a model these are the parents: the
variables that an equation reads.

* `Graph` — neighbour lists by node.
* `Graph.ofModel` — the dependency graph of a model.
* `Graph.nodes` — every node that has an entry or occurs as a neighbour.
* `Graph.children` — the graph with every edge reversed.
* `Graph.skeleton` — the graph without directions, and without excluded nodes.
* `Graph.mem_neighbours_addNeighbour` — what a new neighbour changes.
-/

namespace CausalEquations

/-- Neighbours by node. A neighbour need not have an entry of its own. -/
abbrev Graph := Table (List Name)

namespace Graph

/-- The neighbours of a node; none if it has no entry. -/
def neighbours (g : Graph) (node : Name) : List Name := g.getD node []

/-- The parents of each variable of a model. -/
def ofModel {α : Type} (model : Model α) : Graph := model.map fun _ entry => entry.dependencies

/-- The nodes with an entry, in order, and then the neighbours without one, in order of first
occurrence. -/
def nodes (g : Graph) : List Name :=
  (g.keys ++ g.entries.flatMap fun e => e.2).eraseDups

/-- Whether every neighbour has an entry of its own. -/
def isClosed (g : Graph) : Bool := g.entries.all fun e => e.2.all fun n => g.contains n

/-- Adds a neighbour to a node, once. -/
def addNeighbour (g : Graph) (node neighbour : Name) : Graph :=
  let old := g.neighbours node
  g.insert node (if old.contains neighbour then old else old ++ [neighbour])

/-- The children of every node, from a graph of parents. -/
def children (g : Graph) : Graph :=
  g.entries.foldl
    (fun t e => e.2.foldl (fun t parent => t.addNeighbour parent e.1) (t.insertIfNew e.1 []))
    Table.empty

/-- Neighbours in either direction, from a graph of parents. Excluded nodes and their edges are left
out. -/
def skeleton (g : Graph) (excluded : List Name) : Graph :=
  g.entries.foldl
    (fun t e =>
      if excluded.contains e.1 then t
      else
        e.2.foldl
          (fun t parent =>
            if excluded.contains parent then t
            else (t.addNeighbour e.1 parent).addNeighbour parent e.1)
          (t.insertIfNew e.1 []))
    Table.empty

/-! ## Neighbours after a change -/

theorem neighbours_insert (g : Graph) (node other : Name) (list : List Name) :
    neighbours (g.insert node list) other = if node = other then list else g.neighbours other := by
  simp only [neighbours, Table.getD, Table.get?_insert]
  split <;> rfl

@[simp] theorem neighbours_empty (node : Name) : neighbours Table.empty node = [] := rfl

/-- An entry without neighbours says nothing new. -/
@[simp] theorem neighbours_insertIfNew (g : Graph) (node other : Name) :
    neighbours (g.insertIfNew node []) other = g.neighbours other := by
  simp only [neighbours, Table.getD, Table.get?_insertIfNew]
  split
  · rename_i h
    rw [← h]
    rfl
  · rfl

theorem mem_neighbours_addNeighbour {g : Graph} {node neighbour other x : Name} :
    x ∈ (g.addNeighbour node neighbour).neighbours other ↔
      x ∈ g.neighbours other ∨ (node = other ∧ x = neighbour) := by
  simp only [addNeighbour, neighbours_insert]
  by_cases hnode : node = other
  · subst hnode
    by_cases hold : neighbour ∈ g.neighbours node
    · simp only [if_true, List.contains_iff_mem.mpr hold, true_and]
      exact ⟨Or.inl, fun h => h.elim id fun heq => heq ▸ hold⟩
    · simp [hold]
  · simp [hnode]

end Graph

end CausalEquations
