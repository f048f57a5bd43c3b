import CausalEquations.Graph.Basic

/-!
# Reachability

* `Graph.reached` — what can be reached from a node along edges from parent to child, in a graph of
  parents.
* `Graph.closesCycle` — whether a new edge would close a directed cycle.
* `Graph.descendants` — the descendants of every node, in a graph of children.
-/

namespace CausalEquations

namespace Graph

/-! ## Closing a cycle -/

/-- Adds the entries that have a parent among the nodes seen so far. -/
def grow (g : Graph) (seen : List Name) : List Name :=
  seen ++ g.keys.filter fun child =>
    !seen.contains child && (g.neighbours child).any fun parent => seen.contains parent

/-- The nodes within `rounds` edges of those seen so far. -/
def growTimes (g : Graph) : (rounds : Nat) → List Name → List Name
  | 0, seen => seen
  | rounds + 1, seen => g.growTimes rounds (g.grow seen)

/-- The nodes reached from `start` along zero or more edges. A shortest way passes through each
entry at most once, so as many rounds as entries are enough. -/
def reached (g : Graph) (start : Name) : List Name := g.growTimes g.size [start]

/-- Whether an edge from `source` to `target` would close a directed cycle: it does if `target`
already leads to `source`. An edge without a name at either end closes none. -/
def closesCycle (g : Graph) (source target : Name) : Bool :=
  !source.isEmpty && !target.isEmpty && (g.reached target).contains source

/-! ## Descendants -/

/-- The union of two lists without repetition. -/
def unionNames (as bs : List Name) : List Name :=
  bs.foldl (fun as b => if as.contains b then as else as ++ [b]) as

/-- The descendants of `node`, and the table of finished nodes with it. `visiting` holds the nodes
whose descendants are being collected; one that is met again contributes nothing, so the collection
ends on cyclic graphs too. The depth is bounded by the number of nodes. -/
def collect (children : Graph) :
    (fuel : Nat) → (visiting : List Name) → (finished : Graph) → (node : Name) → List Name × Graph
  | 0, _, finished, _ => ([], finished)
  | fuel + 1, visiting, finished, node =>
    match finished.get? node with
    | some known => (known, finished)
    | none =>
      if visiting.contains node then ([], finished)
      else
        let (found, finished) := (children.neighbours node).foldl
          (fun (found, finished) child =>
            let (below, finished) := collect children fuel (node :: visiting) finished child
            (unionNames (unionNames found [child]) below, finished))
          ([], finished)
        (found, finished.insert node found)

/-- The descendants of every node of a graph of children. -/
def descendants (children : Graph) : Graph :=
  children.keys.foldl
    (fun finished node => (collect children (children.nodes.length + 1) [] finished node).2)
    Table.empty

end Graph

end CausalEquations
