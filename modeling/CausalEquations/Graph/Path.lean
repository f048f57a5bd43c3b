import CausalEquations.Graph.Basic

/-!
# Simple paths

The simple paths between two nodes of an undirected graph, in lexicographic order. The search is
bounded in the length and the number of paths.

* `PathSearch` — the bounds.
* `Graph.walk` — the paths that extend a given one.
* `Graph.simplePaths` — the paths from one node to another, and whether the search stopped early.
* `isDirectedPath` — whether all edges of a path point the same way.
-/

namespace CausalEquations

/-- Bounds on a search for paths. -/
structure PathSearch where
  /-- The largest number of nodes in a path; less than two counts as two. -/
  maxDepth : Int := 8
  /-- The largest number of paths; less than one counts as one. -/
  maxPaths : Int := 250

namespace PathSearch

/-- The largest number of nodes in a path. -/
def nodeLimit (search : PathSearch) : Nat := (max 2 search.maxDepth).toNat

/-- The largest number of paths. -/
def pathLimit (search : PathSearch) : Nat := (max 1 search.maxPaths).toNat

end PathSearch

namespace Graph

/-- The simple paths to `goal` that extend `path`, which is listed from its end and ends in `node`.
At most `room` nodes are added, and at most `budget` paths are found. Neighbours are tried in code
point order. -/
def walk (g : Graph) (goal : Name) :
    (room budget : Nat) → (node : Name) → (path : List Name) → List (List Name)
  | room, budget, node, path =>
    if budget = 0 then []
    else if node = goal then [path.reverse]
    else
      match room with
      | 0 => []
      | room + 1 =>
        (sortedNames (g.neighbours node)).foldl
          (fun found next =>
            if path.contains next || budget ≤ found.length then found
            else found ++ g.walk goal room (budget - found.length) next (next :: path))
          []

/-- The simple paths from `start` to `goal` within the bounds; none if either is no node. -/
def simplePaths (g : Graph) (start goal : Name) (search : PathSearch) : List (List Name) :=
  if g.contains start && g.contains goal then
    g.walk goal (search.nodeLimit - 1) search.pathLimit start [start]
  else []

/-- Whether a search has found as many paths as it may, so that there may be more. -/
def reachedLimit (search : PathSearch) (paths : List (List Name)) : Bool :=
  search.pathLimit ≤ paths.length

/-- Whether `parent` is listed as a parent of `child`. -/
def hasEdge (g : Graph) (parent child : Name) : Bool := (g.neighbours child).contains parent

/-- The steps of a path. -/
def steps (path : List Name) : List (Name × Name) := path.zip path.tail

/-- Whether a path has an edge, and all its edges point the same way. -/
def isDirectedPath (g : Graph) (path : List Name) : Bool :=
  2 ≤ path.length &&
    ((steps path).all (fun s => g.hasEdge s.1 s.2) || (steps path).all fun s => g.hasEdge s.2 s.1)

end Graph

end CausalEquations
