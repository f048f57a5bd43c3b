import CausalEquations.Graph.Basic

/-!
# Causal order

The nodes of a graph of parents are ordered so that parents come before their children. Nodes that
are ready wait in a queue; when one leaves it, its children whose last missing parent it was join
the queue in the order of their entries. A graph with a directed cycle has no such order.

* `Graph.freed` — the children that become ready with a node.
* `Graph.drain` — empties the queue.
* `Graph.order` — the order, or the discovery of a cycle.
-/

namespace CausalEquations

/-- The graph has a directed cycle. -/
structure CycleError where
  deriving DecidableEq, Repr

/-- The wording of the discovery. -/
def CycleError.message (_ : CycleError) : String := "SCM contains a cycle (not a DAG)."

namespace Graph

/-- The children of `node` whose other parents are all in `finished`, in the order of their
entries. -/
def freed (g : Graph) (finished : List Name) (node : Name) : List Name :=
  (g.entries.filter fun e =>
    e.2.contains node && e.2.all fun parent => parent == node || finished.contains parent).map
    Prod.fst

/-- Takes nodes from the front of the queue and puts the children they free at its end. At most
`fuel` nodes are taken; each node enters the queue once, so the number of nodes is enough. -/
def drain (g : Graph) : (fuel : Nat) → (finished queue : List Name) → List Name
  | 0, finished, _ => finished
  | _ + 1, finished, [] => finished
  | fuel + 1, finished, node :: queue =>
    g.drain fuel (finished ++ [node]) (queue ++ g.freed finished node)

/-- The nodes without parents, in order. -/
def sources (g : Graph) : List Name := g.nodes.filter fun node => (g.neighbours node).isEmpty

/-- The nodes with parents before children. First come, first served: the order is determined by the
order of the entries and the sets of parents. -/
def order (g : Graph) : Except CycleError (List Name) :=
  let finished := g.drain g.nodes.length [] g.sources
  if finished.length = g.nodes.length then .ok finished else .error {}

end Graph

end CausalEquations
