import CausalEquations.Graph.Path
import CausalEquations.Graph.Reachability

/-!
# How controls change the paths between two variables

A path between two variables transmits association or blocks it, and controlling for further
variables can change that. Every edge is marked by the worst change on a path through it.

* `Graph.isOpen` — whether a path transmits association under given controls.
* `EdgeStatus` — the marks, from harmless to harmful.
* `Graph.edgeStatus` — the marked edges, labelled `parent->child`.
-/

namespace CausalEquations

/-- What controlling does to the paths through an edge. -/
inductive EdgeStatus where
  /-- A path that is not causal becomes blocked. -/
  | good
  /-- A directed path becomes blocked. -/
  | maybe
  /-- A blocked path opens. -/
  | bad
  deriving DecidableEq, Repr

namespace EdgeStatus

/-- How a mark is written. -/
def name : EdgeStatus → String
  | good => "good"
  | maybe => "maybe"
  | bad => "bad"

/-- A larger number is a worse mark. -/
def severity : EdgeStatus → Nat
  | good => 1
  | maybe => 2
  | bad => 3

end EdgeStatus

namespace Graph

/-! ## Open paths -/

/-- Whether an interior node of a path lets association pass. A collider, whose both neighbours on
the path are its parents, passes if it or a descendant is controlled; any other node passes if it is
not controlled. -/
def passes (parents descendants : Graph) (controls : List Name) (previous node next : Name) :
    Bool :=
  if parents.hasEdge previous node && parents.hasEdge next node then
    controls.contains node || (descendants.neighbours node).any fun d => controls.contains d
  else !controls.contains node

/-- Whether every interior node of a path lets association pass. -/
def isOpen (parents descendants : Graph) (controls : List Name) : List Name → Bool
  | previous :: node :: next :: rest =>
    passes parents descendants controls previous node next
      && isOpen parents descendants controls (node :: next :: rest)
  | _ => true

/-! ## Marked edges -/

/-- The mark that a path gives to its edges, if controlling changes it. -/
def changeOf (parents descendants : Graph) (controls : List Name) (path : List Name) :
    Option EdgeStatus :=
  let before := isOpen parents descendants [] path
  let after := isOpen parents descendants controls path
  if before == after then none
  else if after then some .bad
  else if parents.isDirectedPath path then some .maybe
  else some .good

/-- The label of the edge between two nodes, whichever way it points. -/
def edgeLabel? (parents : Graph) (left right : Name) : Option Name :=
  if parents.hasEdge left right then some (left ++ "->" ++ right)
  else if parents.hasEdge right left then some (right ++ "->" ++ left)
  else none

/-- Marks an edge unless it has a mark as bad. -/
def mark (marks : Table EdgeStatus) (label : Name) (status : EdgeStatus) : Table EdgeStatus :=
  match marks.get? label with
  | none => marks.insert label status
  | some old => if old.severity < status.severity then marks.insert label status else marks

/-- Marks every edge of a path. -/
def markPath (parents : Graph) (marks : Table EdgeStatus) (path : List Name) (status : EdgeStatus) :
    Table EdgeStatus :=
  (steps path).foldl
    (fun marks step =>
      match edgeLabel? parents step.1 step.2 with
      | none => marks
      | some label => mark marks label status)
    marks

/-- The controls that count: they have a name and are not excluded. -/
def effectiveControls (controls excluded : List Name) : List Name :=
  controls.filter fun c => !c.isEmpty && !excluded.contains c

/-- Whether there is anything to classify: two different variables with names, neither of them
excluded, and a control that counts. -/
def isQuestion (x y : Name) (controls excluded : List Name) : Bool :=
  !x.isEmpty && !y.isEmpty && !(x == y) && !excluded.contains x && !excluded.contains y
    && !(effectiveControls controls excluded).isEmpty

/-- The paths that are looked at: those between `x` and `y` in the skeleton without the excluded
nodes, if there is anything to classify. -/
def searchedPaths (parents : Graph) (x y : Name) (controls excluded : List Name)
    (search : PathSearch) : List (List Name) :=
  if isQuestion x y controls excluded then (parents.skeleton excluded).simplePaths x y search
  else []

/-- Marks the edges of a path if controlling changes it. -/
def markChange (parents descendants : Graph) (controls : List Name) (marks : Table EdgeStatus)
    (path : List Name) : Table EdgeStatus :=
  match changeOf parents descendants controls path with
  | none => marks
  | some status => markPath parents marks path status

/-- The edges of a graph of parents on whose paths between `x` and `y` controlling has an effect,
each with its worst mark. -/
def edgeStatus (parents : Graph) (x y : Name) (controls excluded : List Name)
    (search : PathSearch) : Table EdgeStatus :=
  (searchedPaths parents x y controls excluded search).foldl
    (markChange parents parents.children.descendants (effectiveControls controls excluded))
    Table.empty

end Graph

end CausalEquations
