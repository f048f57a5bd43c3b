import CausalEquations.Graph.Basic

/-!
# Noise nodes

Every variable `X` can have a noise node `noise:X`, a parent without parents of its own.

* `noiseId`, `isNoise`, `noiseTarget`, `noiseLabel` — the names of noise nodes.
* `NoisyGraph`, `NoisyGraph.ofGraph` — a graph in which every variable has its noise node.
-/

namespace CausalEquations

/-- What the name of a noise node starts with. -/
def noiseMark : List Char := ['n', 'o', 'i', 's', 'e', ':']

/-- The noise node of a variable. -/
def noiseId (name : Name) : Name := String.ofList (noiseMark ++ name.toList)

/-- Whether a name is that of a noise node. -/
def isNoise (name : Name) : Bool := noiseMark.isPrefixOf name.toList

/-- The variable that a noise node belongs to; empty for other nodes. -/
def noiseTarget (name : Name) : Name :=
  if isNoise name then String.ofList (name.toList.drop noiseMark.length) else ""

/-- How a noise node is shown: `U_X` for `noise:X`. Other names are shown as they are. -/
def noiseLabel (name : Name) : String :=
  if (noiseTarget name).isEmpty then name else "U_" ++ noiseTarget name

/-- A graph of parents with noise nodes. -/
structure NoisyGraph where
  graph : Graph
  /-- The variables, followed by the noise nodes. -/
  members : List Name
  noiseNodes : List Name

namespace NoisyGraph

/-- Adds the noise node of a variable to its parents; noise nodes have none. -/
def withNoise (g : Graph) (node : Name) : Graph :=
  if isNoise node then g.insertIfNew node [] else g.addNeighbour node (noiseId node)

/-- Gives every node of the graph and every listed variable its noise node. Variables without an
entry follow the entries of the graph, and the noise nodes come last, in code point order. -/
def ofGraph (g : Graph) (names : List Name) : NoisyGraph :=
  let listed := names.eraseDups
  let targets := (g.keys ++ listed).eraseDups.filter fun node => !isNoise node
  let noiseNodes := targets.map noiseId
  let parents := g.map fun _ parents => parents.eraseDups
  let fed := (g.keys ++ listed).foldl withNoise parents
  ⟨(sortedNames noiseNodes).foldl (fun g node => g.insertIfNew node []) fed,
    (listed ++ noiseNodes).eraseDups, noiseNodes⟩

end NoisyGraph

end CausalEquations
