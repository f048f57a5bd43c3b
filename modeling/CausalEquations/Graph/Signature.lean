import CausalEquations.Graph.Basic
import CausalEquations.Text.Escaped

/-!
# Signatures

The signature of a graph is a text that does not depend on the order of its entries: nested lists in
ASCII, with nodes and parents sorted.

* `listText` — a list of written elements.
* `Graph.signature` — the signature.
-/

namespace CausalEquations

/-- Written elements between brackets, with commas and no blanks. -/
def listText (elements : List String) : String := "[" ++ ",".intercalate elements ++ "]"

/-- The entry of one node: its name and its sorted neighbours. -/
def entryText (entry : Name × List Name) : String :=
  listText [escaped entry.1, listText ((sortedNames entry.2).map escaped)]

/-- The entries of a graph, sorted by node. -/
def Graph.signature (g : Graph) : String :=
  listText ((g.entries.mergeSort fun a b => Name.le a.1 b.1).map entryText)

end CausalEquations
