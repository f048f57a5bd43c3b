import CausalEquations.Proofs.Models
import CausalEquations.Proofs.Solution

/-!
# The graph of a model

Every node of the graph of a model is a variable of the model, and its parents are the declared
dependencies of its equation.

* `mem_nodes_ofModel_iff` — the nodes.
* `edge_ofModel_iff` — the parents of a variable with an equation.
-/

namespace CausalEquations

variable {α : Type} [Scalar α] {text : String} {model : Model α}

/-- In the graph of a model that was read, every node is a variable. -/
lemma mem_nodes_ofModel_iff (hmodel : Model.ofText text = .ok model) (name : Name) :
    name ∈ (Graph.ofModel model).nodes ↔ name ∈ model.keys := by
  simp only [Graph.nodes, List.mem_eraseDups, List.mem_append, Graph.ofModel, Table.keys_map]
  refine or_iff_left_of_imp fun h => ?_
  obtain ⟨⟨v, parents⟩, hmem, hname⟩ := List.mem_flatMap.mp h
  obtain ⟨⟨v, entry⟩, hentry, heq⟩ := List.mem_map.mp hmem
  cases heq
  obtain ⟨qs, -, hdescribes⟩ := ofText_eq_ok.mp hmodel
  rcases hdescribes.get?_cases (Table.get?_of_mem hentry) with ⟨q, hq, -, rfl⟩ | rfl
  · exact hdescribes.mem_keys.mpr (.inr ⟨q, hq, hname⟩)
  · cases hname

/-- The parents of a variable with an equation are the dependencies of the equation. -/
lemma edge_ofModel_iff (hmodel : Model.ofText text = .ok model) {v : Name} {e : Expr α}
    (he : model.equation? v = some e) (name : Name) :
    (Graph.ofModel model).Edge name v ↔ name ∈ e.dependencies := by
  obtain ⟨entry, hentry, hexpression⟩ := Option.bind_eq_some_iff.mp he
  obtain ⟨qs, -, hdescribes⟩ := ofText_eq_ok.mp hmodel
  rcases hdescribes.get?_cases hentry with ⟨q, -, -, rfl⟩ | rfl
  · cases hexpression
    simp [Graph.Edge, Graph.neighbours, Graph.ofModel, Table.getD, Table.get?_map, hentry,
      Entry.ofExpr]
  · cases hexpression

end CausalEquations
