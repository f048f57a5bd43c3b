import CausalEquations.CausalSystem
import CausalEquations.Number.Binary64
import CausalEquations.Proofs.Reachability
import CausalEquations.Proofs.ReadVariables

/-!
# The test for cycles before an edge is set

Setting an edge writes the child's equation anew: the parent becomes one of the variables that it
reads, and terms that are negligible are dropped. Whether the new text describes a system is seen
from the old graph alone, since no cycle can depend on an edge that is lost.

* `CausalSystem.ofText_eq_cycle_iff`, `CausalSystem.exists_ofText_iff` — the text of a model
  describes a system exactly if the graph of the model is acyclic.
* `Parsed.edges_setEdge` — the edges of the new graph, compared with those of the old one.
* `setEdge_cycle_iff` — the new text has a cycle exactly if the test says that the edge closes one.
-/

namespace CausalEquations

open Relation

variable {α : Type} [Scalar α]

/-! ## Systems and acyclic graphs -/

namespace CausalSystem

section

variable {text : String} {s : CausalSystem α} {m : Model α}

lemma model_of_ofText (hs : ofText text = .ok s) : Model.ofText text = .ok s.model := by
  unfold ofText at hs
  split at hs
  · cases hs
  · rename_i model hm
    split at hs
    · cases hs
    · cases hs
      exact hm

/-- Of the texts that have a model, those with a cycle describe no system. -/
theorem ofText_eq_cycle_iff (hm : Model.ofText text = .ok m) :
    (ofText text : Except SystemError (CausalSystem α)) = .error (.cycle {}) ↔
      ¬ (Graph.ofModel m).Acyclic := by
  rw [← Graph.order_eq_error_iff]
  simp only [ofText, hm]
  cases (Graph.ofModel m).order <;> simp

/-- Of the texts that have a model, those without a cycle describe a system. -/
theorem exists_ofText_iff (hm : Model.ofText text = .ok m) :
    (∃ s : CausalSystem α, ofText text = .ok s) ↔ (Graph.ofModel m).Acyclic := by
  rw [← not_iff_not, ← Graph.order_eq_error_iff]
  simp only [ofText, hm]
  cases (Graph.ofModel m).order <;> simp

end

end CausalSystem

/-! ## The new graph -/

lemma ne_empty_of_validName? {text : String} {x : Name} (h : validName? text = some x) : x ≠ "" := by
  rintro rfl
  exact Bool.noConfusion (isName_of_validName? h)

section

variable {text text' parent child : String} {as : List Assignment} {m m' : Model α} {x y : Name}
  {coefficient : α} {insistOnTerm : Bool}

/-- A coefficient that is set is finite, so it is negligible only if it is small. -/
lemma not_negligible_of_setEdge
    (hlarge : Scalar.toRat (Scalar.epsilon : α) ≤ (Scalar.toRat coefficient).abs)
    (hok : setEdge text parent child coefficient insistOnTerm = .ok text') :
    negligible coefficient = false := by
  have hsmall : ¬ (Scalar.toRat coefficient).abs < Scalar.toRat (Scalar.epsilon : α) :=
    Rat.not_lt.mpr hlarge
  have hfinite : Scalar.isFinite coefficient = true := by
    obtain ⟨x, -, hok⟩ := bind_eq_ok.mp hok
    obtain ⟨y, -, hok⟩ := bind_eq_ok.mp hok
    by_contra hinfinite
    rw [if_pos (by simpa using hinfinite)] at hok
    cases hok
  rw [negligible, hfinite]
  exact Bool.eq_false_iff.mpr hsmall

/-- **What setting an edge does to the graph**: the edge is there, no other edge is new, and only
edges into the child are lost. -/
theorem Parsed.edges_setEdge (h : Parsed α text as) (hm : Model.ofText text = .ok m)
    (hm' : Model.ofText text' = .ok m') (hparent : validName? parent = some x)
    (hchild : validName? child = some y) (hvariable : isVariable x = true)
    (hcoefficient : negligible coefficient = false)
    (hok : setEdge text parent child coefficient insistOnTerm = .ok text') :
    (Graph.ofModel m').Edge x y ∧
    (∀ a b, (Graph.ofModel m').Edge a b → (Graph.ofModel m).Edge a b ∨ (a = x ∧ b = y)) ∧
    ∀ a b, (Graph.ofModel m).Edge a b → b ≠ y → (Graph.ofModel m').Edge a b := by
  obtain ⟨as', rhs, hparsed, hmem, hreads⟩ := h.readsIn_setEdge hparent hchild hok
  refine ⟨?_, fun a b => ?_, fun a b => ?_⟩
  · rw [hparsed.edge_iff hm']
    exact ⟨_, (hmem _).mpr (.inl rfl), rfl, (hreads x).mpr (by simp [hcoefficient, hvariable])⟩
  · rw [hparsed.edge_iff hm', h.edge_iff hm]
    rintro ⟨c, hc, rfl, hread⟩
    rcases (hmem c).mp hc with rfl | ⟨hold, -⟩
    · by_cases ha : a = x
      · exact .inr ⟨ha, rfl⟩
      · obtain ⟨d, hd, hname, hread, -⟩ := by simpa [ha] using (hreads a).mp hread
        exact .inl ⟨d, hd, hname, hread⟩
    · exact .inl ⟨c, hold, rfl, hread⟩
  · rw [hparsed.edge_iff hm', h.edge_iff hm]
    rintro ⟨c, hc, rfl, hread⟩ hne
    exact ⟨c, (hmem c).mpr (.inr ⟨hc, hne⟩), rfl, hread⟩

/-- **The test for a new edge is exact.** When the edge between two names is set with a coefficient
that is not negligible, and the parent can be a variable, the new text fails for a cycle if the test
on the old graph says so, and describes a system otherwise. The test is about the names that the
edit reads, without the blanks around them. -/
theorem setEdge_cycle_iff {s : CausalSystem α} (hs : CausalSystem.ofText text = .ok s)
    (hparent : validName? parent = some x) (hchild : validName? child = some y)
    (hvariable : isVariable x = true)
    (hlarge : Scalar.toRat (Scalar.epsilon : α) ≤ (Scalar.toRat coefficient).abs)
    (hok : setEdge text parent child coefficient insistOnTerm = .ok text') :
    ((CausalSystem.ofText text' : Except SystemError (CausalSystem α)) = .error (.cycle {}) ↔
      s.graph.closesCycle x y = true) ∧
    ((∃ s' : CausalSystem α, CausalSystem.ofText text' = .ok s') ↔
      s.graph.closesCycle x y = false) := by
  have hm : Model.ofText text = .ok s.model := CausalSystem.model_of_ofText hs
  have hacyclic : s.graph.Acyclic := (CausalSystem.exists_ofText_iff hm).mp ⟨s, hs⟩
  obtain ⟨as, h⟩ := accepted_iff_parsed.mp ⟨s.model, hm⟩
  obtain ⟨m', hm'⟩ := h.accepted_of_setEdge hok
  obtain ⟨hedge, hnew, hkeep⟩ := h.edges_setEdge hm hm' hparent hchild hvariable
    (not_negligible_of_setEdge hlarge hok) hok
  have hiff : (Graph.ofModel m').Acyclic ↔ ¬ ReflTransGen s.graph.Edge y x :=
    Graph.acyclic_iff_of_newEdge hacyclic hedge hnew hkeep
  have htest : s.graph.closesCycle x y = true ↔ ReflTransGen s.graph.Edge y x := by
    rw [Graph.closesCycle_iff, and_iff_right (ne_empty_of_validName? hparent),
      and_iff_right (ne_empty_of_validName? hchild)]
  rw [CausalSystem.ofText_eq_cycle_iff hm', CausalSystem.exists_ofText_iff hm', hiff, not_not,
    ← Bool.not_eq_true, htest]
  exact ⟨Iff.rfl, Iff.rfl⟩

end

variable (α) in
/-- What the test says about an edge, if the text describes a system. -/
def closesCycle? (text : String) (source target : Name) : Option Bool :=
  (CausalSystem.ofText text : Except SystemError (CausalSystem α)).toOption.map
    fun s => s.graph.closesCycle source target

/-- A coefficient that is written as zero still makes an edge: `Y` as a parent of `B` closes a
cycle, and `W` does not. -/
theorem setEdge_cycle_iff_tiny :
    setEdge "Y = X + 0*B\nB = Z" "Y" "B" (Scalar.ofDecimal 1 (-6) : Float) false =
        .ok "Y = X + 0*B\nB = Z + 0*Y" ∧
      (CausalSystem.ofText "Y = X + 0*B\nB = Z + 0*Y" : Except SystemError (CausalSystem Float)) =
        .error (.cycle {}) ∧
      setEdge "Y = X + 0*B\nB = Z" " W" "B" (Scalar.ofDecimal 1 (-6) : Float) false =
        .ok "Y = X + 0*B\nB = Z + 0*W" ∧
      ∃ s : CausalSystem Float, CausalSystem.ofText "Y = X + 0*B\nB = Z + 0*W" = .ok s := by
  have hlarge : Scalar.toRat (Scalar.epsilon : Float) ≤
      (Scalar.toRat (Scalar.ofDecimal 1 (-6) : Float)).abs := by decide +kernel
  have hokY : setEdge "Y = X + 0*B\nB = Z" "Y" "B" (Scalar.ofDecimal 1 (-6) : Float) false =
      .ok "Y = X + 0*B\nB = Z + 0*Y" := by decide +kernel
  have hokW : setEdge "Y = X + 0*B\nB = Z" " W" "B" (Scalar.ofDecimal 1 (-6) : Float) false =
      .ok "Y = X + 0*B\nB = Z + 0*W" := by decide +kernel
  obtain ⟨s, hs, hcloses⟩ := exists_of_toOption_map (show
    closesCycle? Float "Y = X + 0*B\nB = Z" "Y" "B" = some true by decide +kernel)
  obtain ⟨t, ht, hopen⟩ := exists_of_toOption_map (show
    closesCycle? Float "Y = X + 0*B\nB = Z" "W" "B" = some false by decide +kernel)
  have hcycle := setEdge_cycle_iff hs (x := "Y") (y := "B") (by decide +kernel) (by decide +kernel)
    (by decide +kernel) hlarge hokY
  have hsystem := setEdge_cycle_iff ht (x := "W") (y := "B") (by decide +kernel) (by decide +kernel)
    (by decide +kernel) hlarge hokW
  exact ⟨hokY, hcycle.1.mpr hcloses, hokW, hsystem.2.mpr hopen⟩

/-- The edit drops the blanks around a name, but the test does not: asked about the name with a
blank before it, the test sees no cycle. -/
theorem setEdge_closes_cycle_unseen :
    isVariable " A" = true ∧
      Scalar.toRat (Scalar.epsilon : Float) ≤ (Scalar.toRat (Scalar.ofNat 2 : Float)).abs ∧
      (∃ s : CausalSystem Float, CausalSystem.ofText "A = Y\nY = 0" = .ok s ∧
        s.graph.closesCycle " A" "Y" = false) ∧
      setEdge "A = Y\nY = 0" " A" "Y" (Scalar.ofNat 2 : Float) false = .ok "A = Y\nY = 2*A" ∧
      (CausalSystem.ofText "A = Y\nY = 2*A" : Except SystemError (CausalSystem Float)) =
        .error (.cycle {}) := by
  refine ⟨by decide +kernel, by decide +kernel, ?_, by decide +kernel, ?_⟩
  · exact exists_of_toOption_map (show closesCycle? Float "A = Y\nY = 0" " A" "Y" = some false by
      decide +kernel)
  · rw [← map_eq_error (f := CausalSystem.order)]
    decide +kernel

end CausalEquations
