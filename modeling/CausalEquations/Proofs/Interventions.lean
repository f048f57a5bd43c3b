import CausalEquations.Proofs.Batches
import CausalEquations.Proofs.Failures

/-!
# Interventions

To intervene on a variable is to clamp it at a value, or to release it. As a pass ends on the one
solution of the equations, what an intervention does to the result can be read off from the
equations, without following the pass.

* `DifferAt` — two ways to run a model that differ in one variable only.
* `intervention_spares_others` — the other variables that are no descendants keep their values.
* `ClampsAlso` — a setting that clamps more variables.
* `computeValues_consistent` — clamping variables at the values they have changes no value.
-/

namespace CausalEquations

open Relation

variable {α β : Type} [Scalar α] [Elementary α]
variable {lift : Lifting α β} {model : Model α} {graph : Graph}

/-! ## Runs and solutions -/

lemma nodeValue_congr_noise {setting setting' : Setting β}
    (hnoise : SameValues setting.noise setting'.noise) (values : Table β) (node : Name) :
    nodeValue lift model setting values node = nodeValue lift model setting' values node := by
  simp only [nodeValue, Setting.noiseOf, Setting.noiseAt, Table.getD, hnoise _]

/-- What is computed solves the equations, and only acyclic graphs are computed. -/
lemma isSolution_of_computeValues {setting : Setting α} {seeds values : Table α}
    (hcover : Covers graph model) (hrun : computeValues model graph setting seeds = .ok values) :
    graph.Acyclic ∧ IsSolution Lifting.single model graph setting seeds values := by
  unfold computeValues at hrun
  split at hrun
  case h_1 => cases hrun
  case h_2 order horder =>
    have hcausal := Graph.isCausalOrder_of_order horder
    exact ⟨hcausal.acyclic, isSolution_of_propagate hcover hcausal (mapError_eq_ok.mp hrun)⟩

/-! ## One variable -/

/-- Two ways to run a model with the same noise that may differ in the variable `v`: in whether it
is clamped, and in the value that it starts with. -/
structure DifferAt (v : Name) (setting setting' : Setting β) (seeds seeds' : Table β) : Prop where
  noise : SameValues setting.noise setting'.noise
  clamped : ∀ name, name ≠ v → setting.isClamped name = setting'.isClamped name
  seeds : ∀ name, name ≠ v → seeds.get? name = seeds'.get? name

/-- Solutions for settings that differ in `v` agree on everything else that `v` does not lead to.
The induction is along the edges: the parents of such a node are such nodes again. -/
theorem IsSolution.eq_off_descendants {v : Name} {setting setting' : Setting β}
    {seeds seeds' values values' : Table β} (hg : graph.Acyclic) (hcover : Covers graph model)
    (hdiffer : DifferAt v setting setting' seeds seeds')
    (h : IsSolution lift model graph setting seeds values)
    (h' : IsSolution lift model graph setting' seeds' values') :
    ∀ name, name ≠ v → ¬ TransGen graph.Edge v name → values.get? name = values'.get? name := by
  have hkept : ∀ name, name ≠ v → setting.isClamped name = true ∨ name ∉ graph.nodes →
      values.get? name = values'.get? name := by
    intro name hname hstays
    have hkept := (isSolution_iff.mp h).1 name hstays
    have hkept' := (isSolution_iff.mp h').1 name (hdiffer.clamped name hname ▸ hstays)
    rw [hkept, hkept', startValue, startValue, Table.getD, Table.getD, hdiffer.seeds name hname]
  have hnodes : ∀ node ∈ graph.nodes, node ≠ v → ¬ TransGen graph.Edge v node →
      values.get? node = values'.get? node := by
    refine hg.induction fun node hnode ih hne hdesc => ?_
    have hparents : ∀ parent, graph.Edge parent node → values.get? parent = values'.get? parent := by
      intro parent hedge
      refine ih parent hedge ?_ fun hpath => hdesc (hpath.tail hedge)
      rintro rfl
      exact hdesc (.single hedge)
    cases hfree : setting.isClamped node with
    | true => exact hkept node hne (.inl hfree)
    | false =>
        have hfree' : setting'.isClamped node = false := hdiffer.clamped node hne ▸ hfree
        obtain ⟨x, hx, hvalue⟩ := (isSolution_iff.mp h).2 node hnode hfree
        obtain ⟨y, hy, hvalue'⟩ := (isSolution_iff.mp h').2 node hnode hfree'
        rw [nodeValue_congr lift setting values values' hcover hnode hparents,
          nodeValue_congr_noise hdiffer.noise, hvalue'] at hvalue
        rw [hx, hy, Except.ok.inj hvalue]
  intro name hname hdesc
  by_cases hnode : name ∈ graph.nodes
  · exact hnodes name hnode hname hdesc
  · exact hkept name hname (.inr hnode)

/-- **An intervention spares all but the descendants.** If two runs differ in the variable `v` only,
clamped or not and at whatever value, then every other name that `v` does not lead to has the same
value in both of them, and every such node has one. -/
theorem intervention_spares_others {v : Name} {setting setting' : Setting α}
    {seeds seeds' values values' : Table α} (hcover : Covers graph model)
    (hdiffer : DifferAt v setting setting' seeds seeds')
    (hrun : computeValues model graph setting seeds = .ok values)
    (hrun' : computeValues model graph setting' seeds' = .ok values') :
    ∀ name, name ≠ v → ¬ TransGen graph.Edge v name →
      values.get? name = values'.get? name ∧
      (name ∈ graph.nodes → ∃ x, values.get? name = some x) := by
  obtain ⟨hg, hsolution⟩ := isSolution_of_computeValues hcover hrun
  obtain ⟨-, hsolution'⟩ := isSolution_of_computeValues hcover hrun'
  intro name hname hdesc
  exact ⟨hsolution.eq_off_descendants hg hcover hdiffer hsolution' name hname hdesc,
    fun hnode => hsolution.exists_value hnode⟩

/-- The model of `B = A` and `C = B`, where `A` is only read. -/
def copiedTwice : Model ℚ :=
  ⟨[("C", Entry.ofExpr (.identifier "B") "B"), ("B", Entry.ofExpr (.identifier "A") "A"),
    ("A", Entry.derived)], by decide⟩

/-- Clamping `B` at another value leaves `A` as it is, and changes `C`. -/
theorem intervention_spares_others_copiedTwice :
    letI := unusedOperations
    let graph := Graph.ofModel copiedTwice
    let noise : Table ℚ := Table.empty.insert "noise:A" 3
    ∃ values values' : Table ℚ,
      computeValues copiedTwice graph { noise := noise } Table.empty = .ok values ∧
      computeValues copiedTwice graph { clamped := Table.empty.insert "B" true, noise := noise }
        (Table.empty.insert "B" 5) = .ok values' ∧
      values.get? "A" = values'.get? "A" ∧
      ["A", "C"].map values.get? = [some 3, some 3] ∧
      ["A", "C"].map values'.get? = [some 3, some 5] := by
  let operations : Elementary ℚ := unusedOperations
  intro graph noise
  have hcover : Covers graph copiedTwice := covers_of_entries (by decide)
  have hdiffer : DifferAt (β := ℚ) "B" { noise := noise }
      { clamped := Table.empty.insert "B" true, noise := noise }
      Table.empty (Table.empty.insert "B" 5) :=
    ⟨fun _ => rfl, fun name hname => by simp [Setting.isClamped, Table.getD, Table.get?_insert,
      Ne.symm hname], fun name hname => by simp [Table.get?_insert, Ne.symm hname]⟩
  have hpath : ¬ TransGen graph.Edge "B" "A" := by
    intro h
    obtain ⟨parent, hedge⟩ : ∃ parent, graph.Edge parent "A" := by
      cases h with
      | single hedge => exact ⟨_, hedge⟩
      | tail _ hedge => exact ⟨_, hedge⟩
    exact absurd hedge (by simp [Graph.Edge, show graph.neighbours "A" = [] from by decide])
  have hrun : (computeValues copiedTwice graph { noise := noise } Table.empty).toOption.map
      (fun values => ["A", "C"].map values.get?) = some [some 3, some 3] := by
    decide +kernel
  have hrun' : (computeValues copiedTwice graph
      { clamped := Table.empty.insert "B" true, noise := noise }
        (Table.empty.insert "B" 5)).toOption.map (fun values => ["A", "C"].map values.get?) =
      some [some 3, some 5] := by
    decide +kernel
  obtain ⟨values, hvalues, hshown⟩ := exists_of_toOption_map hrun
  obtain ⟨values', hvalues', hshown'⟩ := exists_of_toOption_map hrun'
  exact ⟨values, values', hvalues, hvalues',
    (intervention_spares_others hcover hdiffer hvalues hvalues' "A" (by decide) hpath).1,
    hshown, hshown'⟩

/-! ## Many variables, at the values they have -/

/-- A setting with the same noise that clamps the names of `W` in addition. -/
structure ClampsAlso (W : Set Name) (setting setting' : Setting β) : Prop where
  noise : SameValues setting.noise setting'.noise
  clamped : ∀ name, setting'.isClamped name = true ↔ setting.isClamped name = true ∨ name ∈ W

/-- A solution is a solution again if it is what the values start with, and if more variables are
clamped at the values that they have in it. -/
theorem IsSolution.clampsAlso {W : Set Name} {setting setting' : Setting β}
    {seeds values : Table β} (hmore : ClampsAlso W setting setting')
    (h : IsSolution lift model graph setting seeds values) :
    IsSolution lift model graph setting' values values := by
  refine isSolution_iff.mpr ⟨fun name _ => ?_, fun node hnode hfree => ?_⟩
  · unfold startValue
    split
    case isTrue hnode =>
      obtain ⟨x, hx⟩ := h.exists_value hnode
      rw [Table.getD, hx, Option.getD_some]
    case isFalse => rfl
  · have hfree' : setting.isClamped node = false := by
      rw [← Bool.not_eq_true]
      intro hclamped
      rw [(hmore.clamped node).mpr (.inl hclamped)] at hfree
      cases hfree
    obtain ⟨x, hx, hvalue⟩ := (isSolution_iff.mp h).2 node hnode hfree'
    exact ⟨x, hx, (nodeValue_congr_noise hmore.noise values node).symm.trans hvalue⟩

/-- Nothing is added to what has values already. -/
lemma seeded_eq_self {zero : β} {values : Table β} {order : List Name}
    (h : ∀ node ∈ order, node ∈ values.keys) : seeded zero values order = values := by
  induction order with
  | nil => rfl
  | cons node rest ih =>
      obtain ⟨hnode, hrest⟩ := List.forall_mem_cons.mp h
      have hstep : values.insertIfNew node zero = values :=
        if_pos ((Table.contains_iff_mem_keys values node).mpr hnode)
      show seeded zero (values.insertIfNew node zero) rest = values
      rw [hstep, ih hrest]

/-- **Clamping variables at the values they have changes nothing.** If computing a graph gives
certain values, then computing it from these values, with any further variables clamped, gives the
very same table again. In particular, feeding the values back in changes nothing. -/
theorem computeValues_consistent {W : Set Name} {setting setting' : Setting α}
    {seeds values : Table α} (hcover : Covers graph model) (hmore : ClampsAlso W setting setting')
    (hrun : computeValues model graph setting seeds = .ok values) :
    computeValues model graph setting' values = .ok values := by
  obtain ⟨hg, hsolution⟩ := isSolution_of_computeValues hcover hrun
  obtain ⟨order, horder, hcompute⟩ := computeValues_eq model setting' values hg
  obtain ⟨again, hagain, hsame⟩ :=
    propagate_of_isSolution hg hcover horder (hsolution.clampsAlso hmore)
  have hvalued : ∀ node ∈ order, node ∈ values.keys := fun node hnode =>
    Table.mem_keys_iff.mpr (hsolution.exists_value ((horder.mem_iff node).mp hnode))
  rw [seeded_eq_self hvalued] at hagain
  have hkeys : again.keys = values.keys := keys_of_propagate hvalued hagain
  rw [hcompute, seeded_eq_self hvalued, hagain, Table.eq_of_get? hkeys hsame]
  rfl

/-- `A` is clamped at `5` and copied twice. The values come out again if `C` is clamped too. -/
theorem computeValues_consistent_copiedTwice :
    letI := unusedOperations
    ∃ values : Table ℚ,
      computeValues copiedTwice (Graph.ofModel copiedTwice)
        { clamped := Table.empty.insert "A" true } (Table.empty.insert "A" 5) = .ok values ∧
      ["A", "B", "C"].map values.get? = [some 5, some 5, some 5] ∧
      computeValues copiedTwice (Graph.ofModel copiedTwice)
        { clamped := (Table.empty.insert "A" true).insert "C" true } values = .ok values := by
  let operations : Elementary ℚ := unusedOperations
  have hcover : Covers (Graph.ofModel copiedTwice) copiedTwice := covers_of_entries (by decide)
  have hmore : ClampsAlso (β := ℚ) {"C"} { clamped := Table.empty.insert "A" true }
      { clamped := (Table.empty.insert "A" true).insert "C" true } := by
    refine ⟨fun _ => rfl, fun name => ?_⟩
    simp only [Setting.isClamped, Table.getD, Table.get?_insert, Table.get?_empty]
    by_cases hC : "C" = name
    · subst hC; simp
    · simp [hC, Ne.symm hC]
  have hrun : (computeValues copiedTwice (Graph.ofModel copiedTwice)
      { clamped := Table.empty.insert "A" true } (Table.empty.insert "A" 5)).toOption.map
        (fun values => ["A", "B", "C"].map values.get?) = some [some 5, some 5, some 5] := by
    decide +kernel
  obtain ⟨values, hvalues, hshown⟩ := exists_of_toOption_map hrun
  exact ⟨values, hvalues, hshown, computeValues_consistent hcover hmore hvalues⟩

end CausalEquations
