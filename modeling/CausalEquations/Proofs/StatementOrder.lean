import CausalEquations.Proofs.Confluence
import CausalEquations.Proofs.CountedOrder
import CausalEquations.Proofs.Dependencies
import CausalEquations.Proofs.ModelGraphs
import CausalEquations.Proofs.Signatures

/-!
# The order of the statements

Statements may be listed in any order. The model lists its variables in another order then, and so
does the causal order; but every variable has the same entry, and no equation depends on a value
that is computed after it, in either order. Names of functions are the exception that has to be
excluded: a bare name of a function is no dependency, although it is looked up like a variable.

* `Graph.signature_eq_of_get?`, `Graph.order_agree` — what the order of entries does not change.
* `Interchangeable` — models that differ in the order of their entries only.
* `AssignsNoReserved`, `pairwise_not_consults` — if no reserved name is assigned, no equation
  depends on a value that is computed later.
* `ofText_agree` — rearranging the statements of a text gives interchangeable models.
-/

namespace CausalEquations

/-! ## Graphs with the same entries -/

namespace Graph

variable {g g' : Graph}

lemma edge_congr (h : ∀ name, g.get? name = g'.get? name) (parent child : Name) :
    g.Edge parent child ↔ g'.Edge parent child := by
  rw [Edge, Edge, neighbours, neighbours, Table.getD, Table.getD, h]

/-- The signature does not depend on the order of the entries. -/
lemma signature_eq_of_get? (h : ∀ name, g.get? name = g'.get? name) :
    g.signature = g'.signature := by
  rw [signature_eq_iff_sortedEntries, sortedEntries_eq_iff]
  exact fun name => congrArg _ (h name)

lemma mem_nodes_congr (h : ∀ name, g.get? name = g'.get? name) (node : Name) :
    node ∈ g.nodes ↔ node ∈ g'.nodes := by
  simp only [mem_nodes_iff, Table.mem_keys_iff, h, edge_congr h]

/-- Both graphs have a causal order of the same nodes, or both have a cycle. -/
lemma order_agree (h : ∀ name, g.get? name = g'.get? name) :
    AgreeUpTo List.Perm g.order g'.order := by
  have hedge : g.Edge = g'.Edge := funext₂ fun _ _ => propext (edge_congr h _ _)
  have hacyclic : g.Acyclic ↔ g'.Acyclic := by rw [Acyclic, Acyclic, hedge]
  by_cases hg : g.Acyclic
  · obtain ⟨order, horder⟩ := exists_order_of_acyclic hg
    obtain ⟨order', horder'⟩ := exists_order_of_acyclic (hacyclic.mp hg)
    have hcausal := isCausalOrder_of_order horder
    have hcausal' := isCausalOrder_of_order horder'
    rw [horder, horder']
    refine .ok ((List.perm_ext_iff_of_nodup hcausal.nodup hcausal'.nodup).mpr fun node => ?_)
    rw [hcausal.mem_iff, hcausal'.mem_iff, mem_nodes_congr h]
  · rw [order_eq_error_iff.mpr hg, order_eq_error_iff.mpr (mt hacyclic.mpr hg)]
    exact .error CycleError.mk CycleError.mk

/-- A causal order lists no node before one of its parents. -/
lemma IsCausalOrder.pairwise {order : List Name} (h : g.IsCausalOrder order) :
    order.Pairwise fun node later => ¬ g.Edge later node := by
  rw [List.pairwise_iff_getElem]
  intro i j hi hj hij hedge
  have hlt := h.idxOf_lt hedge
  rw [h.nodup.idxOf_getElem, h.nodup.idxOf_getElem] at hlt
  exact absurd hij hlt.not_gt

end Graph

/-! ## Rearranged equations -/

variable {α β : Type}

lemma Describes.get?_congr {model model' : Model α} {qs qs' : List (Equation α)}
    (h : Describes model qs) (h' : Describes model' qs') (hperm : qs.Perm qs') (name : Name) :
    model.get? name = model'.get? name := by
  by_cases hname : ∃ q ∈ qs, q.1.name = name
  · obtain ⟨q, hq, rfl⟩ := hname
    rw [h.get?_of_mem hq, h'.get?_of_mem (hperm.subset hq)]
  · have hne : ∀ q ∈ qs, q.1.name ≠ name := fun q hq heq => hname ⟨q, hq, heq⟩
    rw [h.get?_of_forall_ne hne, h'.get?_of_forall_ne fun q hq => hne q (hperm.symm.subset hq)]
    simp only [hperm.mem_iff]

variable [Scalar α]

lemma equations_iff {text : String} {qs : List (Equation α)} :
    Equations text qs ↔
      List.Forall₂ (fun line q => Assignment.ofStatement? line = some q.1 ∧
        Expr.read q.1.rhs = .ok q.2) (statements text) qs := by
  rw [Equations, assignments_eq_ok, List.forall₂_map_right_iff]
  constructor
  · rintro ⟨hlines, hreads⟩
    have hboth := (List.forall₂_and_left qs (statements text)).mpr ⟨hreads, hlines.flip⟩
    exact hboth.flip.imp fun _ _ h => h.symm
  · intro h
    have hboth := (List.forall₂_and_left qs (statements text)).mp (h.flip.imp fun _ _ h => h.symm)
    exact ⟨hboth.2.flip, hboth.1⟩

/-- Rearranged statements have rearranged equations. -/
lemma Equations.exists_perm {text text' : String}
    (hperm : (statements text).Perm (statements text')) {qs : List (Equation α)}
    (h : Equations text qs) : ∃ qs', qs.Perm qs' ∧ Equations text' qs' := by
  obtain ⟨qs', h', hperm'⟩ := List.perm_comp_forall₂ hperm.symm (equations_iff.mp h)
  exact ⟨qs', hperm'.symm, equations_iff.mpr h'⟩

/-- A rearranged text has a model as well, with the same entries. -/
lemma exists_ofText_of_perm {text text' : String}
    (hperm : (statements text).Perm (statements text')) {model : Model α}
    (h : Model.ofText text = .ok model) :
    ∃ model', Model.ofText text' = .ok model' ∧ ∀ name, model.get? name = model'.get? name := by
  obtain ⟨qs, hqs, hmodel⟩ := ofText_eq_ok.mp h
  obtain ⟨qs', hqs', hequations⟩ := hqs.exists_perm hperm
  obtain ⟨model', hmodel'⟩ :=
    exists_describes ((hqs'.map fun q => q.1.name).nodup_iff.mp hmodel.nodup)
  exact ⟨model', ofText_eq_ok.mpr ⟨qs', hequations, hmodel'⟩, hmodel.get?_congr hmodel' hqs'⟩

/-! ## Rearranged models -/

/-- No statement of the text assigns a reserved name. -/
def AssignsNoReserved (text : String) : Prop :=
  ∀ line ∈ statements text, ∀ a ∈ Assignment.ofStatement? line, isReserved a.name = false

instance (text : String) : Decidable (AssignsNoReserved text) :=
  inferInstanceAs (Decidable (∀ line ∈ statements text, ∀ a ∈ Assignment.ofStatement? line, _))

lemma AssignsNoReserved.perm {text text' : String} (h : AssignsNoReserved text)
    (hperm : (statements text).Perm (statements text')) : AssignsNoReserved text' :=
  fun line hline => h line (hperm.symm.subset hline)

section

variable {text : String} {model model' : Model α}

/-- If no reserved name is assigned, none is a variable. -/
lemma isReserved_of_mem_keys (hmodel : Model.ofText text = .ok model)
    (hfree : AssignsNoReserved text) {name : Name} (hname : name ∈ model.keys) :
    isReserved name = false := by
  obtain ⟨qs, hqs, hdescribes⟩ := ofText_eq_ok.mp hmodel
  rcases hdescribes.mem_keys.mp hname with ⟨q, hq, rfl⟩ | ⟨q, hq, hread⟩
  · obtain ⟨line, hline, hassigned⟩ := exists_of_mem_mapM hqs.1 q.1 (List.mem_map_of_mem hq)
    exact hfree line hline q.1 (readStatement_eq_ok.mp hassigned)
  · exact (Expr.mem_dependencies.mp hread).2

/-- If no reserved name is assigned, then in a causal order no equation depends on a value that is
computed later. -/
lemma pairwise_not_consults (hmodel : Model.ofText text = .ok model)
    (hfree : AssignsNoReserved text) {order : List Name}
    (horder : (Graph.ofModel model).IsCausalOrder order) :
    order.Pairwise fun node later => ¬ model.Consults node later := by
  refine horder.pairwise.imp_of_mem ?_
  rintro node later - hlater hedge ⟨e, he, hread⟩
  have hvariable : later ∈ model.keys :=
    (mem_nodes_ofModel_iff hmodel later).mp ((horder.mem_iff later).mp hlater)
  rcases Expr.reads_iff.mp hread with hdependency | ⟨-, hfunction⟩
  · exact hedge ((edge_ofModel_iff hmodel he later).mpr hdependency)
  · have hreserved := isReserved_of_mem_keys hmodel hfree hvariable
    rw [Expr.isFunction] at hfunction
    simp [isReserved, hfunction] at hreserved

variable [Elementary α]

/-- Models that differ in the order of their entries only: every variable has the same entry, the
graphs have the same signature, both graphs can be ordered or neither, and every computation fails
for both or gives the same values. -/
structure Interchangeable (model model' : Model α) : Prop where
  entries : ∀ name, model.get? name = model'.get? name
  names : ∀ name, name ∈ model.keys ↔ name ∈ model'.keys
  signature : (Graph.ofModel model).signature = (Graph.ofModel model').signature
  order : AgreeUpTo List.Perm (Graph.ofModel model).order (Graph.ofModel model').order
  values : ∀ (setting : Setting α) (seeds : Table α),
    AgreeUpTo SameValues (computeValues model (Graph.ofModel model) setting seeds)
      (computeValues model' (Graph.ofModel model') setting seeds)

/-- Models with the same entries are interchangeable if in causal orders no equation depends on a
value that is computed later. -/
lemma interchangeable_of_get? (h : ∀ name, model.get? name = model'.get? name)
    (hlater : ∀ order, (Graph.ofModel model).IsCausalOrder order →
      order.Pairwise fun node later => ¬ model.Consults node later)
    (hlater' : ∀ order, (Graph.ofModel model').IsCausalOrder order →
      order.Pairwise fun node later => ¬ model'.Consults node later) :
    Interchangeable model model' := by
  have hgraph : ∀ name, (Graph.ofModel model).get? name = (Graph.ofModel model').get? name := by
    intro name
    rw [Graph.ofModel, Graph.ofModel, Table.get?_map, Table.get?_map, h]
  have horders := Graph.order_agree hgraph
  refine ⟨h, fun name => ?_, Graph.signature_eq_of_get? hgraph, horders, fun setting seeds => ?_⟩
  · rw [Table.mem_keys_iff, Table.mem_keys_iff, h]
  · unfold computeValues
    generalize horder : (Graph.ofModel model).order = result at horders
    generalize horder' : (Graph.ofModel model').order = result' at horders
    cases horders with
    | error e e' => exact .error (ComputeError.cycle e) (ComputeError.cycle e')
    | @ok order order' hperm =>
        have hcausal := Graph.isCausalOrder_of_order horder
        have hcausal' := Graph.isCausalOrder_of_order horder'
        have hpairwise' := hlater' order' hcausal'
        simp only [← consults_congr h] at hpairwise'
        simp only [← propagate_congr_model h]
        exact (propagate_perm hperm hcausal.nodup (hlater order hcausal) hpairwise'
          (sameValues_seeded _ seeds hperm)).mapError _

/-- **The order of the statements does not matter.** If no statement assigns a reserved name,
rearranging the statements of a text leaves it refused or accepted, and its models are
interchangeable. -/
theorem ofText_agree {text text' : String} (hperm : (statements text).Perm (statements text'))
    (hfree : AssignsNoReserved text) :
    AgreeUpTo Interchangeable (Model.ofText text : Except ParseError (Model α))
      (Model.ofText text') := by
  cases hmodel : (Model.ofText text : Except ParseError (Model α)) with
  | error e =>
      cases hmodel' : (Model.ofText text' : Except ParseError (Model α)) with
      | error e' => exact .error e e'
      | ok model' =>
          obtain ⟨model, hok, -⟩ := exists_ofText_of_perm hperm.symm hmodel'
          rw [hmodel] at hok
          cases hok
  | ok model =>
      obtain ⟨model', hmodel', h⟩ := exists_ofText_of_perm hperm hmodel
      rw [hmodel']
      exact .ok (interchangeable_of_get? h (fun _ => pairwise_not_consults hmodel hfree)
        fun _ => pairwise_not_consults hmodel' (hfree.perm hperm))

end

theorem ofText_agree_twoStatements :
    (statements "Y = X + sin\nX = 2*Z").Perm (statements "X = 2*Z; Y = X + sin") ∧
      AssignsNoReserved "Y = X + sin\nX = 2*Z" ∧
      ∃ model model' : Model Float, model.keys = ["Y", "X", "Z"] ∧ model'.keys = ["X", "Y", "Z"] ∧
        Interchangeable model model' := by
  have hperm : (statements "Y = X + sin\nX = 2*Z").Perm (statements "X = 2*Z; Y = X + sin") := by
    decide +kernel
  have hfree : AssignsNoReserved "Y = X + sin\nX = 2*Z" := by decide +kernel
  have hkeys : (Model.ofText "Y = X + sin\nX = 2*Z" : Except ParseError (Model Float)).toOption.map
      Table.keys = some ["Y", "X", "Z"] := by decide +kernel
  have hkeys' : (Model.ofText "X = 2*Z; Y = X + sin" : Except ParseError (Model Float)).toOption.map
      Table.keys = some ["X", "Y", "Z"] := by decide +kernel
  have hagree : AgreeUpTo Interchangeable
      (Model.ofText "Y = X + sin\nX = 2*Z" : Except ParseError (Model Float))
      (Model.ofText "X = 2*Z; Y = X + sin") := ofText_agree hperm hfree
  refine ⟨hperm, hfree, ?_⟩
  generalize (Model.ofText "Y = X + sin\nX = 2*Z" : Except ParseError (Model Float)) = result
    at hagree hkeys
  generalize (Model.ofText "X = 2*Z; Y = X + sin" : Except ParseError (Model Float)) = result'
    at hagree hkeys'
  cases hagree with
  | error e e' => cases hkeys
  | ok h => exact ⟨_, _, Option.some.inj hkeys, Option.some.inj hkeys', h⟩

end CausalEquations
