import CausalEquations.Proofs.NoiseNodes
import CausalEquations.Proofs.Outcomes
import CausalEquations.Proofs.Simulation
import CausalEquations.Proofs.Solution
import CausalEquations.Proofs.Tables

/-!
# Batches, position by position

A pass over batches does at each position what a pass over numbers does. The noise nodes of a graph
make no difference to this: what no equation reads can be left out of the pass.

* `Value.Shows` — the number at a position of a value.
* `Lifting.batched_simulates` — operations on batches work position by position.
* `propagate_simulates` — so does a pass, and the pass over numbers needs no noise nodes.
* `computeValues_of_propagate` — any causal order computes the values of the graph.
-/

namespace CausalEquations

variable {α β γ : Type}

/-! ## Positions -/

/-- At position `i` of a value spread over `n` positions stands the number `x`. -/
def Value.Shows (n i : ℕ) : Value α → α → Prop
  | .single y, x => y = x
  | .batch xs, x => xs.length = n ∧ xs[i]? = some x

/-- Values of one length always go together. -/
lemma Value.Shows.zipWith {n i : ℕ} {a : Value α} {b : Value β} {x : α} {y : β} (f : α → β → γ)
    (ha : a.Shows n i x) (hb : b.Shows n i y) :
    ∃ c, Value.zipWith f a b = .ok c ∧ c.Shows n i (f x y) := by
  match a, b, ha, hb with
  | .single _, .single _, rfl, rfl => exact ⟨_, rfl, rfl⟩
  | .single _, .batch ys, rfl, ⟨hlength, hy⟩ => exact ⟨_, rfl, by simp [hlength], by simp [hy]⟩
  | .batch xs, .single _, ⟨hlength, hx⟩, rfl => exact ⟨_, rfl, by simp [hlength], by simp [hx]⟩
  | .batch xs, .batch ys, ⟨hlength, hx⟩, ⟨hlength', hy⟩ =>
      refine ⟨.batch (List.zipWith f xs ys), ?_, by simp [hlength, hlength'], ?_⟩
      · simp only [Value.zipWith, hlength, hlength', if_true]
      · simp [List.getElem?_zipWith, hx, hy]

lemma Value.Shows.map {n i : ℕ} {a : Value α} {x : α} (f : α → β) (h : a.Shows n i x) :
    (a.map f).Shows n i (f x) := by
  match a, h with
  | .single _, rfl => rfl
  | .batch xs, ⟨hlength, hx⟩ => exact ⟨by simp [hlength], by simp [hx]⟩

/-- What stands at a position is found there when the value is spread. -/
lemma Value.Shows.spread {n i : ℕ} {a : Value α} {x : α} (h : a.Shows n i x) (hi : i < n) :
    (a.spread n)[i]? = some x := by
  match a, h with
  | .single _, rfl => simp [Value.spread, hi]
  | .batch xs, ⟨_, hx⟩ => exact hx

/-- **Operations on batches work position by position**, and never fail on batches of one length. -/
theorem Lifting.batched_simulates (n i : ℕ) :
    (Lifting.batched (α := α)).Simulates (Value.Shows n i) Lifting.single where
  const _ := rfl
  map f _ _ h := h.map f
  map₂ f _ _ _ _ h h' := by
    obtain ⟨c, hc, hshows⟩ := h.zipWith f h'
    simp only [batched, hc]
    exact .ok hshows
  map₃ f _ _ _ _ _ _ h h' h'' := by
    obtain ⟨pairs, hpairs, hshows⟩ := h.zipWith Prod.mk h'
    obtain ⟨c, hc, hshows'⟩ := hshows.zipWith (fun p c => f p.1 p.2 c) h''
    simp only [batched, hpairs, bind, Except.bind, hc]
    exact .ok hshows'

/-! ## A pass -/

variable [Scalar α] [Elementary α]

section

variable {R : β → γ → Prop} {lift : Lifting α β} {lift' : Lifting α γ}
  {setting : Setting β} {setting' : Setting γ} {model : Model α}

/-- The settings hold the same plain names, and inject related noise into them. -/
structure SameSetting (R : β → γ → Prop) (lift : Lifting α β) (lift' : Lifting α γ)
    (setting : Setting β) (setting' : Setting γ) : Prop where
  clamped : ∀ name, Plain name → setting.isClamped name = setting'.isClamped name
  noise : ∀ name, Plain name → R (setting.noiseOf lift name) (setting'.noiseOf lift' name)

/-- The equation of the node reads plain names only. -/
def ReadsPlain (model : Model α) (node : Name) : Prop :=
  ∀ e, model.equation? node = some e → ∀ name, e.Reads name → Plain name

variable (hsim : lift.Simulates R lift') (hsetting : SameSetting R lift lift' setting setting')

include hsim hsetting

lemma nodeValue_simulates {values : Table β} {values' : Table γ} {node : Name} (hnode : Plain node)
    (hreads : ReadsPlain model node) (hvalues : values.RelatedOn Plain R values') :
    SameOutcome R (nodeValue lift model setting values node)
      (nodeValue lift' model setting' values' node) := by
  have hnoiseAt : isNoise node = true → R (setting.noiseAt lift node)
      (setting'.noiseAt lift' node) := by
    intro hmark
    rw [hnode] at hmark
    cases hmark
  exact nodeValue_of_reads hsim (fun _ => hnoiseAt) (hsetting.noise node hnode)
    fun e he name hread => hvalues.getD (hreads e he name hread) (hsim.const _)

/-- A plain node is computed on both sides alike. -/
lemma visit_simulates {values : Table β} {values' : Table γ} {node : Name} (hnode : Plain node)
    (hreads : ReadsPlain model node) (hvalues : values.RelatedOn Plain R values') :
    SameOutcome (Table.RelatedOn Plain R) (visit lift model setting values node)
      (visit lift' model setting' values' node) := by
  unfold visit
  rw [hsetting.clamped node hnode]
  split
  · exact .ok hvalues
  · exact (nodeValue_simulates hsim hsetting hnode hreads hvalues).bind
      fun _ _ hx => .ok (hvalues.insert hx)

omit hsim hsetting in
/-- A noise node changes no plain name. -/
lemma visit_noise {values next : Table β} {values' : Table γ} {node : Name} (hnode : ¬ Plain node)
    (hvalues : values.RelatedOn Plain R values')
    (hvisit : visit lift model setting values node = .ok next) :
    next.RelatedOn Plain R values' := by
  unfold visit at hvisit
  split at hvisit
  · cases hvisit
    exact hvalues
  · obtain ⟨x, -, hnext⟩ := bind_eq_ok.mp hvisit
    cases hnext
    exact hvalues.insert_left hnode

/-- **A pass can be followed on the other side without the noise nodes.** The induction is on the
order: both tables stay related at every plain name. -/
theorem propagate_simulates {order : List Name} (hreads : ∀ node ∈ order, Plain node →
    ReadsPlain model node) {values result : Table β} {values' : Table γ}
    (hvalues : values.RelatedOn Plain R values')
    (hrun : propagate lift model setting order values = .ok result) :
    ∃ result', propagate lift' model setting' (order.filter fun node => !isNoise node) values' =
      .ok result' ∧ result.RelatedOn Plain R result' := by
  induction order generalizing values values' with
  | nil =>
      obtain rfl : values = result := by simpa [propagate, pure, Except.pure] using hrun
      exact ⟨values', rfl, hvalues⟩
  | cons node rest ih =>
      obtain ⟨hnode, hrest⟩ := List.forall_mem_cons.mp hreads
      rw [propagate_cons] at hrun
      obtain ⟨next, hvisit, hnext⟩ := bind_eq_ok.mp hrun
      by_cases hplain : Plain node
      · have hstep := visit_simulates hsim hsetting hplain (hnode hplain) hvalues
        rw [hvisit] at hstep
        obtain ⟨next', hvisit', hvalues'⟩ := hstep.of_ok
        obtain ⟨result', hrun', hresult⟩ := ih hrest hvalues' hnext
        refine ⟨result', ?_, hresult⟩
        have hkept : (!isNoise node) = true := by rw [hplain]; rfl
        rw [List.filter_cons, if_pos hkept, propagate_cons, hvisit']
        exact hrun'
      · have hdropped : ¬ (!isNoise node) = true := by simpa [Plain] using hplain
        rw [List.filter_cons, if_neg hdropped]
        exact ih hrest (visit_noise hplain hvalues hvisit) hnext

end

/-! ## Other causal orders -/

/-- A solution has a value for every node. -/
lemma IsSolution.exists_value {lift : Lifting α β} {model : Model α} {graph : Graph}
    {setting : Setting β} {seeds values : Table β}
    (h : IsSolution lift model graph setting seeds values) {node : Name}
    (hnode : node ∈ graph.nodes) : ∃ x, values.get? node = some x := by
  obtain ⟨hkept, hfree⟩ := isSolution_iff.mp h
  cases hclamped : setting.isClamped node with
  | true => exact ⟨_, by rw [hkept node (.inl hclamped), startValue, if_pos hnode]⟩
  | false =>
      obtain ⟨x, hx, -⟩ := hfree node hnode hclamped
      exact ⟨x, hx⟩

/-- What a causal order arrives at is what computing the graph gives. -/
lemma computeValues_of_propagate {model : Model α} {graph : Graph} {setting : Setting α}
    {seeds values : Table α} {order : List Name} (hg : graph.Acyclic) (hcover : Covers graph model)
    (horder : graph.IsCausalOrder order)
    (hrun : propagate Lifting.single model setting order (seeded Scalar.zero seeds order) =
      .ok values) :
    ∃ run, computeValues model graph setting seeds = .ok run ∧ SameValues run values ∧
      ∀ node ∈ graph.nodes, ∃ x, run.get? node = some x := by
  have hsolution := isSolution_of_propagate hcover horder hrun
  obtain ⟨order', horder', hcompute⟩ := computeValues_eq model setting seeds hg
  obtain ⟨run, hrun', hsame⟩ := propagate_of_isSolution hg hcover horder' hsolution
  refine ⟨run, by rw [hcompute, hrun']; rfl, hsame, fun node hnode => ?_⟩
  rw [hsame node]
  exact hsolution.exists_value hnode

end CausalEquations
