import CausalEquations.Propagation
import CausalEquations.Proofs.CausalOrder
import CausalEquations.Proofs.NoiseNames
import CausalEquations.Proofs.Outcomes
import CausalEquations.Proofs.RationalNumbers
import CausalEquations.Proofs.Simulation

/-!
# Propagation solves the equations

A pass writes into the table that it reads. In a causal order this does no harm: whatever an
equation reads has its last value already, so the pass ends on the one table that solves all
equations at once, whichever causal order it follows.

* `Expr.Reads`, `Expr.evaluate_of_reads`, `Expr.evaluate_congr` — the names whose values an
  expression depends on.
* `Covers` — every equation reads only parents of its variable.
* `IsSolution` — a table in which every node has the value that its equation has in that very table.
* `propagate_of_isSolution` — a solution is what every causal order arrives at.
* `isSolution_of_propagate` — what a causal order arrives at is a solution.
* `propagation_solves` — both together, and the same for a whole graph.
-/

namespace CausalEquations

variable {α β γ : Type} [Scalar α]

/-! ## What an expression reads -/

/-- The names whose values an expression depends on: neither constants nor its own noise. -/
def Expr.Reads (e : Expr α) (name : Name) : Prop :=
  name ∈ e.identifiers ∧ Constant.ofName? name = none ∧ name ≠ errorName

variable {R : β → γ → Prop} {lift : Lifting α β} {lift' : Lifting α γ}

/-- Scopes with related noise that give related values to a name that is read resolve it to related
values. -/
lemma Scope.resolve_simulates (hsim : lift.Simulates R lift') {s : Scope β} {s' : Scope γ}
    {name : Name} (herror : R s.error s'.error)
    (hread : Constant.ofName? name = none → name ≠ errorName →
      R (s.values.getD name (lift.const Scalar.zero))
        (s'.values.getD name (lift'.const Scalar.zero))) :
    R (s.resolve lift name) (s'.resolve lift' name) := by
  unfold Scope.resolve
  cases hc : Constant.ofName? name with
  | some c => exact hsim.const c.value
  | none =>
      by_cases he : name = errorName
      · simpa only [he, if_true] using herror
      · simpa only [he, if_false] using hread hc he

variable [Elementary α]

/-- Evaluations side by side need related values only for the noise and for the names that are
read. -/
theorem Expr.evaluate_of_reads (hsim : lift.Simulates R lift') {s : Scope β} {s' : Scope γ}
    (e : Expr α) (herror : R s.error s'.error)
    (hread : ∀ name, e.Reads name → R (s.values.getD name (lift.const Scalar.zero))
      (s'.values.getD name (lift'.const Scalar.zero))) :
    SameOutcome R (e.evaluate lift s) (e.evaluate lift' s') :=
  e.evaluate_simulates hsim fun name hmem =>
    Scope.resolve_simulates hsim herror fun hc he => hread name ⟨hmem, hc, he⟩

/-- The outcome of an evaluation depends only on the noise and on the names that are read. -/
theorem Expr.evaluate_congr (lift : Lifting α β) {s s' : Scope β} (e : Expr α)
    (herror : s.error = s'.error)
    (hread : ∀ name, e.Reads name →
      s.values.getD name (lift.const Scalar.zero) = s'.values.getD name (lift.const Scalar.zero)) :
    e.evaluate lift s = e.evaluate lift s' :=
  (e.evaluate_of_reads lift.simulates_eq herror hread).eq

/-! ## Solutions -/

/-- Every equation of a node reads only parents of the node. -/
def Covers (graph : Graph) (model : Model α) : Prop :=
  ∀ node ∈ graph.nodes, ∀ entry e, model.get? node = some entry → entry.expression = some e →
    ∀ name, e.Reads name → graph.Edge name node

omit [Scalar α] [Elementary α] in
/-- The equations are covered if every one of them reads only parents of its variable. -/
lemma covers_of_entries {graph : Graph} {model : Model α}
    (h : ∀ e ∈ model.entries, ∀ x ∈ e.2.expression, ∀ name ∈ x.identifiers,
      Constant.ofName? name = none → name ≠ errorName → graph.Edge name e.1) :
    Covers graph model :=
  fun node _ entry x hentry hx name hread =>
    h (node, entry) (Table.mem_of_get? hentry) x hx name hread.1 hread.2.1 hread.2.2

/-- The equation of a variable, if it has one. -/
def Model.equation? (model : Model α) (name : Name) : Option (Expr α) :=
  (model.get? name).bind Entry.expression

/-- What a name starts with: a node that is given no value starts at zero. -/
def startValue (zero : β) (graph : Graph) (seeds : Table β) (name : Name) : Option β :=
  if name ∈ graph.nodes then some (seeds.getD name zero) else seeds.get? name

/-- A table that solves all equations at once, each read in that table itself. The noise of a node is
what is given under its name behind the mark, and zero if nothing is. -/
structure IsSolution (lift : Lifting α β) (model : Model α) (graph : Graph) (setting : Setting β)
    (seeds values : Table β) : Prop where
  /-- Clamped nodes, and names outside the graph, keep what they start with. -/
  kept : ∀ name, setting.clamped.get? name = some true ∨ name ∉ graph.nodes →
    values.get? name = startValue (lift.const Scalar.zero) graph seeds name
  /-- A noise node that is no variable of the model has the value that is given for it. -/
  noiseNode : ∀ target, "noise:" ++ target ∈ graph.nodes →
    setting.clamped.get? ("noise:" ++ target) ≠ some true →
    model.get? ("noise:" ++ target) = none →
      values.get? ("noise:" ++ target) =
        some (setting.noise.getD ("noise:" ++ target) (lift.const Scalar.zero))
  /-- Any other node without equation has the noise that is injected into it. -/
  noEquation : ∀ node ∈ graph.nodes, setting.clamped.get? node ≠ some true →
    model.equation? node = none → ¬ (model.get? node = none ∧ ∃ target, node = "noise:" ++ target) →
      values.get? node = some (setting.noise.getD ("noise:" ++ node) (lift.const Scalar.zero))
  /-- A node with an equation has the value of the equation in the table itself, where `error` stands
  for the noise of the node. -/
  equation : ∀ node ∈ graph.nodes, setting.clamped.get? node ≠ some true →
    ∀ e, model.equation? node = some e → ∃ x, values.get? node = some x ∧
      e.evaluate lift
        ⟨values, setting.noise.getD ("noise:" ++ node) (lift.const Scalar.zero)⟩ = .ok x

/-- The tables hold the same mapping, whatever the order of their entries. -/
def SameValues (t s : Table β) : Prop := ∀ name, t.get? name = s.get? name

variable {model : Model α} {graph : Graph} {setting : Setting β}
variable {seeds values : Table β} {order : List Name}

/-! ### Node values

`nodeValue` is the one place that decides which of the three kinds a node is of, so a solution is a
table in which every free node has its `nodeValue`.
-/

lemma nodeValue_of_noiseNode {node : Name} (hmodel : model.get? node = none)
    (hnoise : isNoise node = true) :
    nodeValue lift model setting values node = .ok (setting.noiseAt lift node) := by
  simp only [nodeValue, hmodel, hnoise, if_true]

lemma nodeValue_of_noEquation {node : Name} (hequation : model.equation? node = none)
    (hplain : ¬ (model.get? node = none ∧ isNoise node = true)) :
    nodeValue lift model setting values node = .ok (setting.noiseOf lift node) := by
  unfold nodeValue
  unfold Model.equation? at hequation
  cases hmodel : model.get? node with
  | none =>
      have hnoise : ¬ isNoise node = true := fun h => hplain ⟨hmodel, h⟩
      simp only [hnoise, if_false, Bool.false_eq_true]
  | some entry =>
      simp only [hmodel, Option.bind_some] at hequation
      simp only [hequation]

variable (lift setting values) in
lemma nodeValue_of_equation {node : Name} {e : Expr α} (h : model.equation? node = some e) :
    ∃ entry, model.get? node = some entry ∧ entry.expression = some e ∧
      nodeValue lift model setting values node =
        (e.evaluate lift ⟨values, setting.noiseOf lift node⟩).mapError
          fun cause => ⟨node, entry.source, cause⟩ := by
  obtain ⟨entry, hmodel, hentry⟩ := Option.bind_eq_some_iff.mp h
  exact ⟨entry, hmodel, hentry, by simp only [nodeValue, hmodel, hentry]⟩

/-- Node values side by side need related values only for what the equation reads. -/
lemma nodeValue_of_reads (hsim : lift.Simulates R lift') {setting' : Setting γ} {values' : Table γ}
    {node : Name} (hnoiseAt : model.get? node = none → isNoise node = true →
      R (setting.noiseAt lift node) (setting'.noiseAt lift' node))
    (hnoiseOf : R (setting.noiseOf lift node) (setting'.noiseOf lift' node))
    (hread : ∀ e, model.equation? node = some e → ∀ name, e.Reads name →
      R (values.getD name (lift.const Scalar.zero)) (values'.getD name (lift'.const Scalar.zero))) :
    SameOutcome R (nodeValue lift model setting values node)
      (nodeValue lift' model setting' values' node) := by
  cases hequation : model.equation? node with
  | none =>
      by_cases hnoise : model.get? node = none ∧ isNoise node = true
      · rw [nodeValue_of_noiseNode hnoise.1 hnoise.2, nodeValue_of_noiseNode hnoise.1 hnoise.2]
        exact .ok (hnoiseAt hnoise.1 hnoise.2)
      · rw [nodeValue_of_noEquation hequation hnoise, nodeValue_of_noEquation hequation hnoise]
        exact .ok hnoiseOf
  | some e =>
      obtain ⟨entry, hmodel, hentry, hvalue⟩ := nodeValue_of_equation lift setting values hequation
      rw [hvalue]
      simp only [nodeValue, hmodel, hentry]
      exact SameOutcome.mapError _ (e.evaluate_of_reads hsim hnoiseOf (hread e hequation))

variable (lift setting values) in
/-- The value of a node depends only on the values of its parents. -/
lemma nodeValue_congr (values' : Table β) (hcover : Covers graph model) {node : Name}
    (hnode : node ∈ graph.nodes)
    (hparents : ∀ parent, graph.Edge parent node → values.get? parent = values'.get? parent) :
    nodeValue lift model setting values node = nodeValue lift model setting values' node := by
  refine (nodeValue_of_reads lift.simulates_eq (fun _ _ => rfl) rfl fun e he name hread => ?_).eq
  obtain ⟨entry, hmodel, hentry⟩ := Option.bind_eq_some_iff.mp he
  simp only [Table.getD, hparents name (hcover node hnode entry e hmodel hentry name hread)]

/-! ### Solutions by node values -/

omit [Elementary α] in
lemma noiseAt_eq (node : Name) :
    setting.noiseAt lift node = setting.noise.getD node (lift.const Scalar.zero) := rfl

omit [Elementary α] in
lemma noiseOf_eq (node : Name) :
    setting.noiseOf lift node = setting.noise.getD ("noise:" ++ node) (lift.const Scalar.zero) := by
  rw [Setting.noiseOf, noiseAt_eq, noiseId_eq]

lemma isClamped_iff {node : Name} :
    setting.isClamped node = true ↔ setting.clamped.get? node = some true := by
  rw [Setting.isClamped, Table.getD]
  cases setting.clamped.get? node <;> simp

lemma isClamped_eq_false_iff {node : Name} :
    setting.isClamped node = false ↔ setting.clamped.get? node ≠ some true := by
  rw [← Bool.not_eq_true, isClamped_iff]

lemma nodeValue_eq_ok_iff {node : Name} {e : Expr α} {x : β} (h : model.equation? node = some e) :
    nodeValue lift model setting values node = .ok x ↔
      e.evaluate lift ⟨values, setting.noise.getD ("noise:" ++ node) (lift.const Scalar.zero)⟩ =
        .ok x := by
  obtain ⟨entry, -, -, hvalue⟩ := nodeValue_of_equation lift setting values h
  rw [hvalue, noiseOf_eq, mapError_eq_ok]

/-- A table that keeps what is to be kept solves the equations if every free node has its value. -/
lemma isSolution_iff : IsSolution lift model graph setting seeds values ↔
    (∀ name, setting.isClamped name = true ∨ name ∉ graph.nodes →
      values.get? name = startValue (lift.const Scalar.zero) graph seeds name) ∧
    ∀ node ∈ graph.nodes, setting.isClamped node = false →
      ∃ x, values.get? node = some x ∧ nodeValue lift model setting values node = .ok x := by
  simp only [isClamped_iff, isClamped_eq_false_iff]
  constructor
  · intro h
    refine ⟨h.kept, fun node hnode hfree => ?_⟩
    cases hequation : model.equation? node with
    | none =>
        by_cases hnoise : model.get? node = none ∧ isNoise node = true
        · rw [nodeValue_of_noiseNode hnoise.1 hnoise.2, noiseAt_eq]
          obtain ⟨hmodel, hmark⟩ := hnoise
          obtain ⟨target, rfl⟩ := isNoise_iff.mp hmark
          exact ⟨_, h.noiseNode target hnode hfree hmodel, rfl⟩
        · rw [nodeValue_of_noEquation hequation hnoise, noiseOf_eq]
          rw [isNoise_iff] at hnoise
          exact ⟨_, h.noEquation node hnode hfree hequation hnoise, rfl⟩
    | some e =>
        obtain ⟨x, hx, hvalue⟩ := h.equation node hnode hfree e hequation
        exact ⟨x, hx, (nodeValue_eq_ok_iff hequation).mpr hvalue⟩
  · rintro ⟨hkept, hfree⟩
    refine ⟨hkept, fun target hnode hc hmodel => ?_, fun node hnode hc hequation hplain => ?_,
      fun node hnode hc e hequation => ?_⟩
    · obtain ⟨x, hx, hvalue⟩ := hfree _ hnode hc
      rw [nodeValue_of_noiseNode hmodel (isNoise_iff.mpr ⟨target, rfl⟩), noiseAt_eq] at hvalue
      cases hvalue
      exact hx
    · obtain ⟨x, hx, hvalue⟩ := hfree node hnode hc
      rw [← isNoise_iff] at hplain
      rw [nodeValue_of_noEquation hequation hplain, noiseOf_eq] at hvalue
      cases hvalue
      exact hx
    · obtain ⟨x, hx, hvalue⟩ := hfree node hnode hc
      exact ⟨x, hx, (nodeValue_eq_ok_iff hequation).mp hvalue⟩

/-! ## A pass, node by node -/

/-- What holds after the nodes of `done` have been computed: the other names and the clamped ones
are as they started, and each free node of `done` has the value that it has in the present table. -/
structure PassState (lift : Lifting α β) (model : Model α) (graph : Graph) (setting : Setting β)
    (seeds : Table β) (done : List Name) (values : Table β) : Prop where
  untouched : ∀ name, setting.isClamped name = true ∨ name ∉ done →
    values.get? name = startValue (lift.const Scalar.zero) graph seeds name
  settled : ∀ node ∈ done, setting.isClamped node = false →
    ∃ x, values.get? node = some x ∧ nodeValue lift model setting values node = .ok x

/-- A pass over all nodes ends where the equations are solved. -/
lemma isSolution_iff_passState :
    IsSolution lift model graph setting seeds values ↔
      PassState lift model graph setting seeds graph.nodes values :=
  ⟨fun h => ⟨(isSolution_iff.mp h).1, (isSolution_iff.mp h).2⟩,
    fun h => isSolution_iff.mpr ⟨h.untouched, h.settled⟩⟩

lemma get?_seeded (zero : β) (seeds : Table β) (order : List Name) (name : Name) :
    (seeded zero seeds order).get? name =
      if name ∈ order then some (seeds.getD name zero) else seeds.get? name := by
  induction order generalizing seeds with
  | nil => simp [seeded]
  | cons first rest ih =>
      have hstep : seeded zero seeds (first :: rest)
          = seeded zero (seeds.insertIfNew first zero) rest := rfl
      rw [hstep, ih]
      simp only [Table.getD, Table.get?_insertIfNew, List.mem_cons]
      by_cases hfirst : first = name
      · subst hfirst
        simp
      · simp [hfirst, Ne.symm hfirst]

/-- At the start nothing is computed. -/
lemma passState_seeded (horder : graph.IsCausalOrder order) :
    PassState lift model graph setting seeds []
      (seeded (lift.const Scalar.zero) seeds order) where
  untouched := by
    intro name _
    simp only [get?_seeded, startValue, horder.mem_iff]
  settled := by simp

/-- Two tables that have settled the same nodes and started alike agree on these nodes. The
induction is along the edges: the parents of a settled node are settled. -/
lemma PassState.agree (hg : graph.Acyclic) (hcover : Covers graph model)
    {done done' : List Name} {values' : Table β}
    (h : PassState lift model graph setting seeds done values)
    (h' : PassState lift model graph setting seeds done' values') (hsub : done ⊆ done')
    (hclosed : ∀ node ∈ done, ∀ parent, graph.Edge parent node → parent ∈ done) :
    ∀ node ∈ graph.nodes, node ∈ done → values.get? node = values'.get? node := by
  refine hg.induction fun node hnode ih hdone => ?_
  cases hc : setting.isClamped node with
  | true => rw [h.untouched node (Or.inl hc), h'.untouched node (Or.inl hc)]
  | false =>
      obtain ⟨x, hx, hvalue⟩ := h.settled node hdone hc
      obtain ⟨x', hx', hvalue'⟩ := h'.settled node (hsub hdone) hc
      have hsame := nodeValue_congr lift setting values values' hcover hnode fun parent hedge =>
          ih parent hedge (hclosed node hdone parent hedge)
      rw [hvalue, hvalue'] at hsame
      cases hsame
      rw [hx, hx']

section

variable {done rest : List Name} {node : Name}

/-- A clamped node stays as it is. -/
lemma PassState.skip (hclamped : setting.isClamped node = true)
    (h : PassState lift model graph setting seeds done values) :
    PassState lift model graph setting seeds (done ++ [node]) values where
  untouched name hname :=
    h.untouched name (hname.imp_right fun hout hm => hout (List.mem_append_left _ hm))
  settled n hn hfree := by
    rcases List.mem_append.mp hn with hold | hnew
    · exact h.settled n hold hfree
    · obtain rfl := List.mem_singleton.mp hnew
      rw [hclamped] at hfree
      cases hfree

/-- A node that is settled with the next one has its parents before that. -/
lemma parent_mem_done (horder : graph.IsCausalOrder order) (hsplit : order = done ++ node :: rest)
    {n parent : Name} (hn : n ∈ done ++ [node]) (hedge : graph.Edge parent n) : parent ∈ done := by
  rcases List.mem_append.mp hn with hold | hnew
  · obtain ⟨before, after, rfl⟩ := List.append_of_mem hold
    have hbefore := horder.parents_before before n (after ++ node :: rest)
      (by rw [hsplit]; simp) parent hedge
    exact List.mem_append_left _ hbefore
  · obtain rfl := List.mem_singleton.mp hnew
    exact horder.parents_before done n rest hsplit parent hedge

/-- A free node gets its value. No settled node has it among its parents, so their values stay. -/
lemma PassState.settle (hcover : Covers graph model) (horder : graph.IsCausalOrder order)
    (hsplit : order = done ++ node :: rest)
    (h : PassState lift model graph setting seeds done values)
    (hfree : setting.isClamped node = false) {x : β}
    (hvalue : nodeValue lift model setting values node = .ok x) :
    PassState lift model graph setting seeds (done ++ [node]) (values.insert node x) := by
  have hfresh : node ∉ done := by
    have hnodup := horder.nodup
    rw [hsplit] at hnodup
    exact fun hm => List.disjoint_of_nodup_append hnodup hm List.mem_cons_self
  have hnodes : ∀ n ∈ done ++ [node], n ∈ graph.nodes := by
    intro n hn
    rw [← horder.mem_iff, hsplit]
    simp only [List.mem_append, List.mem_cons, List.not_mem_nil, or_false] at hn ⊢
    tauto
  have hkeep : ∀ name, name ≠ node → (values.insert node x).get? name = values.get? name :=
    fun name hname => by rw [Table.get?_insert, if_neg (Ne.symm hname)]
  have hsame : ∀ n ∈ done ++ [node], nodeValue lift model setting (values.insert node x) n
      = nodeValue lift model setting values n := fun n hn =>
    nodeValue_congr _ _ _ _ hcover (hnodes n hn) fun parent hedge =>
      hkeep parent fun heq => hfresh (heq ▸ parent_mem_done horder hsplit hn hedge)
  constructor
  case untouched =>
    intro name hname
    have hne : name ≠ node := by
      rintro rfl
      rcases hname with hclamped | hout
      · rw [hfree] at hclamped
        cases hclamped
      · exact hout (by simp)
    rw [hkeep name hne]
    exact h.untouched name (hname.imp_right fun hout hm => hout (List.mem_append_left _ hm))
  case settled =>
    intro n hn hn'
    rw [hsame n hn]
    rcases List.mem_append.mp hn with hold | hnew
    · rw [hkeep n fun heq => hfresh (heq ▸ hold)]
      exact h.settled n hold hn'
    · obtain rfl := List.mem_singleton.mp hnew
      exact ⟨x, by rw [Table.get?_insert, if_pos rfl], hvalue⟩

/-- Computing the next node of a causal order settles it, and unsettles none. -/
lemma PassState.visit (hcover : Covers graph model) (horder : graph.IsCausalOrder order)
    {next : Table β} (hsplit : order = done ++ node :: rest)
    (h : PassState lift model graph setting seeds done values)
    (hvisit : visit lift model setting values node = .ok next) :
    PassState lift model graph setting seeds (done ++ [node]) next := by
  unfold CausalEquations.visit at hvisit
  cases hc : setting.isClamped node with
  | true =>
      simp only [hc, if_true, Except.ok.injEq] at hvisit
      subst hvisit
      exact h.skip hc
  | false =>
      simp only [hc, Bool.false_eq_true, if_false] at hvisit
      obtain ⟨x, hvalue, hnext⟩ := bind_eq_ok.mp hvisit
      obtain rfl : values.insert node x = next := Except.ok.inj hnext
      exact h.settle hcover horder hsplit hc hvalue

end

/-- A node of a causal order can be computed if the equations have a solution at all. -/
lemma PassState.exists_visit (hg : graph.Acyclic) (hcover : Covers graph model)
    (horder : graph.IsCausalOrder order) {done rest : List Name} {node : Name}
    {solution : Table β} (hsplit : order = done ++ node :: rest)
    (h : PassState lift model graph setting seeds done values)
    (hsol : IsSolution lift model graph setting seeds solution) :
    ∃ next, CausalEquations.visit lift model setting values node = .ok next := by
  unfold CausalEquations.visit
  cases hc : setting.isClamped node with
  | true => exact ⟨values, rfl⟩
  | false =>
      have hnode : node ∈ graph.nodes := (horder.mem_iff node).mp (by rw [hsplit]; simp)
      have hdone : done ⊆ graph.nodes := fun n hn =>
        (horder.mem_iff n).mp (by rw [hsplit]; exact List.mem_append_left _ hn)
      have hclosed : ∀ n ∈ done, ∀ parent, graph.Edge parent n → parent ∈ done := by
        intro n hn parent hedge
        obtain ⟨before, after, rfl⟩ := List.append_of_mem hn
        exact List.mem_append_left _ (horder.parents_before before n (after ++ node :: rest)
          (by rw [hsplit]; simp) parent hedge)
      have hagree := h.agree hg hcover (isSolution_iff_passState.mp hsol) hdone hclosed
      obtain ⟨x, -, hvalue⟩ := (isSolution_iff.mp hsol).2 node hnode hc
      have hsame := nodeValue_congr lift setting values solution hcover hnode fun parent hedge =>
          hagree parent (Graph.parent_mem_nodes hedge)
            (horder.parents_before done node rest hsplit parent hedge)
      refine ⟨values.insert node x, ?_⟩
      simp only [Bool.false_eq_true, if_false, hsame, hvalue, bind, Except.bind, pure, Except.pure]

/-! ## The whole pass -/

lemma propagate_cons (node : Name) (rest : List Name) :
    propagate lift model setting (node :: rest) values =
      visit lift model setting values node >>= propagate lift model setting rest :=
  List.foldlM_cons ..

/-- A pass that succeeds has settled every node. -/
lemma PassState.run (hcover : Covers graph model) (horder : graph.IsCausalOrder order)
    {done rest : List Name} {final : Table β} (hsplit : order = done ++ rest)
    (h : PassState lift model graph setting seeds done values)
    (hrun : propagate lift model setting rest values = .ok final) :
    PassState lift model graph setting seeds order final := by
  induction rest generalizing done values with
  | nil =>
      obtain rfl : values = final := by simpa [propagate, pure, Except.pure] using hrun
      simpa [hsplit] using h
  | cons node rest ih =>
      rw [propagate_cons] at hrun
      obtain ⟨next, hvisit, hrest⟩ := bind_eq_ok.mp hrun
      exact ih (by simpa using hsplit) (h.visit hcover horder hsplit hvisit) hrest

/-- A pass succeeds if the equations have a solution. -/
lemma PassState.exists_run (hg : graph.Acyclic) (hcover : Covers graph model)
    (horder : graph.IsCausalOrder order) {done rest : List Name} {solution : Table β}
    (hsplit : order = done ++ rest) (h : PassState lift model graph setting seeds done values)
    (hsol : IsSolution lift model graph setting seeds solution) :
    ∃ final, propagate lift model setting rest values = .ok final := by
  induction rest generalizing done values with
  | nil => exact ⟨values, rfl⟩
  | cons node rest ih =>
      obtain ⟨next, hvisit⟩ := h.exists_visit hg hcover horder hsplit hsol
      rw [propagate_cons, hvisit]
      exact ih (by simpa using hsplit) (h.visit hcover horder hsplit hvisit)

/-- What a causal order arrives at is a solution. -/
theorem isSolution_of_propagate (hcover : Covers graph model)
    (horder : graph.IsCausalOrder order)
    (hrun : propagate lift model setting order (seeded (lift.const Scalar.zero) seeds order)
      = .ok values) :
    IsSolution lift model graph setting seeds values := by
  have hfinal := (passState_seeded horder).run hcover horder rfl hrun
  refine isSolution_iff_passState.mpr ⟨fun name hname => hfinal.untouched name ?_, fun node hn => ?_⟩
  · exact hname.imp_right fun hout hm => hout ((horder.mem_iff name).mp hm)
  · exact hfinal.settled node ((horder.mem_iff node).mpr hn)

/-- The equations of an acyclic graph have at most one solution. -/
theorem IsSolution.unique (hg : graph.Acyclic) (hcover : Covers graph model)
    {solution : Table β} (h : IsSolution lift model graph setting seeds values)
    (hsol : IsSolution lift model graph setting seeds solution) : SameValues values solution := by
  intro name
  by_cases hnode : name ∈ graph.nodes
  · exact (isSolution_iff_passState.mp h).agree hg hcover (isSolution_iff_passState.mp hsol)
      (fun _ hn => hn) (fun _ _ _ hedge => Graph.parent_mem_nodes hedge) name hnode hnode
  · rw [h.kept name (Or.inr hnode), hsol.kept name (Or.inr hnode)]

/-- A solution is what every causal order arrives at. -/
theorem propagate_of_isSolution (hg : graph.Acyclic) (hcover : Covers graph model)
    (horder : graph.IsCausalOrder order) {solution : Table β}
    (hsol : IsSolution lift model graph setting seeds solution) :
    ∃ values, propagate lift model setting order (seeded (lift.const Scalar.zero) seeds order)
      = .ok values ∧ SameValues values solution := by
  have hstart : PassState lift model graph setting seeds []
      (seeded (lift.const Scalar.zero) seeds order) := passState_seeded horder
  obtain ⟨values, hrun⟩ := hstart.exists_run hg hcover horder rfl hsol
  exact ⟨values, hrun, (isSolution_of_propagate hcover horder hrun).unique hg hcover hsol⟩

/-- Either all causal orders arrive at the one solution of the equations, or there is none and all
of them end in an error. -/
def SolvesOrFails (lift : Lifting α β) (model : Model α) (graph : Graph) (setting : Setting β)
    (seeds : Table β) : Prop :=
  (∃ solution, IsSolution lift model graph setting seeds solution ∧
    (∀ values, IsSolution lift model graph setting seeds values → SameValues values solution) ∧
    ∀ order, graph.IsCausalOrder order → ∃ values,
      propagate lift model setting order (seeded (lift.const Scalar.zero) seeds order) = .ok values ∧
        SameValues values solution) ∨
  ((∀ values, ¬ IsSolution lift model graph setting seeds values) ∧
    ∀ order, graph.IsCausalOrder order → ∃ e,
      propagate lift model setting order (seeded (lift.const Scalar.zero) seeds order) = .error e)

lemma solvesOrFails (lift : Lifting α β) (hg : graph.Acyclic) (hcover : Covers graph model)
    (setting : Setting β) (seeds : Table β) : SolvesOrFails lift model graph setting seeds := by
  by_cases hsol : ∃ solution, IsSolution lift model graph setting seeds solution
  · obtain ⟨solution, hsol⟩ := hsol
    refine Or.inl ⟨solution, hsol, fun values h => h.unique hg hcover hsol, fun order horder => ?_⟩
    exact propagate_of_isSolution hg hcover horder hsol
  · refine Or.inr ⟨fun values h => hsol ⟨values, h⟩, fun order horder => ?_⟩
    cases hrun : propagate lift model setting order
        (seeded (lift.const Scalar.zero) seeds order) with
    | error e => exact ⟨e, rfl⟩
    | ok values => exact absurd ⟨values, isSolution_of_propagate hcover horder hrun⟩ hsol

/-- A whole graph is computed along one of its causal orders. -/
lemma computeValues_eq (model : Model α) (setting : Setting α) (seeds : Table α)
    (hg : graph.Acyclic) : ∃ order, graph.IsCausalOrder order ∧
      computeValues model graph setting seeds =
        (propagate Lifting.single model setting order
          (seeded (Lifting.single.const Scalar.zero) seeds order)).mapError .evaluation := by
  obtain ⟨order, hok⟩ := Graph.exists_order_of_acyclic hg
  exact ⟨order, Graph.isCausalOrder_of_order hok, by simp only [computeValues, hok, Lifting.single]⟩

/-- **Propagation solves the equations.** On an acyclic graph whose edges cover what the equations
read, all causal orders agree: they arrive at the only solution, or all of them fail because there
is none. Computing the whole graph gives that solution, or fails in evaluating an equation. -/
theorem propagation_solves (model : Model α) (graph : Graph) (hg : graph.Acyclic)
    (hcover : Covers graph model) :
    (∀ (β : Type) (lift : Lifting α β) (setting : Setting β) (seeds : Table β),
      SolvesOrFails lift model graph setting seeds) ∧
    ∀ (setting : Setting α) (seeds : Table α),
      (∃ values, computeValues model graph setting seeds = .ok values ∧
        IsSolution Lifting.single model graph setting seeds values) ∨
      ((∀ values, ¬ IsSolution Lifting.single model graph setting seeds values) ∧
        ∃ e, computeValues model graph setting seeds = .error (.evaluation e)) := by
  refine ⟨fun β lift setting seeds => solvesOrFails lift hg hcover setting seeds,
    fun setting seeds => ?_⟩
  obtain ⟨order, horder, hcompute⟩ := computeValues_eq model setting seeds hg
  rcases solvesOrFails Lifting.single hg hcover setting seeds with
    ⟨solution, -, -, hruns⟩ | ⟨hnone, hruns⟩
  · obtain ⟨values, hrun, -⟩ := hruns order horder
    exact Or.inl ⟨values, by rw [hcompute, hrun]; rfl, isSolution_of_propagate hcover horder hrun⟩
  · obtain ⟨e, hrun⟩ := hruns order horder
    exact Or.inr ⟨hnone, e, by rw [hcompute, hrun]; rfl⟩

/-- The model of `Y = X + error` and `Z = abs(Y)`, where `X` is only read. -/
def noisyChain : Model ℚ :=
  ⟨[("Z", Entry.ofExpr (.call (.identifier "abs") [.identifier "Y"]) "abs(Y)"),
    ("Y", Entry.ofExpr (.binary "+" (.identifier "X") (.identifier "error")) "X + error"),
    ("X", Entry.derived)], by decide⟩

/-- Its graph, in which the noise of `Y` is a node too. -/
def noisyChainGraph : Graph := Table.ofList [("Z", ["Y"]), ("Y", ["X", "noise:Y"]), ("X", [])]

/-- The noise of `X` is its value, the noise of `Y` is a node and a part of the value of `Y`, and `Z`
follows. Every causal order arrives there. -/
theorem propagation_solves_noisyChain :
    letI := unusedOperations
    let setting : Setting ℚ := { noise := Table.ofList [("noise:X", 3), ("noise:Y", -5)] }
    noisyChainGraph.Acyclic ∧ Covers noisyChainGraph noisyChain ∧
      ∃ values, computeValues noisyChain noisyChainGraph setting Table.empty = .ok values ∧
        IsSolution Lifting.single noisyChain noisyChainGraph setting Table.empty values ∧
        ["noise:Y", "X", "Y", "Z"].map values.get? = [some (-5), some 3, some (-2), some 2] ∧
        ∀ order, noisyChainGraph.IsCausalOrder order → ∃ values',
          propagate Lifting.single noisyChain setting order (seeded 0 Table.empty order) =
            .ok values' ∧ SameValues values' values := by
  let operations : Elementary ℚ := unusedOperations
  intro setting
  have hg : noisyChainGraph.Acyclic := by decide +kernel
  have hcover : Covers noisyChainGraph noisyChain := covers_of_entries (by decide +kernel)
  obtain ⟨horders, hcompute⟩ := propagation_solves noisyChain noisyChainGraph hg hcover
  have hrun : (computeValues noisyChain noisyChainGraph setting Table.empty).toOption.map
      (fun values => ["noise:Y", "X", "Y", "Z"].map values.get?) =
        some [some (-5), some 3, some (-2), some 2] := by
    decide +kernel
  rcases hcompute setting Table.empty with ⟨values, hvalues, hsolution⟩ | ⟨-, e, herror⟩
  · rw [hvalues] at hrun
    rcases horders ℚ Lifting.single setting Table.empty with
      ⟨solution, -, hunique, hsolved⟩ | ⟨hnone, -⟩
    · refine ⟨hg, hcover, values, hvalues, hsolution, Option.some.inj hrun, fun order horder => ?_⟩
      obtain ⟨values', hrun', hsame⟩ := hsolved order horder
      refine ⟨values', hrun', fun name => ?_⟩
      rw [hsame name, hunique values hsolution name]
    · exact absurd hsolution (hnone values)
  · rw [herror] at hrun
    cases hrun

end CausalEquations
