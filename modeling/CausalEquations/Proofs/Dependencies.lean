import CausalEquations.Number.Binary64
import CausalEquations.Proofs.Calls
import CausalEquations.Proofs.ModelGraphs
import CausalEquations.Proofs.Simulation

/-!
# What an evaluation reads, and what is declared

The dependencies of an expression leave out every reserved name. An evaluation takes constants and
the noise from elsewhere, but a function's name that stands where a variable may stand is looked up
among the values like any other. So the declared dependencies are everything that is read exactly if
no function's name is used in that way.

* `Lifting.recorded` — evaluation that only notes which names it takes from its scope.
* `Expr.reads_iff` — what is read: the dependencies, and the functions that are used as variables.
* `Expr.DependenciesSuffice` — no more than the noise and the dependencies decides the outcome.
* `dependencies_suffice_iff` — when they do, and what this means for causal orders.
-/

namespace CausalEquations

open CausalEquations.Expr (isFunction)

variable {α : Type}

/-! ## Names -/

/-- The name of a function is that of no constant, nor of the noise. -/
lemma not_constant_of_isFunction {name : Name} (h : isFunction name = true) :
    Constant.ofName? name = none ∧ name ≠ errorName := by
  constructor
  · rw [Constant.ofName?, List.find?_eq_none]
    rintro c - hc
    obtain rfl : c.name = name := by simpa using hc
    cases c with
    | pi => exact absurd h (by decide)
    | euler => exact absurd h (by decide)
  · rintro rfl
    exact absurd h (by decide)

namespace Expr

lemma mem_dependencies {e : Expr α} {name : Name} :
    name ∈ e.dependencies ↔ name ∈ e.identifiers ∧ isReserved name = false := by
  simp [dependencies, List.mem_eraseDups]

/-- **What is read** is a dependency or the name of a function. -/
theorem reads_iff {e : Expr α} {name : Name} :
    e.Reads name ↔ name ∈ e.dependencies ∨ (name ∈ e.identifiers ∧ isFunction name = true) := by
  rw [Reads, mem_dependencies]
  constructor
  · rintro ⟨hmem, hconstant, herror⟩
    cases hfunction : isFunction name with
    | true => exact .inr ⟨hmem, rfl⟩
    | false =>
        rw [isFunction] at hfunction
        exact .inl ⟨hmem, by simp [isReserved, hfunction, hconstant, herror]⟩
  · rintro (⟨hmem, hfree⟩ | ⟨hmem, hfunction⟩)
    · simp only [isReserved, Bool.or_eq_false_iff, Option.isSome_eq_false_iff,
        Option.isNone_iff_eq_none, beq_eq_false_iff_ne] at hfree
      exact ⟨hmem, hfree.1.2, hfree.2⟩
    · exact ⟨hmem, not_constant_of_isFunction hfunction⟩

end Expr

/-! ## Recorded evaluation -/

/-- Evaluation that only notes what it takes from its scope, from left to right. -/
def Lifting.recorded : Lifting α (List Name) where
  const _ := []
  map _ names := names
  map₂ _ xs ys := .ok (xs ++ ys)
  map₃ _ xs ys zs := .ok (xs ++ ys ++ zs)

/-- No operation on numbers or on what is noted fails. -/
lemma Lifting.simulates_recorded :
    Lifting.single.Simulates (fun (_ : α) (_ : List Name) => True) Lifting.recorded where
  const _ := trivial
  map _ _ _ _ := trivial
  map₂ _ _ _ _ _ _ _ := .ok trivial
  map₃ _ _ _ _ _ _ _ _ _ _ := .ok trivial

variable [Scalar α] [Elementary α]

/-- A recorded evaluation that succeeds has met every name. -/
lemma Expr.evaluate_recorded {s : Scope (List Name)} : (e : Expr α) → {names : List Name} →
    e.evaluate Lifting.recorded s = .ok names →
    names = e.identifiers.flatMap (s.resolve (α := α) Lifting.recorded)
  | .literal _ _, _, h => by
      cases h
      rfl
  | .identifier name, _, h => by
      cases h
      simp [Expr.identifiers]
  | .unary op argument, names, h => by
      simp only [Expr.evaluate] at h
      split at h
      · cases h
      · obtain ⟨x, hx, hnames⟩ := bind_eq_ok.mp h
        cases hnames
        exact evaluate_recorded argument hx
  | .binary op left right, names, h => by
      simp only [Expr.evaluate] at h
      split at h
      · cases h
      · obtain ⟨x, hx, h⟩ := bind_eq_ok.mp h
        obtain ⟨y, hy, h⟩ := bind_eq_ok.mp h
        cases mapError_eq_ok.mp h
        rw [Expr.identifiers, List.flatMap_append, ← evaluate_recorded left hx,
          ← evaluate_recorded right hy]
  | .choice test consequent alternate, names, h => by
      simp only [Expr.evaluate] at h
      obtain ⟨t, ht, h⟩ := bind_eq_ok.mp h
      obtain ⟨x, hx, h⟩ := bind_eq_ok.mp h
      obtain ⟨y, hy, h⟩ := bind_eq_ok.mp h
      cases mapError_eq_ok.mp h
      rw [Expr.identifiers, List.flatMap_append, List.flatMap_append, ← evaluate_recorded test ht,
        ← evaluate_recorded consequent hx, ← evaluate_recorded alternate hy]
  | .call callee [argument], names, h => by
      cases callee with
      | identifier name =>
          simp only [Expr.evaluate] at h
          split at h
          · cases h
          · obtain ⟨x, hx, hnames⟩ := bind_eq_ok.mp h
            cases hnames
            simp only [Expr.identifiers, Expr.identifiersOfList, List.append_nil]
            exact evaluate_recorded argument hx
      | _ => simp [Expr.evaluate] at h
  | .call callee [], _, h => by
      cases callee with
      | identifier name =>
          simp only [Expr.evaluate] at h
          split at h <;> cases h
      | _ => simp [Expr.evaluate] at h
  | .call callee (_ :: _ :: _), _, h => by
      cases callee with
      | identifier name =>
          simp only [Expr.evaluate] at h
          split at h <;> cases h
      | _ => simp [Expr.evaluate] at h

/-! ## Declared dependencies -/

namespace Expr

/-- Scopes that agree on the noise and on the dependencies give the same outcome, whatever the
values are. -/
def DependenciesSuffice (e : Expr α) : Prop :=
  ∀ (β : Type) (lift : Lifting α β) (s s' : Scope β), s.error = s'.error →
    (∀ name ∈ e.dependencies,
      s.values.getD name (lift.const Scalar.zero) = s'.values.getD name (lift.const Scalar.zero)) →
    e.evaluate lift s = e.evaluate lift s'

/-- In some scope of numbers the expression has a value. -/
def HasValue (e : Expr α) : Prop :=
  ∃ (s : Scope α) (x : α), e.evaluate Lifting.single s = .ok x

/-- What has a value can be recorded. -/
lemma HasValue.recorded {e : Expr α} (h : e.HasValue) (s : Scope (List Name)) :
    e.evaluate Lifting.recorded s =
      .ok (e.identifiers.flatMap (s.resolve (α := α) Lifting.recorded)) := by
  obtain ⟨s₀, x, hx⟩ := h
  have hsame : SameOutcome _ (e.evaluate Lifting.single s₀) (e.evaluate Lifting.recorded s) :=
    e.evaluate_simulates Lifting.simulates_recorded fun _ _ => trivial
  rw [hx] at hsame
  obtain ⟨names, hnames, -⟩ := hsame.of_ok
  rw [hnames, evaluate_recorded e hnames]

/-- The scope that gives a name the list of it, and nothing to other names. -/
def noting (name : Name) : Scope (List Name) := ⟨Table.empty.insert name [name], []⟩

/-- A function that is used as a variable is read, though it is no dependency. -/
lemma HasValue.not_dependenciesSuffice {e : Expr α} (h : e.HasValue) {name : Name}
    (hmem : name ∈ e.identifiers) (hfunction : isFunction name = true) :
    ¬ e.DependenciesSuffice := by
  intro hsuffice
  obtain ⟨hconstant, herror⟩ := not_constant_of_isFunction hfunction
  have hagree : ∀ n ∈ e.dependencies,
      (noting name).values.getD n [] =
        (⟨Table.empty, []⟩ : Scope (List Name)).values.getD n [] := by
    intro n hn
    have hne : name ≠ n := by
      rintro rfl
      have hreserved := (mem_dependencies.mp hn).2
      rw [isFunction] at hfunction
      simp [isReserved, hfunction] at hreserved
    simp [noting, Table.getD, Table.get?_insert, hne]
  have hsame := hsuffice _ Lifting.recorded (noting name) ⟨Table.empty, []⟩ rfl hagree
  rw [h.recorded, h.recorded] at hsame
  have hnoted : name ∈ e.identifiers.flatMap
      ((noting name).resolve (α := α) Lifting.recorded) := by
    refine List.mem_flatMap.mpr ⟨name, hmem, ?_⟩
    simp [Scope.resolve, hconstant, herror, noting, Table.getD, Table.get?_insert]
  rw [Except.ok.inj hsame] at hnoted
  obtain ⟨n, -, hn⟩ := List.mem_flatMap.mp hnoted
  simp only [Scope.resolve, Lifting.recorded, Table.getD, Table.get?_empty, Option.getD_none,
    ite_self] at hn
  split at hn <;> simp at hn

end Expr

/-! ## When dependencies suffice -/

/-- **When the declared dependencies are everything that an evaluation reads.** The outcome is
always decided by the noise, the dependencies and the functions that are used as variables. The
dependencies alone decide it, for an expression that has a value at all, exactly if no function is
used as a variable. In a graph of a model the same names are missing among the parents, and a causal
order puts everything else that an equation reads before its variable. -/
theorem dependencies_suffice_iff :
    (∀ (e : Expr α) (β : Type) (lift : Lifting α β) (s s' : Scope β), s.error = s'.error →
      (∀ name, name ∈ e.dependencies ∨ (name ∈ e.identifiers ∧ isFunction name = true) →
        s.values.getD name (lift.const Scalar.zero) =
          s'.values.getD name (lift.const Scalar.zero)) →
      e.evaluate lift s = e.evaluate lift s') ∧
    (∀ e : Expr α, (∀ name ∈ e.identifiers, isFunction name = false) → e.DependenciesSuffice) ∧
    (∀ e : Expr α, e.HasValue →
      (e.DependenciesSuffice ↔ ∀ name ∈ e.identifiers, isFunction name = false)) ∧
    ∀ (text : String) (model : Model α), Model.ofText text = .ok model →
      ∀ (v : Name) (e : Expr α), model.equation? v = some e → ∀ name, e.Reads name →
        ((Graph.ofModel model).Edge name v ↔ isFunction name = false) ∧
        (isFunction name = false → ∀ order, (Graph.ofModel model).order = .ok order →
          ∀ before after, order = before ++ v :: after → name ∈ before) := by
  have hagree : ∀ (e : Expr α) (β : Type) (lift : Lifting α β) (s s' : Scope β),
      s.error = s'.error →
      (∀ name, name ∈ e.dependencies ∨ (name ∈ e.identifiers ∧ isFunction name = true) →
        s.values.getD name (lift.const Scalar.zero) =
          s'.values.getD name (lift.const Scalar.zero)) →
      e.evaluate lift s = e.evaluate lift s' :=
    fun e β lift s s' herror h =>
      e.evaluate_congr lift herror fun name hread => h name (Expr.reads_iff.mp hread)
  have hsuffice : ∀ e : Expr α, (∀ name ∈ e.identifiers, isFunction name = false) →
      e.DependenciesSuffice := by
    intro e hnone β lift s s' herror h
    refine hagree e β lift s s' herror fun name hname => hname.elim (h name) ?_
    rintro ⟨hmem, hfunction⟩
    rw [hnone name hmem] at hfunction
    cases hfunction
  refine ⟨hagree, hsuffice, fun e hvalue => ⟨fun h name hmem => ?_, hsuffice e⟩, ?_⟩
  · by_contra hfunction
    exact hvalue.not_dependenciesSuffice hmem (Bool.eq_true_of_not_eq_false hfunction) h
  · intro text model hmodel v e he name hread
    have hedge : (Graph.ofModel model).Edge name v ↔ isFunction name = false := by
      rw [edge_ofModel_iff hmodel he, Expr.mem_dependencies]
      constructor
      · rintro ⟨-, hfree⟩
        simp only [isReserved, Bool.or_eq_false_iff] at hfree
        exact hfree.1.1
      · intro hfunction
        refine (Expr.mem_dependencies.mp ((Expr.reads_iff.mp hread).resolve_right ?_))
        rintro ⟨-, hfunction'⟩
        rw [hfunction] at hfunction'
        cases hfunction'
    refine ⟨hedge, fun hfunction order horder before after hsplit => ?_⟩
    exact (Graph.isCausalOrder_of_order horder).parents_before before v after hsplit name
      (hedge.mpr hfunction)

/-- A function that is called is not used as a variable. -/
theorem dependencies_suffice_absolute :
    ∃ (model : Model Float) (e : Expr Float), Model.ofText "Y = X + abs(X)" = .ok model ∧
      model.equation? "Y" = some e ∧ e.HasValue ∧ e.DependenciesSuffice ∧
      ∀ order, (Graph.ofModel model).order = .ok order →
        ∀ before after, order = before ++ "Y" :: after → "X" ∈ before := by
  obtain ⟨model, hmodel⟩ : Accepted Float "Y = X + abs(X)" := by decide +kernel
  have hequation : (Model.ofText "Y = X + abs(X)" : Except ParseError (Model Float)).toOption.map
      (fun m => (m.equation? "Y").map fun e =>
        (e.identifiers, (e.evaluate Lifting.single ⟨Table.empty, 0⟩).toOption.isSome)) =
        some (some (["X", "X"], true)) := by
    decide +kernel
  simp only [hmodel, Except.toOption, Option.map_some, Option.some.injEq, Option.map_eq_some_iff,
    Prod.mk.injEq] at hequation
  obtain ⟨e, he, hidentifiers, hok⟩ := hequation
  have hvalue : e.HasValue := by
    cases hx : e.evaluate Lifting.single ⟨Table.empty, 0⟩ with
    | ok x => exact ⟨_, x, hx⟩
    | error cause => simp [hx] at hok
  have hfree : ∀ name ∈ e.identifiers, isFunction name = false := by
    rw [hidentifiers]
    decide
  have hreads : e.Reads "X" := ⟨by rw [hidentifiers]; decide, by decide, by decide⟩
  obtain ⟨-, -, hsuffice, horder⟩ := dependencies_suffice_iff (α := Float)
  exact ⟨model, e, hmodel, he, hvalue, (hsuffice e hvalue).mpr hfree,
    (horder _ model hmodel "Y" e he "X" hreads).2 (by decide)⟩

/-- `sin` without arguments is looked up like a variable, but it is no dependency: `Y` is computed
before the variable that it reads. -/
theorem sin_read_undeclared :
    (∃ s s' : Scope Float, s.error = s'.error ∧
      (∀ name ∈ (Expr.identifier "sin" : Expr Float).dependencies,
        s.values.getD name 0 = s'.values.getD name 0) ∧
      (Expr.identifier "sin").evaluate Lifting.single s ≠
        (Expr.identifier "sin").evaluate Lifting.single s') ∧
    (Model.ofText "Y = sin\nsin = 3" : Except ParseError (Model Float)).toOption.map
      (fun m => ((Graph.ofModel m).order.toOption,
        (computeValues m (Graph.ofModel m) {} Table.empty).toOption.map
          fun t => (t.get? "Y", t.get? "sin"))) =
      some (some ["Y", "sin"], some (some 0, some 3)) := by
  refine ⟨⟨⟨Table.empty.insert "sin" 1, 0⟩, ⟨Table.empty, 0⟩, rfl, by decide, ?_⟩,
    by decide +kernel⟩
  intro hsame
  have hvalues : (1 : Float) = 0 := Except.ok.inj hsame
  revert hvalues
  decide

end CausalEquations
