import CausalEquations.Expr.Evaluation
import Mathlib.Tactic.Lemma

/-!
# Evaluations side by side

An evaluation touches its values through the operations of its lifting only. If the operations of
two liftings preserve a relation between their values, then so does the evaluation of every
expression: two scopes that resolve its names to related values give related outcomes.

* `SameOutcome` — related values, or the same failure.
* `Lifting.Simulates` — the operations of two liftings preserve a relation.
* `Expr.evaluate_simulates` — and so does evaluation.
-/

namespace CausalEquations

variable {α β γ ε : Type}

/-! ## Outcomes -/

/-- Both computations end in related values, or both in the same failure. -/
inductive SameOutcome (R : β → γ → Prop) : Except ε β → Except ε γ → Prop where
  | ok {x : β} {y : γ} : R x y → SameOutcome R (.ok x) (.ok y)
  | error (e : ε) : SameOutcome R (.error e) (.error e)

namespace SameOutcome

variable {R : β → γ → Prop}

/-- Steps that preserve the relation can follow. -/
lemma bind {β' γ' : Type} {S : β' → γ' → Prop} {x : Except ε β} {y : Except ε γ}
    {f : β → Except ε β'} {g : γ → Except ε γ'} (h : SameOutcome R x y)
    (hstep : ∀ a b, R a b → SameOutcome S (f a) (g b)) : SameOutcome S (x >>= f) (y >>= g) := by
  cases h with
  | ok hab => exact hstep _ _ hab
  | error e => exact .error e

lemma mapError {ε' : Type} {x : Except ε β} {y : Except ε γ} (f : ε → ε') (h : SameOutcome R x y) :
    SameOutcome R (x.mapError f) (y.mapError f) := by
  cases h with
  | ok hab => exact .ok hab
  | error e => exact .error (f e)

/-- What a success on the left says of the right. -/
lemma of_ok {x : β} {y : Except ε γ} (h : SameOutcome R (.ok x) y) : ∃ b, y = .ok b ∧ R x b := by
  cases h with
  | ok hab => exact ⟨_, rfl, hab⟩

/-- Related by equality means equal. -/
lemma eq {x y : Except ε β} (h : SameOutcome Eq x y) : x = y := by
  cases h with
  | ok hab => rw [hab]
  | error e => rfl

/-- Related by a function means that one outcome is the image of the other. -/
lemma eq_map {x : Except ε β} {y : Except ε γ} {f : β → γ} (h : SameOutcome R x y)
    (hf : ∀ a b, R a b → b = f a) : y = x.map f := by
  cases h with
  | ok hab => exact congrArg Except.ok (hf _ _ hab)
  | error e => rfl

end SameOutcome

/-! ## Liftings -/

/-- Every operation of the one lifting preserves the relation to that of the other. -/
structure Lifting.Simulates (R : β → γ → Prop) (lift : Lifting α β) (lift' : Lifting α γ) :
    Prop where
  const : ∀ x, R (lift.const x) (lift'.const x)
  map : ∀ f {x y}, R x y → R (lift.map f x) (lift'.map f y)
  map₂ : ∀ f {x y x' y'}, R x y → R x' y' → SameOutcome R (lift.map₂ f x x') (lift'.map₂ f y y')
  map₃ : ∀ f {x y x' y' x'' y''}, R x y → R x' y' → R x'' y'' →
    SameOutcome R (lift.map₃ f x x' x'') (lift'.map₃ f y y' y'')

/-- Equality is preserved by any operation. -/
lemma Lifting.simulates_eq (lift : Lifting α β) : lift.Simulates Eq lift where
  const _ := rfl
  map f _ _ h := by rw [h]
  map₂ f x y x' y' h h' := by
    subst h h'
    cases lift.map₂ f x x' with
    | ok z => exact .ok rfl
    | error e => exact .error e
  map₃ f x y x' y' x'' y'' h h' h'' := by
    subst h h' h''
    cases lift.map₃ f x x' x'' with
    | ok z => exact .ok rfl
    | error e => exact .error e

variable [Scalar α] [Elementary α]

/-- **Evaluation preserves what the operations preserve.** The induction is on the tree; an operator
or a callee that is refused is refused on both sides. -/
theorem Expr.evaluate_simulates {R : β → γ → Prop} {lift : Lifting α β} {lift' : Lifting α γ}
    (hsim : lift.Simulates R lift') {s : Scope β} {s' : Scope γ} : (e : Expr α) →
    (∀ name ∈ e.identifiers, R (s.resolve lift name) (s'.resolve lift' name)) →
    SameOutcome R (e.evaluate lift s) (e.evaluate lift' s')
  | .literal value _, _ => by
      simp only [Expr.evaluate]
      exact .ok (hsim.const value)
  | .identifier name, h => by
      simp only [Expr.evaluate]
      exact .ok (h name (by simp [Expr.identifiers]))
  | .unary op argument, h => by
      simp only [Expr.evaluate]
      split
      · exact .error _
      · exact (argument.evaluate_simulates hsim h).bind fun _ _ hx => .ok (hsim.map _ hx)
  | .binary op left right, h => by
      simp only [Expr.identifiers, List.mem_append] at h
      simp only [Expr.evaluate]
      split
      · exact .error _
      · refine (left.evaluate_simulates hsim fun name hn => h name (.inl hn)).bind fun _ _ hx => ?_
        refine (right.evaluate_simulates hsim fun name hn => h name (.inr hn)).bind fun _ _ hy => ?_
        exact (hsim.map₂ _ hx hy).mapError _
  | .choice test consequent alternate, h => by
      simp only [Expr.identifiers, List.mem_append] at h
      simp only [Expr.evaluate]
      refine (test.evaluate_simulates hsim fun name hn => h name (.inl (.inl hn))).bind
        fun _ _ ht => ?_
      refine (consequent.evaluate_simulates hsim fun name hn => h name (.inl (.inr hn))).bind
        fun _ _ hx => ?_
      refine (alternate.evaluate_simulates hsim fun name hn => h name (.inr hn)).bind
        fun _ _ hy => ?_
      exact (hsim.map₃ _ ht hx hy).mapError _
  -- The arguments are evaluated only if there is one.
  | .call callee [argument], h => by
      simp only [Expr.identifiers, Expr.identifiersOfList, List.append_nil] at h
      cases callee with
      | identifier name =>
          simp only [Expr.evaluate]
          split
          · exact .error _
          · exact (argument.evaluate_simulates hsim h).bind fun _ _ hx => .ok (hsim.map _ hx)
      | _ =>
          simp only [Expr.evaluate]
          exact .error _
  | .call callee [], _ => by
      cases callee with
      | identifier name =>
          simp only [Expr.evaluate]
          split <;> exact .error _
      | _ =>
          simp only [Expr.evaluate]
          exact .error _
  | .call callee (_ :: _ :: _), _ => by
      cases callee with
      | identifier name =>
          simp only [Expr.evaluate]
          split <;> exact .error _
      | _ =>
          simp only [Expr.evaluate]
          exact .error _

end CausalEquations
