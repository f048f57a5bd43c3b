import Mathlib.Data.List.Forall2

/-!
# Successful computations

A computation made of steps succeeds exactly if each of its steps does.

* `bind_eq_ok`, `mapError_eq_ok`, `mapM_eq_ok` — a success taken apart.
* `bind_eq_error`, `map_eq_error`, `mapError_eq_error` — a failure traced to its step.
* `ok_bind`, `error_bind` — a step whose outcome is known.
-/

namespace CausalEquations

variable {ε ε' : Type} {β γ : Type}

@[simp] theorem ok_bind (x : β) (f : β → Except ε γ) : (Except.ok x >>= f) = f x := rfl

@[simp] theorem error_bind (e : ε) (f : β → Except ε γ) :
    ((Except.error e : Except ε β) >>= f) = .error e := rfl

theorem bind_eq_ok {x : Except ε β} {f : β → Except ε γ} {y : γ} :
    (x >>= f) = .ok y ↔ ∃ b, x = .ok b ∧ f b = .ok y := by
  cases x <;> simp

theorem bind_eq_error {x : Except ε β} {f : β → Except ε γ} {e : ε} :
    (x >>= f) = .error e ↔ x = .error e ∨ ∃ b, x = .ok b ∧ f b = .error e := by
  cases x <;> simp

theorem map_eq_error {x : Except ε β} {f : β → γ} {e : ε} : x.map f = .error e ↔ x = .error e := by
  cases x <;> simp [Except.map]

/-- A view of the result that could be computed is a view of a result. -/
theorem exists_of_toOption_map {x : Except ε β} {f : β → γ} {y : γ}
    (h : x.toOption.map f = some y) : ∃ b, x = .ok b ∧ f b = y := by
  cases x with
  | error e => cases h
  | ok b => exact ⟨b, rfl, Option.some.inj h⟩

theorem mapError_eq_ok {x : Except ε β} {f : ε → ε'} {y : β} :
    x.mapError f = .ok y ↔ x = .ok y := by
  cases x <;> simp [Except.mapError]

theorem mapError_eq_error {x : Except ε β} {f : ε → ε'} {e : ε'} :
    x.mapError f = .error e ↔ ∃ cause, x = .error cause ∧ f cause = e := by
  cases x <;> simp [Except.mapError]

theorem mapM_eq_ok {f : β → Except ε γ} {xs : List β} {ys : List γ} :
    xs.mapM f = .ok ys ↔ List.Forall₂ (fun x y => f x = .ok y) xs ys := by
  induction xs generalizing ys with
  | nil =>
      show Except.ok [] = Except.ok ys ↔ _
      simp [eq_comm]
  | cons x xs ih =>
      simp only [List.mapM_cons, bind_eq_ok, ih, List.forall₂_cons_left_iff]
      constructor
      · rintro ⟨y, hy, ys, hys, h⟩
        cases h
        exact ⟨y, ys, hy, hys, rfl⟩
      · rintro ⟨y, ys, hy, hys, rfl⟩
        exact ⟨y, hy, ys, hys, rfl⟩

/-- Every result is the result of a step. -/
theorem exists_of_mem_mapM {f : β → Except ε γ} {xs : List β} {ys : List γ}
    (h : xs.mapM f = .ok ys) : ∀ y ∈ ys, ∃ x ∈ xs, f x = .ok y := by
  rw [mapM_eq_ok] at h
  induction h with
  | nil => simp
  | cons hy _ ih =>
      simp only [List.forall_mem_cons, List.exists_mem_cons_iff]
      exact ⟨.inl hy, fun y hmem => .inr (ih y hmem)⟩

@[simp] theorem pure_eq_ok (x : β) : (pure x : Except ε β) = .ok x := rfl

end CausalEquations
