/-!
# Values

An equation is evaluated on single numbers, or on batches: lists of numbers that are computed in one
pass. Operations on batches work position by position; a single number, or a batch of length one,
goes with a batch of any length.

* `Value` — a single number or a batch.
* `Value.zipWith` — an operation of two operands, unless their lengths differ.
* `Lifting` — how operations on numbers act on the values of an evaluation.
* `Lifting.single`, `Lifting.batched` — on numbers themselves, and on values.
-/

namespace CausalEquations

/-- A single number or a batch of numbers. -/
inductive Value (α : Type) where
  | single (x : α)
  | batch (xs : List α)
  deriving DecidableEq, Repr

/-- Two batches of different lengths met in one operation. -/
structure SizeMismatch where
  left : Nat
  right : Nat
  deriving DecidableEq, Repr

namespace Value

variable {α β γ : Type}

/-- Applies a function to every number. -/
def map (f : α → β) : Value α → Value β
  | single x => single (f x)
  | batch xs => batch (xs.map f)

/-- Applies an operation position by position. -/
def zipWith (f : α → β → γ) : Value α → Value β → Except SizeMismatch (Value γ)
  | single x, single y => .ok (single (f x y))
  | single x, batch ys => .ok (batch (ys.map (f x)))
  | batch xs, single y => .ok (batch (xs.map fun x => f x y))
  | batch xs, batch ys =>
    if xs.length = ys.length then .ok (batch (List.zipWith f xs ys))
    else match xs, ys with
      | [x], ys => .ok (batch (ys.map (f x)))
      | xs, [y] => .ok (batch (xs.map fun x => f x y))
      | xs, ys => .error ⟨xs.length, ys.length⟩

/-- The numbers of a value spread over `n` positions. -/
def spread (n : Nat) : Value α → List α
  | single x => List.replicate n x
  | batch xs => xs

end Value

/-- How numbers and operations on numbers act on the values `β` of an evaluation. -/
structure Lifting (α β : Type) where
  const : α → β
  map : (α → α) → β → β
  map₂ : (α → α → α) → β → β → Except SizeMismatch β
  map₃ : (α → α → α → α) → β → β → β → Except SizeMismatch β

namespace Lifting

variable {α : Type}

/-- Evaluation on numbers. -/
def single : Lifting α α where
  const x := x
  map f x := f x
  map₂ f x y := .ok (f x y)
  map₃ f x y z := .ok (f x y z)

/-- Evaluation on single numbers and batches. Of three operands the first two meet first. -/
def batched : Lifting α (Value α) where
  const := Value.single
  map := Value.map
  map₂ := Value.zipWith
  map₃ f x y z := do
    let pairs ← Value.zipWith Prod.mk x y
    Value.zipWith (fun p c => f p.1 p.2 c) pairs z

end Lifting

end CausalEquations
