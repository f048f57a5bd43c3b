import CausalEquations.Proofs.AffineRoundTrip

/-!
# Exact numbers

In exact arithmetic a finite number is a rational, and no operation on such numbers rounds. This is
all that is supposed of the numbers here: there may also be infinite or undefined ones, as there are
in floating point, and what operations make of those is left open.

* `Denotes` — the number is finite, and it is this rational.
* `ExactScalar` — numbers with exact arithmetic; the rationals are an example.
* `PartialRat` — another one: the rationals with an undefined number, which is what a division by
  zero gives.
* `Denotes.negligible_iff` — which exact numbers leave no trace in an affine form.
-/

namespace CausalEquations

variable {α : Type} [Scalar α]

/-! ## Exact arithmetic -/

/-- The number is finite, and its exact value is `q`. -/
structure Denotes (x : α) (q : ℚ) : Prop where
  finite : Scalar.isFinite x = true
  value : Scalar.toRat x = q

/-- Numbers whose arithmetic is exact as far as they are finite. -/
class ExactScalar (α : Type) [Scalar α] : Prop where
  ofDecimal (mantissa : ℕ) (exponent : ℤ) :
    Denotes (Scalar.ofDecimal mantissa exponent : α) (decimalRat mantissa exponent)
  add {x y : α} {p q : ℚ} : Denotes x p → Denotes y q → Denotes (x + y) (p + q)
  sub {x y : α} {p q : ℚ} : Denotes x p → Denotes y q → Denotes (x - y) (p - q)
  mul {x y : α} {p q : ℚ} : Denotes x p → Denotes y q → Denotes (x * y) (p * q)
  div {x y : α} {p q : ℚ} : Denotes x p → Denotes y q → q ≠ 0 → Denotes (x / y) (p / q)
  neg {x : α} {q : ℚ} : Denotes x q → Denotes (-x) (-q)

lemma denotes_rat (q : ℚ) : Denotes q q := ⟨rfl, rfl⟩

/-- The rationals are exact. -/
instance : ExactScalar ℚ where
  ofDecimal _ _ := ⟨rfl, rfl⟩
  add := by rintro _ _ _ _ ⟨-, rfl⟩ ⟨-, rfl⟩; exact denotes_rat _
  sub := by rintro _ _ _ _ ⟨-, rfl⟩ ⟨-, rfl⟩; exact denotes_rat _
  mul := by rintro _ _ _ _ ⟨-, rfl⟩ ⟨-, rfl⟩; exact denotes_rat _
  div := by rintro _ _ _ _ ⟨-, rfl⟩ ⟨-, rfl⟩ _; exact denotes_rat _
  neg := by rintro _ _ ⟨-, rfl⟩; exact denotes_rat _

/-! ## Rationals with an undefined number -/

/-- The rationals, and an undefined number. -/
inductive PartialRat where
  | rational (q : ℚ)
  | undefined
  deriving DecidableEq

namespace PartialRat

/-- An operation that is undefined where an operand is. -/
def lift (f : ℚ → ℚ → PartialRat) : PartialRat → PartialRat → PartialRat
  | rational p, rational q => f p q
  | _, _ => undefined

/-- A comparison that does not hold of undefined numbers. -/
def compare (f : ℚ → ℚ → Bool) : PartialRat → PartialRat → Bool
  | rational p, rational q => f p q
  | _, _ => false

/-- Division, undefined where the divisor is zero. -/
def quotient (p q : ℚ) : PartialRat := if q = 0 then undefined else rational (p / q)

/-- An undefined number is not finite, and differs from itself. -/
instance : Scalar PartialRat where
  add := lift fun p q => rational (p + q)
  sub := lift fun p q => rational (p - q)
  mul := lift fun p q => rational (p * q)
  div := lift quotient
  neg := lift (fun p q => rational (p - q)) (rational 0)
  beq := compare fun p q => p == q
  ofDecimal mantissa exponent := rational (decimalRat mantissa exponent)
  abs
    | rational q => rational (Scalar.abs q)
    | undefined => undefined
  isFinite
    | rational _ => true
    | undefined => false
  toRat
    | rational q => q
    | undefined => 0
  lt := compare Rat.blt
  le := compare fun p q => !Rat.blt q p

/-- The finite numbers are the rationals. -/
lemma denotes_iff {x : PartialRat} {q : ℚ} : Denotes x q ↔ x = rational q := by
  constructor
  · rintro ⟨hfinite, rfl⟩
    cases x with
    | rational p => rfl
    | undefined => cases hfinite
  · rintro rfl
    exact ⟨rfl, rfl⟩

/-- An operation on finite numbers gives what it gives on the rationals. -/
lemma denotes_lift {f : ℚ → ℚ → PartialRat} {x y : PartialRat} {p q r : ℚ} (hx : Denotes x p)
    (hy : Denotes y q) (hvalue : f p q = rational r) : Denotes (lift f x y) r := by
  rw [denotes_iff] at hx hy ⊢
  rw [hx, hy]
  exact hvalue

instance : ExactScalar PartialRat where
  ofDecimal _ _ := denotes_iff.mpr rfl
  add hx hy := denotes_lift hx hy rfl
  sub hx hy := denotes_lift hx hy rfl
  mul hx hy := denotes_lift hx hy rfl
  div hx hy hq := denotes_lift hx hy (if_neg hq)
  neg hx := denotes_lift (denotes_iff.mpr rfl) hx (congrArg rational (zero_sub _))

end PartialRat

/-! ## Named numbers -/

namespace Denotes

variable {x : α} {q : ℚ}

/-- Whether an exact number is negligible depends on its value alone. -/
lemma negligible_iff [ExactScalar α] (h : Denotes x q) :
    negligible x = true ↔ |q| < 1 / 10 ^ 10 := by
  have hepsilon : Denotes (Scalar.epsilon : α) (Scalar.epsilon : ℚ) := ExactScalar.ofDecimal _ _
  have hsame : negligible x = negligible q := by
    rw [negligible, negligible, h.finite, h.value, hepsilon.value]
    rfl
  rw [hsame, CausalEquations.negligible_iff]

lemma finiteOrZero (h : Denotes x q) : Denotes (Affine.finiteOrZero x) q := by
  rwa [Affine.finiteOrZero, if_pos h.finite]

variable [ExactScalar α]

lemma ofNat (n : ℕ) : Denotes (Scalar.ofNat n : α) n := by
  have hvalue : decimalRat n 0 = n := Scalar.ofNat_rat n
  exact hvalue ▸ ExactScalar.ofDecimal n 0

lemma one : Denotes (Scalar.one : α) 1 := by
  have h := ofNat (α := α) 1
  rwa [Nat.cast_one] at h

/-- The named constants are fractions. -/
lemma constant (c : Constant) : ∃ q, Denotes (c.value : α) q := by
  cases c with
  | pi => exact ⟨_, ExactScalar.div (ofNat _) (ofNat _) (by norm_num)⟩
  | euler => exact ⟨_, ExactScalar.div (ofNat _) (ofNat _) (by norm_num)⟩

end Denotes

end CausalEquations
