import CausalEquations.Number.Scalar
import Mathlib.Algebra.BigOperators.Group.List.Basic
import Mathlib.Algebra.Order.Ring.Unbundled.Rat
import Mathlib.Data.Rat.Cast.Order

/-!
# Computing with rational numbers

Over the rationals the operations of `Scalar` are those of the ordered field, so that what is
computed with them can be said in the usual words.

* `Scalar.ofDecimal_rat`, `Scalar.ofNat_rat`, `Scalar.zero_rat`, `Scalar.one_rat`,
  `Scalar.epsilon_rat` — the numerals.
* `Scalar.abs_rat`, `Scalar.lt_rat`, `Scalar.le_rat`, `Scalar.beq_rat` — sizes and comparisons.
* `Scalar.sum_rat`, `Scalar.dot_rat`, `Scalar.dot_map_rat` — sums and sums of products.
* `unusedOperations` — for equations that need no more than the field operations.
-/

namespace CausalEquations

namespace Scalar

/-! ## Numerals -/

/-- A decimal numeral is the fraction that it writes. -/
lemma ofDecimal_rat (mantissa k : ℕ) :
    (Scalar.ofDecimal mantissa (-Int.ofNat k) : ℚ) = mantissa / 10 ^ k := by
  show decimalRat mantissa (-Int.ofNat k) = _
  cases k with
  | zero =>
      have h : decimalRat mantissa 0 = mkRat (Int.ofNat (mantissa * Nat.pow 10 0)) 1 := rfl
      simpa [Rat.mkRat_eq_div] using h
  | succ k =>
      have h : decimalRat mantissa (Int.negSucc k) = mkRat mantissa (10 ^ (k + 1)) := rfl
      rw [Rat.mkRat_eq_div] at h
      push_cast at h
      exact h

@[simp] lemma ofNat_rat (n : ℕ) : (Scalar.ofNat n : ℚ) = n := by
  have h := ofDecimal_rat n 0
  rwa [pow_zero, div_one] at h

@[simp] lemma zero_rat : (Scalar.zero : ℚ) = 0 := (ofNat_rat 0).trans Nat.cast_zero

@[simp] lemma one_rat : (Scalar.one : ℚ) = 1 := (ofNat_rat 1).trans Nat.cast_one

@[simp] lemma epsilon_rat : (Scalar.epsilon : ℚ) = 1 / 10 ^ 10 := by
  have h := ofDecimal_rat 1 10
  rwa [Nat.cast_one] at h

/-! ## Sizes and comparisons -/

@[simp] lemma lt_rat (p q : ℚ) : Scalar.lt p q = decide (p < q) := by
  rw [Bool.eq_iff_iff, decide_eq_true_iff]
  exact Iff.rfl

@[simp] lemma abs_rat (q : ℚ) : Scalar.abs q = |q| := by
  have habs : Scalar.abs q = if Scalar.lt q 0 then -q else q := rfl
  rw [habs, lt_rat]
  rcases lt_or_ge q 0 with h | h
  · rw [decide_eq_true h, if_pos rfl, abs_of_neg h]
  · rw [decide_eq_false h.not_gt, if_neg Bool.false_ne_true, abs_of_nonneg h]

@[simp] lemma le_rat (p q : ℚ) : Scalar.le p q = decide (p ≤ q) := by
  have hle : Scalar.le p q = !Scalar.lt q p := rfl
  rw [hle, lt_rat, ← decide_not, decide_eq_decide, not_lt]

/-- Two fractions in lowest terms are equal if their numerators and denominators are. -/
@[simp] lemma beq_rat (p q : ℚ) : Scalar.toBEq.beq p q = decide (p = q) := by
  have hparts : Scalar.toBEq.beq p q = (p.num == q.num && p.den == q.den) := rfl
  rw [hparts, Bool.eq_iff_iff, Bool.and_eq_true, beq_iff_eq, beq_iff_eq, decide_eq_true_iff]
  exact ⟨fun h => Rat.ext h.1 h.2, fun h => h ▸ ⟨rfl, rfl⟩⟩

@[simp] lemma isUndefined_rat (q : ℚ) : Scalar.isUndefined q = false := by
  rw [Scalar.isUndefined, beq_rat, decide_eq_true rfl, Bool.not_true]

@[simp] lemma isFinite_rat (q : ℚ) : Scalar.isFinite q = true := rfl

/-! ## Sums -/

@[simp] lemma sum_rat (xs : List ℚ) : Scalar.sum xs = xs.sum := by
  rw [Scalar.sum, zero_rat, List.sum_eq_foldl]

@[simp] lemma dot_rat (xs ys : List ℚ) :
    Scalar.dot xs ys = (List.zipWith (· * ·) xs ys).sum := sum_rat _

/-- The products of two quantities of the same things. -/
lemma dot_map_rat {β : Type} (l : List β) (f g : β → ℚ) :
    Scalar.dot (l.map f) (l.map g) = (l.map fun b => f b * g b).sum := by
  rw [dot_rat, List.zipWith_map, List.zipWith_self]

end Scalar

/-- Operations for expressions that use none of them. -/
@[reducible] def unusedOperations : Elementary ℚ where
  pow x _ := x
  rem x _ := x
  sin := id
  cos := id
  log := id
  exp := id

end CausalEquations
