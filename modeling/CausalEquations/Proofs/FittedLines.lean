import CausalEquations.Proofs.RationalNumbers
import CausalEquations.Statistics.LeastSquares
import Mathlib.Algebra.BigOperators.Ring.List
import Mathlib.Algebra.Order.BigOperators.Group.List
import Mathlib.Order.Bounds.Basic
import Mathlib.Tactic.FieldSimp
import Mathlib.Tactic.Linarith
import Mathlib.Tactic.Ring

/-!
# Lines of least squares

Over the rationals the fitted line is the only one with the least squared error. What it leaves of
the heights is balanced: it adds up to zero, and so does its product with the `x`. Any other line
errs by its squared differences from a balanced one more, and these vanish for two different lines
only if the `x` do not vary.

* `squaredDeviations` — how much numbers vary.
* `Line.squaredError` — how far points are from a line.
* `Line.Balanced`, `Line.squaredError_eq_add` — what another line errs more than a balanced one.
* `Line.fit?_rat`, `Line.balanced_fit` — the fitted line, which is balanced.
* `Line.fit?_leastSquares` — when a line is fitted, that it is the best one, and its segment.
-/

namespace CausalEquations

/-! ## Deviations -/

/-- The sum of the squared distances of numbers from their mean. -/
def squaredDeviations (xs : List ℚ) : ℚ := (xs.map fun x => (x - xs.sum / xs.length) ^ 2).sum

lemma mean_rat (xs : List ℚ) : mean xs = xs.sum / xs.length := by
  rw [mean, Scalar.sum_rat, Scalar.ofNat_rat]

/-- The deviations from the mean add up to zero. -/
lemma sum_map_sub_mean {β : Type} {l : List β} (hl : l ≠ []) (f : β → ℚ) :
    (l.map fun b => f b - mean (l.map f)).sum = 0 := by
  have hlength : (l.length : ℚ) ≠ 0 := by simpa using hl
  have hmean : l.length * mean (l.map f) = (l.map f).sum := by
    rw [mean_rat, List.length_map, mul_div_cancel₀ _ hlength]
  simp only [sub_eq_add_neg, List.sum_map_add, List.map_const', List.sum_replicate, nsmul_eq_mul]
  rw [mul_neg, hmean, add_neg_cancel]

lemma squaredDeviations_map {β : Type} (l : List β) (f : β → ℚ) :
    squaredDeviations (l.map f) =
      (l.map fun b => (f b - mean (l.map f)) * (f b - mean (l.map f))).sum := by
  simp only [squaredDeviations, ← mean_rat, sq, List.map_map, Function.comp_def]

lemma dot_deviations {β : Type} (l : List β) (f g : β → ℚ) :
    Scalar.dot (deviations (l.map f)) (deviations (l.map g)) =
      (l.map fun b => (f b - mean (l.map f)) * (g b - mean (l.map g))).sum := by
  rw [deviations, deviations, List.map_map, List.map_map, Scalar.dot_map_rat]
  rfl

lemma squaredDeviations_nonneg (xs : List ℚ) : 0 ≤ squaredDeviations xs :=
  List.sum_nonneg (by simpa using fun x _ => sq_nonneg (x - xs.sum / xs.length))

/-- Numbers that are all the same do not vary. -/
lemma squaredDeviations_of_constant {xs : List ℚ} {c : ℚ} (h : ∀ x ∈ xs, x = c) :
    squaredDeviations xs = 0 := by
  rcases eq_or_ne xs [] with rfl | hxs
  · rfl
  have hlength : (xs.length : ℚ) ≠ 0 := by simpa using hxs
  have hmean : xs.sum / xs.length = c := by
    rw [List.sum_eq_card_nsmul xs c h, nsmul_eq_mul, mul_div_cancel_left₀ c hlength]
  have hzero : ∀ x ∈ xs, (x - xs.sum / xs.length) ^ 2 = 0 := fun x hx => by
    rw [hmean, h x hx, sub_self, zero_pow two_ne_zero]
  rw [squaredDeviations, List.map_congr_left hzero]
  simp

namespace Line

/-! ## Errors -/

/-- What a line leaves of the height of a point. -/
def residual (line : Line ℚ) (p : Point ℚ) : ℚ := p.y - line.intercept - line.slope * p.x

/-- The sum of the squared vertical distances of the points from a line. -/
def squaredError (line : Line ℚ) (points : List (Point ℚ)) : ℚ :=
  (points.map fun p => line.residual p ^ 2).sum

/-- What the line leaves of the heights adds up to zero and is orthogonal to the `x`. -/
structure Balanced (line : Line ℚ) (points : List (Point ℚ)) : Prop where
  sum_eq_zero : (points.map line.residual).sum = 0
  orthogonal : (points.map fun p => line.residual p * p.x).sum = 0

section

variable {points : List (Point ℚ)} {line other : Line ℚ}

lemma height_rat (line : Line ℚ) (x : ℚ) : line.height x = line.intercept + line.slope * x := rfl

/-- **Another line errs more** by its squared differences from a balanced one. -/
lemma squaredError_eq_add (h : line.Balanced points) (other : Line ℚ) :
    other.squaredError points =
      line.squaredError points +
        (points.map fun p => (other.height p.x - line.height p.x) ^ 2).sum := by
  have hsquare : ∀ p, other.residual p ^ 2 = line.residual p ^ 2 +
      (other.height p.x - line.height p.x) ^ 2 +
      (2 * (line.intercept - other.intercept) * line.residual p +
        2 * (line.slope - other.slope) * (line.residual p * p.x)) := by
    intro p
    rw [height_rat, height_rat, residual, residual]
    ring
  simp only [squaredError, hsquare, List.sum_map_add, List.sum_map_mul_left]
  rw [h.sum_eq_zero, h.orthogonal]
  ring

/-- Different lines differ at some point unless the `x` are all the same. -/
lemma exists_height_ne (hvary : squaredDeviations (points.map Point.x) ≠ 0) (hne : line ≠ other) :
    ∃ p ∈ points, line.height p.x ≠ other.height p.x := by
  by_contra! hsame
  by_cases hslope : line.slope = other.slope
  · -- Parallel lines that meet are the same.
    obtain ⟨p, hp⟩ : ∃ p, p ∈ points := by
      refine List.exists_mem_of_ne_nil _ fun hnil => hvary ?_
      rw [hnil]
      rfl
    have hheight := hsame p hp
    rw [height_rat, height_rat, hslope, add_left_inj] at hheight
    cases line
    cases other
    exact hne (Line.mk.injEq .. ▸ ⟨hslope, hheight⟩)
  · -- Lines that are not parallel meet at one place only.
    have hdiffer : line.slope - other.slope ≠ 0 := sub_ne_zero.mpr hslope
    have hplace : ∀ x ∈ points.map Point.x,
        x = (other.intercept - line.intercept) / (line.slope - other.slope) := by
      intro x hx
      obtain ⟨p, hp, rfl⟩ := List.mem_map.mp hx
      have hheight := hsame p hp
      rw [height_rat, height_rat] at hheight
      rw [eq_div_iff hdiffer]
      linarith
    exact hvary (squaredDeviations_of_constant hplace)

/-- **A balanced line is better than any other** if the `x` vary. -/
theorem Balanced.squaredError_lt (h : line.Balanced points)
    (hvary : squaredDeviations (points.map Point.x) ≠ 0) (hne : other ≠ line) :
    line.squaredError points < other.squaredError points := by
  obtain ⟨p, hp, hdiffer⟩ := exists_height_ne hvary hne
  rw [squaredError_eq_add h other, lt_add_iff_pos_right]
  calc 0 < (other.height p.x - line.height p.x) ^ 2 := sq_pos_of_ne_zero (sub_ne_zero.mpr hdiffer)
    _ ≤ (points.map fun p => (other.height p.x - line.height p.x) ^ 2).sum :=
        List.single_le_sum (by simpa using fun p _ => sq_nonneg _) _ (List.mem_map_of_mem hp)

/-! ## The fitted line -/

/-- The sum of the products of the deviations in both coordinates. -/
def codeviations (points : List (Point ℚ)) : ℚ :=
  (points.map fun p =>
    (p.x - mean (points.map Point.x)) * (p.y - mean (points.map Point.y))).sum

/-- The line through the means whose slope relates the two coordinates' deviations. -/
def throughMeans (points : List (Point ℚ)) : Line ℚ :=
  let slope := codeviations points / squaredDeviations (points.map Point.x)
  ⟨slope, mean (points.map Point.y) - slope * mean (points.map Point.x)⟩

/-- When a line is fitted, and which. -/
lemma fit?_rat (points : List (Point ℚ)) :
    fit? points =
      if points.length < 2 ∨ squaredDeviations (points.map Point.x) < 1 / 10 ^ 10 then none
      else some (throughMeans points) := by
  have hspread : Scalar.dot (deviations (points.map Point.x)) (deviations (points.map Point.x)) =
      squaredDeviations (points.map Point.x) := by
    rw [dot_deviations, squaredDeviations_map]
  have hproducts : Scalar.dot (deviations (points.map Point.x)) (deviations (points.map Point.y)) =
      codeviations points := dot_deviations points Point.x Point.y
  have hsmall : vanishes (squaredDeviations (points.map Point.x)) =
      decide (squaredDeviations (points.map Point.x) < 1 / 10 ^ 10) := by
    rw [vanishes, Scalar.abs_rat, abs_of_nonneg (squaredDeviations_nonneg _), Scalar.lt_rat,
      Scalar.epsilon_rat]
  simp only [fit?, hspread, hproducts, hsmall, decide_eq_true_eq]
  by_cases hshort : points.length < 2
  · rw [if_pos hshort, if_pos (.inl hshort)]
  · rw [if_neg hshort]
    simp only [hshort, false_or]
    rfl

/-- What the fitted line leaves is a combination of the deviations. -/
lemma residual_throughMeans (points : List (Point ℚ)) (p : Point ℚ) :
    (throughMeans points).residual p =
      (p.y - mean (points.map Point.y)) +
        -(throughMeans points).slope * (p.x - mean (points.map Point.x)) := by
  rw [residual, throughMeans]
  ring

/-- **The fitted line is balanced.** -/
lemma balanced_throughMeans (hvary : squaredDeviations (points.map Point.x) ≠ 0) :
    (throughMeans points).Balanced points := by
  have hpoints : points ≠ [] := by
    rintro rfl
    exact hvary rfl
  have hsum : (points.map (throughMeans points).residual).sum = 0 := by
    rw [List.map_congr_left fun p _ => residual_throughMeans points p, List.sum_map_add,
      List.sum_map_mul_left]
    rw [sum_map_sub_mean hpoints, sum_map_sub_mean hpoints, mul_zero, add_zero]
  refine ⟨hsum, ?_⟩
  have hproduct : ∀ p : Point ℚ, (throughMeans points).residual p * p.x =
      (p.x - mean (points.map Point.x)) * (p.y - mean (points.map Point.y)) +
        -(throughMeans points).slope *
          ((p.x - mean (points.map Point.x)) * (p.x - mean (points.map Point.x))) +
        mean (points.map Point.x) * (throughMeans points).residual p := by
    intro p
    rw [residual_throughMeans]
    ring
  simp only [hproduct, List.sum_map_add, List.sum_map_mul_left]
  rw [hsum, mul_zero, add_zero, ← squaredDeviations_map, ← codeviations, throughMeans]
  field_simp
  ring

end

/-! ## The segment -/

/-- A number that gives way to every smaller one ends as the smallest. -/
lemma isLeast_foldl {β : Type} [LinearOrder β] (first : β) (rest : List β) :
    IsLeast {x | x ∈ first :: rest} (rest.foldl (fun m x => if x < m then x else m) first) := by
  induction rest generalizing first with
  | nil => simp [IsLeast, lowerBounds]
  | cons second rest ih =>
      obtain ⟨hmem, hlower⟩ := ih (min second first)
      have hstep : (if second < first then second else first) = min second first :=
        (min_def_lt second first).symm
      rw [List.foldl_cons, hstep]
      refine ⟨?_, ?_⟩
      · rcases List.mem_cons.mp hmem with heq | hrest
        · rw [heq]
          rcases min_choice second first with h | h <;> simp [h]
        · exact List.mem_cons_of_mem _ (List.mem_cons_of_mem _ hrest)
      · have hmin := hlower List.mem_cons_self
        intro x hx
        rcases List.mem_cons.mp hx with rfl | hx
        · exact hmin.trans (min_le_right _ _)
        · rcases List.mem_cons.mp hx with rfl | hx
          · exact hmin.trans (min_le_left _ _)
          · exact hlower (List.mem_cons_of_mem _ hx)

lemma isLeast_least (first : ℚ) (rest : List ℚ) :
    IsLeast {x | x ∈ first :: rest} (least first rest) := by
  simp only [least, Scalar.lt_rat, decide_eq_true_eq]
  exact isLeast_foldl first rest

lemma isGreatest_greatest (first : ℚ) (rest : List ℚ) :
    IsGreatest {x | x ∈ first :: rest} (greatest first rest) := by
  simp only [greatest, Scalar.lt_rat, decide_eq_true_eq]
  exact @isLeast_foldl ℚᵒᵈ _ first rest

/-- The segment of a fitted line ends at the smallest and the largest `x`. -/
lemma exists_segment {points : List (Point ℚ)} {line : Line ℚ} (h : fit? points = some line) :
    ∃ low high, IsLeast {x | x ∈ points.map Point.x} low ∧
      IsGreatest {x | x ∈ points.map Point.x} high ∧
      segment? points = some (⟨low, line.intercept + line.slope * low⟩,
        ⟨high, line.intercept + line.slope * high⟩) := by
  cases points with
  | nil => cases h
  | cons first rest =>
      refine ⟨_, _, isLeast_least first.x (rest.map Point.x),
        isGreatest_greatest first.x (rest.map Point.x), ?_⟩
      simp only [segment?, h]
      rfl

/-- **The line of least squares.** There is none exactly for fewer than two points or if the `x`
hardly vary. Otherwise the squared error of any other line is larger, and the segment joins the
heights of the line at the smallest and the largest `x`. -/
theorem fit?_leastSquares (points : List (Point ℚ)) :
    (fit? points = none ↔
      points.length < 2 ∨ squaredDeviations (points.map Point.x) < 1 / 10 ^ 10) ∧
    (fit? points = none → segment? points = none) ∧
    ∀ line, fit? points = some line →
      (∀ other, other ≠ line → line.squaredError points < other.squaredError points) ∧
      ∃ low high, IsLeast {x | x ∈ points.map Point.x} low ∧
        IsGreatest {x | x ∈ points.map Point.x} high ∧
        segment? points = some (⟨low, line.intercept + line.slope * low⟩,
          ⟨high, line.intercept + line.slope * high⟩) := by
  refine ⟨?_, fun h => ?_, fun line h => ⟨fun other hne => ?_, exists_segment h⟩⟩
  · rw [fit?_rat]
    split_ifs with hnone
    · exact iff_of_true rfl hnone
    · exact iff_of_false not_false hnone
  · simp only [segment?, h]
  · rw [fit?_rat, Option.ite_none_left_eq_some, not_or, not_lt, not_lt] at h
    obtain ⟨⟨-, hspread⟩, hline⟩ := h
    obtain rfl : throughMeans points = line := Option.some.inj hline
    have hvary : squaredDeviations (points.map Point.x) ≠ 0 := by
      rintro hzero
      rw [hzero] at hspread
      exact absurd hspread (by norm_num)
    exact (balanced_throughMeans hvary).squaredError_lt hvary hne

/-- A point between two others at the same `x`. -/
theorem fit?_leastSquares_repeated :
    let points : List (Point ℚ) := [⟨2, 5⟩, ⟨0, 1⟩, ⟨2, 3⟩]
    let line : Line ℚ := ⟨3 / 2, 1⟩
    fit? points = some line ∧
      (∀ other, other ≠ line → line.squaredError points < other.squaredError points) ∧
      ∃ low high, IsLeast {x | x ∈ points.map Point.x} low ∧
        IsGreatest {x | x ∈ points.map Point.x} high ∧
        segment? points = some (⟨low, line.intercept + line.slope * low⟩,
          ⟨high, line.intercept + line.slope * high⟩) := by
  intro points line
  have hfit : fit? points = some line := by decide +kernel
  exact ⟨hfit, (fit?_leastSquares points).2.2 line hfit⟩

end Line

end CausalEquations
