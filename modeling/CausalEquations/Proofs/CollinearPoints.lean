import CausalEquations.Proofs.LocalFits
import Mathlib.Algebra.BigOperators.Ring.List
import Mathlib.Tactic.FieldSimp
import Mathlib.Tactic.Linarith

/-!
# Smooth curves through points of a line

If all points lie on a line, so does the curve, but for two things. A position is left out from
which no point weighs anything, as no point is nearer than the farthest of the nearest. And the
local fit is flat if the points that weigh something hardly spread: it then has the height of the
line at their weighted mean, not at the position.

* `Loess.abscissa`, `Loess.height?_of_line` — where on the line the local fit is.
* `Loess.Follows` — how the curve runs, and when it is the whole line.
* `Loess.curve?_of_line` — the curve through points of a line.
-/

namespace CausalEquations

namespace Loess

/-! ## Local fits -/

/-- The mean of the `x` of the weighted points. -/
def weightedMean (points : List (Point ℚ)) (neighbours : ℤ) (target : ℚ) : ℚ :=
  weightedSum points neighbours target Point.x / total points neighbours target

/-- The place on a line that has the height of the local fit at `target`. -/
def abscissa (points : List (Point ℚ)) (neighbours : ℤ) (target : ℚ) : ℚ :=
  if 1 / 10 ^ 10 < |spread points neighbours target| then target
  else weightedMean points neighbours target

section

variable {points : List (Point ℚ)} {neighbours : ℤ} {target : ℚ} {a b : ℚ}

lemma weightedSum_linear {f g h : Point ℚ → ℚ} (hf : ∀ p ∈ points, f p = a * g p + b * h p) :
    weightedSum points neighbours target f =
      a * weightedSum points neighbours target g + b * weightedSum points neighbours target h := by
  simp only [weightedSum]
  rw [← List.sum_map_mul_left, ← List.sum_map_mul_left, ← List.sum_map_add]
  congr 1
  refine List.map_congr_left fun p hp => ?_
  rw [hf p hp]
  ring

variable (hpoints : points ≠ []) (hline : ∀ p ∈ points, p.y = a + b * p.x)

include hpoints hline

/-- **The local fit has the height of the line** at its abscissa. -/
theorem height?_of_line : height? points neighbours target =
    if Reached points neighbours target then
      some (a + b * abscissa points neighbours target)
    else none := by
  have hy : weightedSum points neighbours target Point.y =
      a * total points neighbours target + b * weightedSum points neighbours target Point.x :=
    weightedSum_linear fun p hp => by rw [hline p hp, mul_one]
  have hxy : weightedSum points neighbours target (fun p => p.x * p.y) =
      a * weightedSum points neighbours target Point.x +
        b * weightedSum points neighbours target (fun p => p.x * p.x) :=
    weightedSum_linear fun p hp => by
      rw [hline p hp]
      ring
  have hcross : total points neighbours target *
        weightedSum points neighbours target (fun p => p.x * p.y) -
      weightedSum points neighbours target Point.x * weightedSum points neighbours target Point.y =
        b * spread points neighbours target := by
    rw [hy, hxy, spread]
    ring
  by_cases hreached : Reached points neighbours target
  · have htotal : total points neighbours target ≠ 0 :=
      fun h => (total_eq_zero_iff hpoints).mp h hreached
    rw [height?, if_neg htotal, if_pos hreached, abscissa]
    split_ifs with hsloped
    · have hspread : spread points neighbours target ≠ 0 := by
        rintro hzero
        rw [hzero, abs_zero] at hsloped
        exact absurd hsloped (by norm_num)
      rw [hcross, hy, mul_div_cancel_right₀ b hspread]
      dsimp only
      rw [add_sub_cancel_right, mul_div_cancel_right₀ a htotal]
    · rw [hy, weightedMean]
      field_simp
  · rw [height?, if_pos ((total_eq_zero_iff hpoints).mpr hreached), if_neg hreached]

/-- The curve has a point for each position that is reached. -/
lemma heights_of_line (targets : List ℚ) : heights points neighbours targets =
    (targets.filter fun t => decide (Reached points neighbours t)).map fun t =>
      ⟨t, a + b * abscissa points neighbours t⟩ := by
  rw [heights]
  induction targets with
  | nil => rfl
  | cons t rest ih =>
      rw [List.filterMap_cons, height?_of_line hpoints hline, ih]
      by_cases hreached : Reached points neighbours t
      · simp [hreached]
      · simp [hreached]

end

/-! ## The ends -/

lemma low_mem_positions {low high : ℚ} {count : ℕ} (hcount : 1 ≤ count) :
    low ∈ positions low high count :=
  List.mem_map.mpr ⟨0, List.mem_range.mpr hcount, by simp⟩

lemma high_mem_positions {low high : ℚ} {count : ℕ} (hcount : 2 ≤ count) :
    high ∈ positions low high count := by
  refine List.mem_map.mpr ⟨count - 1, List.mem_range.mpr (by omega), ?_⟩
  have hlast : (count : ℚ) - 1 ≠ 0 := by
    have : (2 : ℚ) ≤ count := by exact_mod_cast hcount
    linarith
  rw [Nat.cast_sub (by omega), Nat.cast_one, mul_div_cancel_right₀ _ hlast, add_sub_cancel]

lemma two_le_length {β : Type} {l : List β} {c d : β} (hc : c ∈ l) (hd : d ∈ l) (hne : c ≠ d) :
    2 ≤ l.length := by
  rcases l with _ | ⟨first, _ | ⟨second, rest⟩⟩
  · exact absurd hc List.not_mem_nil
  · exact absurd ((List.mem_singleton.mp hc).trans (List.mem_singleton.mp hd).symm) hne
  · simp

/-! ## The curve -/

/-- How the curve through points of the line `y = a + b · x` runs along the positions `targets`. -/
structure Follows (points : List (Point ℚ)) (a b : ℚ) (neighbours : ℤ) (targets : List ℚ)
    (curve : List (Point ℚ)) : Prop where
  /-- It has the positions from which some point weighs something, in their order. -/
  positions_eq : curve.map Point.x = targets.filter fun t => decide (Reached points neighbours t)
  /-- It is on the line where the weighted points spread enough for a slope. -/
  on_line : ∀ p ∈ curve, 1 / 10 ^ 10 < |spread points neighbours p.x| → p.y = a + b * p.x
  /-- Elsewhere it has the height of the line at the mean of the weighted points. -/
  flat : ∀ p ∈ curve, |spread points neighbours p.x| ≤ 1 / 10 ^ 10 →
    p.y = a + b * weightedMean points neighbours p.x
  /-- When there is a point for each position, and all of them are on the line. -/
  whole_iff : (curve.length = targets.length ∧ ∀ p ∈ curve, p.y = a + b * p.x) ↔
    ∀ t ∈ targets, Reached points neighbours t ∧
      (1 / 10 ^ 10 < |spread points neighbours t| ∨ b = 0 ∨ weightedMean points neighbours t = t)

section

variable {points : List (Point ℚ)} {a b : ℚ}

/-- The height at the abscissa is that at the position if the line is level or the two agree. -/
lemma height_abscissa_iff {neighbours : ℤ} {t : ℚ} :
    a + b * abscissa points neighbours t = a + b * t ↔
      1 / 10 ^ 10 < |spread points neighbours t| ∨ b = 0 ∨
        weightedMean points neighbours t = t := by
  rw [abscissa, add_right_inj, mul_eq_mul_left_iff]
  split_ifs with hsloped
  · exact iff_of_true (.inl rfl) (.inl hsloped)
  · rw [or_iff_right hsloped, or_comm]

lemma follows_heights (hpoints : points ≠ []) (hline : ∀ p ∈ points, p.y = a + b * p.x)
    (neighbours : ℤ) (targets : List ℚ) :
    Follows points a b neighbours targets (heights points neighbours targets) := by
  rw [heights_of_line hpoints hline]
  refine { positions_eq := ?_, on_line := ?_, flat := ?_, whole_iff := ?_ }
  · simp [Function.comp_def]
  · intro p hp hsloped
    obtain ⟨t, -, rfl⟩ := List.mem_map.mp hp
    exact height_abscissa_iff.mpr (.inl hsloped)
  · intro p hp hflat
    obtain ⟨t, -, rfl⟩ := List.mem_map.mp hp
    rw [abscissa, if_neg (not_lt.mpr hflat)]
  · simp only [List.length_map, List.length_filter_eq_length_iff, decide_eq_true_eq,
      List.forall_mem_map, height_abscissa_iff, List.mem_filter]
    exact ⟨fun h t ht => ⟨h.1 t ht, h.2 t ⟨ht, h.1 t ht⟩⟩,
      fun h => ⟨fun t ht => (h t ht).1, fun t ht => (h t ht.1).2⟩⟩

/-- No position is left out that is the `x` of a point. -/
lemma Follows.mem_of_point {neighbours : ℤ} {targets : List ℚ} {curve : List (Point ℚ)}
    (h : Follows points a b neighbours targets curve) {x : ℚ} (hx : x ∈ points.map Point.x)
    (htarget : x ∈ targets) : x ∈ curve.map Point.x := by
  obtain ⟨p, hp, rfl⟩ := List.mem_map.mp hx
  rw [h.positions_eq]
  exact List.mem_filter.mpr ⟨htarget, decide_eq_true (reached_of_mem hp)⟩

/-- **The curve through points of a line** has `max 12 steps` evenly spaced positions, but those are
left out from which no point weighs anything, and its points are on the line where the local fits
have a slope. The ends are never left out. -/
theorem curve?_of_line (hcount : 3 ≤ points.length) (hvary : ∃ p ∈ points, ∃ q ∈ points, p.x ≠ q.x)
    (hline : ∀ p ∈ points, p.y = a + b * p.x) (bandwidth : ℚ) (steps : Option ℤ) :
    ∃ (low high : ℚ) (count : ℕ) (curve : List (Point ℚ)),
      IsLeast {x | x ∈ points.map Point.x} low ∧ IsGreatest {x | x ∈ points.map Point.x} high ∧
      (count : ℤ) = max 12 (steps.getD (min 36 (2 * points.length))) ∧
      curve? points bandwidth steps = some curve ∧
      low ∈ curve.map Point.x ∧ high ∈ curve.map Point.x ∧
      Follows points a b (max 3 ⌊min 1 (max (1 / 5) bandwidth) * points.length + 1 / 2⌋)
        (positions low high count) curve := by
  have hpoints : points ≠ [] := List.ne_nil_of_length_pos (by omega)
  obtain ⟨low, hlow⟩ : ∃ low, IsLeast {x | x ∈ points.map Point.x} low :=
    ⟨_, isLeast_sortedByX hpoints⟩
  obtain ⟨high, hhigh⟩ : ∃ high, IsGreatest {x | x ∈ points.map Point.x} high :=
    ⟨_, isGreatest_sortedByX hpoints⟩
  have hrange : low ≠ high := by
    rintro rfl
    obtain ⟨p, hp, q, hq, hne⟩ := hvary
    have hequal (r : Point ℚ) (hr : r ∈ points) : r.x = low :=
      le_antisymm (hhigh.2 (List.mem_map_of_mem hr)) (hlow.2 (List.mem_map_of_mem hr))
    exact hne ((hequal p hp).trans (hequal q hq).symm)
  have hsteps : (stepsOf steps points.length : ℤ) =
      max 12 (steps.getD (min 36 (2 * points.length))) := Int.toNat_of_nonneg (by omega)
  generalize hk : max 3 ⌊min 1 (max (1 / 5) bandwidth) * points.length + 1 / 2⌋ = neighbours
  have hfollows := follows_heights hpoints hline neighbours
    (positions low high (stepsOf steps points.length))
  generalize hcurve : heights points neighbours
    (positions low high (stepsOf steps points.length)) = curve at hfollows
  have hfirst : low ∈ curve.map Point.x :=
    hfollows.mem_of_point hlow.1 (low_mem_positions (by omega))
  have hlast : high ∈ curve.map Point.x :=
    hfollows.mem_of_point hhigh.1 (high_mem_positions (by omega))
  have hlength : 2 ≤ curve.length := by simpa using two_le_length hfirst hlast hrange
  refine ⟨low, high, stepsOf steps points.length, curve, hlow, hhigh, hsteps, ?_, hfirst, hlast,
    hfollows⟩
  rw [curve?_rat hpoints hlow hhigh, if_neg (not_or.mpr ⟨by omega, hrange⟩), hk]
  dsimp only
  rw [hcurve, if_neg hlength.not_gt]

/-- Half of four points are too few for a fit, which takes three. -/
theorem curve?_of_line_uneven :
    ∃ (low high : ℚ) (count : ℕ) (curve : List (Point ℚ)),
      IsLeast {x | x ∈ [0, 4, 1, 4]} low ∧ IsGreatest {x | x ∈ [0, 4, 1, 4]} high ∧
      (count : ℤ) = 12 ∧
      curve? [⟨0, 1⟩, ⟨4, 9⟩, ⟨1, 3⟩, ⟨4, 9⟩] (1 / 2) (some 5) = some curve ∧
      low ∈ curve.map Point.x ∧ high ∈ curve.map Point.x ∧
      Follows [⟨0, 1⟩, ⟨4, 9⟩, ⟨1, 3⟩, ⟨4, 9⟩] 1 2 3 (positions low high count) curve := by
  have hneighbours : max 3 ⌊min 1 (max (1 / 5) (1 / 2 : ℚ)) * (4 : ℕ) + 1 / 2⌋ = 3 := by
    decide +kernel
  have hline : ∀ p ∈ ([⟨0, 1⟩, ⟨4, 9⟩, ⟨1, 3⟩, ⟨4, 9⟩] : List (Point ℚ)), p.y = 1 + 2 * p.x := by
    decide +kernel
  have hfollows := curve?_of_line (by decide) (by decide +kernel) hline (1 / 2) (some 5)
  rw [← hneighbours]
  exact hfollows

/-- Two points stand at each end of the diagonal. From the middle all are equally far, so that this
position is left out; from the others only points with one `x` weigh anything, and the curve has
their height. -/
theorem curve?_beside_line :
    let points : List (Point ℚ) := [⟨0, 0⟩, ⟨0, 0⟩, ⟨1, 1⟩, ⟨1, 1⟩]
    3 ≤ points.length ∧ (∃ p ∈ points, ∃ q ∈ points, p.x ≠ q.x) ∧
      (∀ p ∈ points, p.y = 0 + 1 * p.x) ∧
      ∃ curve, curve? points (3 / 5) (some 13) = some curve ∧
        (curve.length : ℤ) ≠ max 12 13 ∧ ¬ ∀ p ∈ curve, p.y = 0 + 1 * p.x := by
  intro points
  have hlow : IsLeast {x | x ∈ points.map Point.x} 0 := by
    constructor <;> simp [points, lowerBounds]
  have hhigh : IsGreatest {x | x ∈ points.map Point.x} 1 := by
    constructor <;> simp [points, upperBounds]
  refine ⟨by decide, by decide +kernel, by decide +kernel, ?_⟩
  rw [curve?_rat (List.cons_ne_nil _ _) hlow hhigh, if_neg (by decide +kernel)]
  refine ⟨_, if_neg ?_, ?_, ?_⟩ <;> decide +kernel

end

end Loess

end CausalEquations
