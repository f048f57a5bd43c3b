import CausalEquations.Proofs.TricubeWeights
import Mathlib.Algebra.Order.BigOperators.Group.List
import Mathlib.Data.List.Pairwise
import Mathlib.Data.Rat.Floor

/-!
# Local lines and the smooth curve

Over the rationals the height of the local line at a position is a function of weighted sums over
the points, and the curve joins these heights at evenly spaced positions between the smallest and
the largest `x`. Sums do not depend on the order of the points, so that sorting them drops out.

* `Loess.weightedSum`, `Loess.spread`, `Loess.height?` — the sums, and the height in terms of them.
* `Loess.Reached`, `Loess.total_eq_zero_iff` — the positions from which some point weighs something.
* `Loess.curve?_rat` — the curve as the heights at the positions.
* `Loess.curve?_perm` — the order of the points does not matter.
-/

namespace CausalEquations

namespace Loess

/-! ## Weighted sums -/

/-- What a point weighs in the fit at `target`. -/
def weight (points : List (Point ℚ)) (neighbours : ℤ) (target : ℚ) (p : Point ℚ) : ℚ :=
  kernel (radius (points.map Point.x) neighbours target) |p.x - target|

/-- The weighted sum of a quantity over the points. -/
def weightedSum (points : List (Point ℚ)) (neighbours : ℤ) (target : ℚ) (f : Point ℚ → ℚ) : ℚ :=
  (points.map fun p => weight points neighbours target p * f p).sum

/-- The sum of the weights. -/
def total (points : List (Point ℚ)) (neighbours : ℤ) (target : ℚ) : ℚ :=
  weightedSum points neighbours target fun _ => 1

/-- How far the weighted points spread around their mean. -/
def spread (points : List (Point ℚ)) (neighbours : ℤ) (target : ℚ) : ℚ :=
  total points neighbours target * weightedSum points neighbours target (fun p => p.x * p.x) -
    weightedSum points neighbours target Point.x * weightedSum points neighbours target Point.x

/-- The height at `target` of the weighted line through the points. -/
def height? (points : List (Point ℚ)) (neighbours : ℤ) (target : ℚ) : Option ℚ :=
  let sum := weightedSum points neighbours target
  let total := total points neighbours target
  let spread := spread points neighbours target
  if total = 0 then none
  else if 1 / 10 ^ 10 < |spread| then
    let slope := (total * sum (fun p => p.x * p.y) - sum Point.x * sum Point.y) / spread
    some ((sum Point.y - slope * sum Point.x) / total + slope * target)
  else some (sum Point.y / total)

section

variable {points others : List (Point ℚ)} {neighbours : ℤ} {target : ℚ}

lemma weightedSum_perm (h : points.Perm others) :
    weightedSum points neighbours target = weightedSum others neighbours target := by
  funext f
  have hweight : weight points neighbours target = weight others neighbours target := by
    funext p
    rw [weight, weight, radius_perm (h.map Point.x)]
  rw [weightedSum, weightedSum, hweight]
  exact (h.map _).sum_eq

lemma height?_perm (h : points.Perm others) :
    height? points neighbours target = height? others neighbours target := by
  unfold height? spread total
  rw [weightedSum_perm h]

lemma sum_weight : (points.map (weight points neighbours target)).sum =
    total points neighbours target := by
  simp [total, weightedSum]

/-- **The height of the local line** is computed from the weighted sums. -/
theorem fitAt?_rat (hpoints : points ≠ []) (hneighbours : 1 ≤ neighbours) :
    fitAt? (points.map Point.x) (points.map Point.y) neighbours target =
      height? points neighbours target := by
  have hweights : tricubeWeights (points.map Point.x) target neighbours =
      points.map (weight points neighbours target) := by
    rw [tricubeWeights_rat (by simpa using hpoints) hneighbours, List.map_map]
    rfl
  have hproducts (f : Point ℚ → ℚ) :
      List.zipWith (· * ·) (points.map (weight points neighbours target)) (points.map f) =
        points.map fun p => weight points neighbours target p * f p := by
    rw [List.zipWith_map, List.zipWith_self]
  simp only [fitAt?, hweights, hproducts, Scalar.sum_rat, Scalar.dot_map_rat, sum_weight,
    Scalar.zero_rat, Scalar.beq_rat, Scalar.lt_rat, Scalar.abs_rat, Scalar.epsilon_rat,
    decide_eq_true_eq, height?, spread, weightedSum, mul_assoc]
  rfl

end

/-! ## Positions with weight -/

/-- From the position some point weighs something: one is nearer than the farthest of the nearest
`neighbours`, or these all are at the position. -/
def Reached (points : List (Point ℚ)) (neighbours : ℤ) (target : ℚ) : Prop :=
  radius (points.map Point.x) neighbours target = 0 ∨
    ∃ p ∈ points, |p.x - target| < radius (points.map Point.x) neighbours target

instance (points : List (Point ℚ)) (neighbours : ℤ) :
    DecidablePred (Reached points neighbours) := fun _ => inferInstanceAs (Decidable (_ ∨ _))

section

variable {points : List (Point ℚ)} {neighbours : ℤ} {target : ℚ}

lemma radius_map_nonneg (hpoints : points ≠ []) (neighbours : ℤ) (target : ℚ) :
    0 ≤ radius (points.map Point.x) neighbours target :=
  radius_nonneg (by simpa using hpoints) neighbours target

lemma weight_nonneg (hpoints : points ≠ []) (p : Point ℚ) :
    0 ≤ weight points neighbours target p :=
  kernel_nonneg (radius_map_nonneg hpoints neighbours target) (abs_nonneg _)

/-- The weights add up to zero exactly if all of them vanish. -/
lemma total_eq_zero_iff (hpoints : points ≠ []) :
    total points neighbours target = 0 ↔ ¬ Reached points neighbours target := by
  have hvanish : total points neighbours target = 0 ↔
      ∀ p ∈ points, weight points neighbours target p = 0 := by
    rw [← sum_weight]
    constructor
    · intro h p hp
      refine List.all_zero_of_le_zero_le_of_sum_eq_zero ?_ h (List.mem_map_of_mem hp)
      intro w hw
      obtain ⟨q, -, rfl⟩ := List.mem_map.mp hw
      exact weight_nonneg hpoints q
    · intro h
      rw [List.map_congr_left h]
      simp
  have hradius := radius_map_nonneg hpoints neighbours target
  simp only [hvanish, weight, kernel_eq_zero_iff hradius (abs_nonneg _), Reached, not_or,
    not_exists, not_and, not_lt]
  constructor
  · intro h
    obtain ⟨p, hp⟩ := List.exists_mem_of_ne_nil _ hpoints
    exact ⟨(h p hp).1.ne', fun q hq => (h q hq).2⟩
  · exact fun h p hp => ⟨lt_of_le_of_ne hradius (Ne.symm h.1), h.2 p hp⟩

/-- A point reaches its own position. -/
lemma reached_of_mem {p : Point ℚ} (hp : p ∈ points) : Reached points neighbours p.x := by
  have hradius := radius_map_nonneg (List.ne_nil_of_mem hp) neighbours p.x
  rcases hradius.eq_or_lt with hzero | hpos
  · exact .inl hzero.symm
  · exact .inr ⟨p, hp, by rwa [sub_self, abs_zero]⟩

end

/-! ## The curve -/

/-- Evenly spaced positions from `low` to `high`. -/
def positions (low high : ℚ) (count : ℕ) : List ℚ :=
  (List.range count).map fun i : ℕ => low + (high - low) * i / (count - 1)

lemma position_rat {count : ℕ} (hcount : 1 ≤ count) (low span : ℚ) (step : ℕ) :
    position low span count step = low + span * step / (count - 1) := by
  rw [position, Scalar.ofNat_rat, Scalar.ofNat_rat, Nat.cast_sub hcount, Nat.cast_one]

/-- The fraction of the points in a local fit, between a fifth and all. -/
lemma bandwidthOf_rat (requested : ℚ) : bandwidthOf requested = min 1 (max (1 / 5) requested) := by
  have hleast : (leastBandwidth : ℚ) = 1 / 5 := by decide +kernel
  simp only [bandwidthOf, hleast, Scalar.one_rat, Scalar.lt_rat, decide_eq_true_eq]
  rw [← max_def_lt, min_comm, ← min_def_lt]

lemma neighboursOf_rat (bandwidth : ℚ) (n : ℕ) :
    neighboursOf bandwidth n = max 3 ⌊bandwidth * n + 1 / 2⌋ := by
  have hhalf : (Scalar.ofDecimal 5 (-1) : ℚ) = 1 / 2 := by decide +kernel
  rw [neighboursOf, Scalar.ofNat_rat, hhalf]
  rfl

lemma sortedByX_perm (points : List (Point ℚ)) : (sortedByX points).Perm points :=
  Insertion.sort_perm _ points

/-- The `x` of the sorted points ascend. -/
lemma pairwise_sortedByX (points : List (Point ℚ)) :
    ((sortedByX points).map Point.x).Pairwise (· ≤ ·) := by
  rw [List.pairwise_map]
  have hsorted := Insertion.pairwise_sort (fun p q : Point ℚ => Scalar.lt p.x q.x)
    (by simpa using fun p q h => h.le)
    (by simpa using fun p q r hpq hqr => hpq.trans hqr) points
  exact hsorted.imp fun h => by simpa using h

lemma isLeast_headD {xs : List ℚ} (hxs : xs ≠ []) (h : xs.Pairwise (· ≤ ·)) (default : ℚ) :
    IsLeast {x | x ∈ xs} (xs.headD default) := by
  rw [List.headD_eq_head?_getD, List.head?_eq_some_head hxs, Option.getD_some]
  exact ⟨List.head_mem hxs, fun x hx => h.rel_head hx⟩

lemma isGreatest_getLastD {xs : List ℚ} (hxs : xs ≠ []) (h : xs.Pairwise (· ≤ ·)) (default : ℚ) :
    IsGreatest {x | x ∈ xs} (xs.getLastD default) := by
  rw [List.getLastD_eq_getLast?, List.getLast?_eq_some_getLast hxs, Option.getD_some]
  exact ⟨List.getLast_mem hxs, fun x hx => h.rel_getLast hx⟩

/-- Sorting keeps the set of the `x`. -/
lemma setOf_mem_sortedByX (points : List (Point ℚ)) :
    {x | x ∈ (sortedByX points).map Point.x} = {x | x ∈ points.map Point.x} :=
  Set.ext fun _ => ((sortedByX_perm points).map Point.x).mem_iff

lemma sortedByX_ne_nil {points : List (Point ℚ)} (hpoints : points ≠ []) :
    sortedByX points ≠ [] :=
  fun h => hpoints (h ▸ sortedByX_perm points).nil_eq.symm

lemma isLeast_sortedByX {points : List (Point ℚ)} (hpoints : points ≠ []) :
    IsLeast {x | x ∈ points.map Point.x} (((sortedByX points).map Point.x).headD 0) :=
  setOf_mem_sortedByX points ▸
    isLeast_headD (by simpa using sortedByX_ne_nil hpoints) (pairwise_sortedByX points) 0

lemma isGreatest_sortedByX {points : List (Point ℚ)} (hpoints : points ≠ []) :
    IsGreatest {x | x ∈ points.map Point.x} (((sortedByX points).map Point.x).getLastD 0) :=
  setOf_mem_sortedByX points ▸
    isGreatest_getLastD (by simpa using sortedByX_ne_nil hpoints) (pairwise_sortedByX points) 0

/-- The heights at the positions that have one. -/
def heights (points : List (Point ℚ)) (neighbours : ℤ) (targets : List ℚ) : List (Point ℚ) :=
  targets.filterMap fun target => (height? points neighbours target).map (Point.mk target)

/-- **The curve joins the heights** at evenly spaced positions between the smallest and the
largest `x`. -/
theorem curve?_rat {points : List (Point ℚ)} {low high : ℚ} (hpoints : points ≠ [])
    (hlow : IsLeast {x | x ∈ points.map Point.x} low)
    (hhigh : IsGreatest {x | x ∈ points.map Point.x} high) (bandwidth : ℚ) (steps : Option ℤ) :
    curve? points bandwidth steps =
      if points.length < 3 ∨ low = high then none
      else
        let neighbours := max 3 ⌊min 1 (max (1 / 5) bandwidth) * points.length + 1 / 2⌋
        let line := heights points neighbours (positions low high (stepsOf steps points.length))
        if line.length < 2 then none else some line := by
  have hfirst := (isLeast_sortedByX hpoints).unique hlow
  have hlast := (isGreatest_sortedByX hpoints).unique hhigh
  have hfit (k : ℤ) (target : ℚ) :
      fitAt? ((sortedByX points).map Point.x) ((sortedByX points).map Point.y) (max 3 k) target =
        height? points (max 3 k) target := by
    rw [fitAt?_rat (sortedByX_ne_nil hpoints) (by omega), height?_perm (sortedByX_perm points)]
  have hcount : 1 ≤ stepsOf steps points.length := by
    rw [stepsOf]
    omega
  by_cases hshort : points.length < 3
  · rw [curve?, if_pos hshort, if_pos (.inl hshort)]
  · simp only [curve?, if_neg hshort, Scalar.zero_rat, hfirst, hlast, Scalar.isFinite_rat,
      Scalar.beq_rat, hfit, bandwidthOf_rat, neighboursOf_rat, position_rat hcount]
    by_cases hspan : low = high
    · rw [if_pos (Or.inr hspan), if_pos (by simp [hspan])]
    · rw [if_neg (not_or.mpr ⟨hshort, hspan⟩),
        if_neg (by simpa [sub_eq_zero] using Ne.symm hspan), heights, positions,
        List.filterMap_map]
      refine congrArg (fun line : List (Point ℚ) => if line.length < 2 then none else some line)
        (List.filterMap_congr fun step _ => ?_)
      rw [Function.comp_apply]
      cases height? points _ _ <;> rfl

/-! ## The order of the points -/

/-- Points in another order have the same heights. -/
lemma heights_perm {points others : List (Point ℚ)} (h : points.Perm others) (neighbours : ℤ)
    (targets : List ℚ) : heights points neighbours targets = heights others neighbours targets := by
  simp only [heights, height?_perm h]

/-- **The curve does not depend on the order of the points**, even where points with the same `x`
keep their order when they are sorted. -/
theorem curve?_perm {points others : List (Point ℚ)} (h : points.Perm others) (bandwidth : ℚ)
    (steps : Option ℤ) : curve? points bandwidth steps = curve? others bandwidth steps := by
  rcases eq_or_ne points [] with rfl | hpoints
  · rw [h.nil_eq]
  have hothers : others ≠ [] := fun hnil => hpoints (hnil ▸ h).eq_nil
  have hxs : {x | x ∈ points.map Point.x} = {x | x ∈ others.map Point.x} :=
    Set.ext fun _ => (h.map Point.x).mem_iff
  have hlow := isLeast_sortedByX hpoints
  have hhigh := isGreatest_sortedByX hpoints
  rw [curve?_rat hpoints hlow hhigh, curve?_rat hothers (hxs ▸ hlow) (hxs ▸ hhigh), h.length_eq]
  simp only [heights_perm h]

/-- Points that stand above each other are sorted in two ways. The curve has a point for every
position, and begins at the mean of the two heights at `0`. -/
theorem curve?_perm_above :
    let points : List (Point ℚ) := [⟨0, 1⟩, ⟨0, 3⟩, ⟨1, 2⟩, ⟨4, 5⟩]
    let others : List (Point ℚ) := [⟨4, 5⟩, ⟨0, 3⟩, ⟨1, 2⟩, ⟨0, 1⟩]
    points.Perm others ∧ sortedByX points ≠ sortedByX others ∧
      ∃ line, curve? points (3 / 5) (some 13) = some line ∧
        curve? others (3 / 5) (some 13) = some line ∧
        line.length = 13 ∧ line.take 2 = [⟨0, 2⟩, ⟨1 / 3, 2⟩] := by
  intro points others
  have hperm : points.Perm others := by decide +kernel
  have hlow : IsLeast {x | x ∈ points.map Point.x} 0 := by
    constructor <;> simp [points, lowerBounds]
  have hhigh : IsGreatest {x | x ∈ points.map Point.x} 4 := by
    constructor <;> simp [points, upperBounds]
  have hcurve : (curve? points (3 / 5) (some 13)).map (fun line => (line.length, line.take 2)) =
      some (13, [⟨0, 2⟩, ⟨1 / 3, 2⟩]) := by
    rw [curve?_rat (List.cons_ne_nil _ _) hlow hhigh, if_neg (by decide +kernel)]
    decide +kernel
  obtain ⟨line, hline, hshown⟩ := Option.map_eq_some_iff.mp hcurve
  obtain ⟨hlength, hfirst⟩ := Prod.mk.inj hshown
  have hsame := curve?_perm hperm (3 / 5) (some 13)
  exact ⟨hperm, by decide +kernel, line, hline, hsame ▸ hline, hlength, hfirst⟩

end Loess

end CausalEquations
