import CausalEquations.Proofs.RationalNumbers
import CausalEquations.Statistics.Loess
import Mathlib.Data.List.GetD
import Mathlib.Data.List.Sort

/-!
# What points weigh seen from a position

Over the rationals the weight of a point is a function of two numbers: of the radius, which is the
distance of the farthest of the nearest points, and of its own distance. Points at the radius or
beyond weigh nothing, unless the radius is zero.

* `Loess.radius`, `Loess.radius_perm` — the radius; the order of the points does not matter.
* `Loess.kernel`, `Loess.kernel_eq_zero_iff` — the weight, and when there is none.
* `Loess.tricubeWeights_rat` — these are the weights that are computed.
-/

namespace CausalEquations

namespace Loess

/-! ## The radius -/

/-- The distances from a position, the smallest first. -/
def sortedDistances (xs : List ℚ) (target : ℚ) : List ℚ :=
  (xs.map fun x => |x - target|).insertionSort (· ≤ ·)

/-- The distance of the farthest of the nearest `neighbours`. -/
def radius (xs : List ℚ) (neighbours : ℤ) (target : ℚ) : ℚ :=
  (sortedDistances xs target).getD (min neighbours xs.length - 1).toNat 0

lemma length_sortedDistances (xs : List ℚ) (target : ℚ) :
    (sortedDistances xs target).length = xs.length := by
  rw [sortedDistances, List.length_insertionSort, List.length_map]

/-- The sorted distances do not depend on the order of the points. -/
lemma sortedDistances_perm {xs others : List ℚ} (h : xs.Perm others) (target : ℚ) :
    sortedDistances xs target = sortedDistances others target := by
  have hperm : (sortedDistances xs target).Perm (sortedDistances others target) :=
    (List.perm_insertionSort _ _).trans ((h.map _).trans (List.perm_insertionSort _ _).symm)
  exact hperm.eq_of_pairwise' (List.pairwise_insertionSort _ _) (List.pairwise_insertionSort _ _)

lemma radius_perm {xs others : List ℚ} (h : xs.Perm others) (neighbours : ℤ) (target : ℚ) :
    radius xs neighbours target = radius others neighbours target := by
  rw [radius, radius, sortedDistances_perm h, h.length_eq]

section

variable {xs : List ℚ} (hxs : xs ≠ [])

include hxs

/-- Among the sorted distances there is one with the number of the farthest neighbour. -/
lemma neighbour_lt_length (neighbours : ℤ) (target : ℚ) :
    (min neighbours xs.length - 1).toNat < (sortedDistances xs target).length := by
  rw [length_sortedDistances]
  have hlength := List.length_pos_of_ne_nil hxs
  omega

/-- The radius is the distance of a point. -/
lemma exists_distance_eq_radius (neighbours : ℤ) (target : ℚ) :
    ∃ x ∈ xs, |x - target| = radius xs neighbours target := by
  have hlt := neighbour_lt_length hxs neighbours target
  have hmem : radius xs neighbours target ∈ sortedDistances xs target := by
    rw [radius, List.getD_eq_getElem _ _ hlt]
    exact List.getElem_mem hlt
  exact List.mem_map.mp ((List.mem_insertionSort _).mp hmem)

lemma radius_nonneg (neighbours : ℤ) (target : ℚ) : 0 ≤ radius xs neighbours target := by
  obtain ⟨x, -, hx⟩ := exists_distance_eq_radius hxs neighbours target
  exact hx ▸ abs_nonneg _

end

/-! ## The weight -/

/-- What a point at the distance `d` weighs if the radius is `r`. -/
def kernel (r d : ℚ) : ℚ :=
  if r = 0 then 1 else if r < d then 0 else (1 - (d / r) ^ 3) ^ 3

section

variable {r d : ℚ} (hr : 0 ≤ r) (hd : 0 ≤ d)

include hr hd

/-- Inside a radius the third power of the relative distance is at most one. -/
lemma relative_cube_le_one (h : d ≤ r) : (d / r) ^ 3 ≤ 1 :=
  pow_le_one₀ (div_nonneg hd hr) (div_le_one_of_le₀ h hr)

lemma kernel_nonneg : 0 ≤ kernel r d := by
  unfold kernel
  split_ifs with hzero hfar
  · exact zero_le_one
  · exact le_rfl
  · exact pow_nonneg (sub_nonneg.mpr (relative_cube_le_one hr hd (not_lt.mp hfar))) 3

/-- Nothing weigh the points at the radius and beyond. -/
lemma kernel_eq_zero_iff : kernel r d = 0 ↔ 0 < r ∧ r ≤ d := by
  unfold kernel
  split_ifs with hzero hfar
  · simp [hzero]
  · exact iff_of_true rfl ⟨lt_of_le_of_ne hr (Ne.symm hzero), hfar.le⟩
  · have hpos : 0 < r := lt_of_le_of_ne hr (Ne.symm hzero)
    have hcube : (d / r) ^ 3 = 1 ↔ d / r = 1 :=
      pow_eq_one_iff_of_nonneg (div_nonneg hd hr) (by decide)
    rw [pow_eq_zero_iff (by decide), sub_eq_zero, eq_comm, hcube, div_eq_one_iff_eq hzero]
    exact ⟨fun h => ⟨hpos, h.ge⟩, fun h => le_antisymm (not_lt.mp hfar) h.2⟩

end

/-! ## The computed weights -/

lemma ascending_rat : (ascending : ℚ → ℚ → Bool) = fun a b => decide (a ≤ b) := by
  funext a b
  rw [ascending, Scalar.le_rat, Scalar.isUndefined_rat, Bool.or_false]

lemma pick?_of_nonneg {β : Type} {xs : List β} {place : ℤ} (h : 0 ≤ place) :
    pick? xs place = xs[place.toNat]? := by
  rw [pick?, if_neg (not_lt.mpr h)]

lemma cube_rat (q : ℚ) : cube q = q ^ 3 := by
  rw [cube, pow_three']

/-- The computed weights are those of the points' distances. -/
theorem tricubeWeights_rat {xs : List ℚ} {neighbours : ℤ} (hxs : xs ≠ [])
    (hneighbours : 1 ≤ neighbours) (target : ℚ) :
    tricubeWeights xs target neighbours =
      xs.map fun x => kernel (radius xs neighbours target) |x - target| := by
  have hplace : 0 ≤ min neighbours (xs.length : ℤ) - 1 := by
    have hlength := List.length_pos_of_ne_nil hxs
    omega
  have hpick : pick? (sortedDistances xs target) (min neighbours xs.length - 1) =
      some (radius xs neighbours target) := by
    have hlt := neighbour_lt_length hxs neighbours target
    rw [pick?_of_nonneg hplace, radius, List.getD_eq_getElem _ _ hlt,
      List.getElem?_eq_getElem hlt]
  have hsorted := List.mergeSort_eq_insertionSort (· ≤ ·) (xs.map fun x => |x - target|)
  simp only [tricubeWeights, ascending_rat, Scalar.abs_rat]
  rw [hsorted, ← sortedDistances, hpick]
  by_cases hzero : radius xs neighbours target = 0
  · simp [hzero, kernel, Function.comp_def]
  · simp [hzero, kernel, cube_rat]

end Loess

end CausalEquations
