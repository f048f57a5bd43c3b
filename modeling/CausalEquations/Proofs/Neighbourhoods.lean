import CausalEquations.Proofs.TricubeWeights

/-!
# How far the weights of points reach

Seen from a position, a point never weighs more than a nearer one. The neighbourhood ends at the
radius, the `k`-th smallest distance: from there on points weigh nothing. But if the nearest `k`
points all stand at the position, the radius is zero and there is no end: then every point weighs
one, however far it is.

* `IsKthLeast`, `IsKthLeast.unique` — the `k`-th smallest number of a list, said by counting.
* `Loess.isKthLeast_radius` — the radius is the `k`-th smallest distance.
* `Loess.FallsOff`, `Loess.fallsOff_kernel` — how the weight depends on the distance.
* `Loess.tricubeWeights_fall` — the computed weights, and when the neighbourhood ends.
-/

namespace CausalEquations

/-! ## The k-th smallest number -/

/-- Fewer than `k` numbers of the list are smaller than `q`, and at least `k` are not larger. -/
structure IsKthLeast (k : ℕ) (l : List ℚ) (q : ℚ) : Prop where
  countP_lt : l.countP (· < q) < k
  le_countP : k ≤ l.countP (· ≤ q)

instance (k : ℕ) (l : List ℚ) (q : ℚ) : Decidable (IsKthLeast k l q) :=
  decidable_of_iff (l.countP (· < q) < k ∧ k ≤ l.countP (· ≤ q))
    ⟨fun h => ⟨h.1, h.2⟩, fun h => ⟨h.1, h.2⟩⟩

namespace IsKthLeast

variable {k : ℕ} {l l' : List ℚ} {p q : ℚ}

/-- What is not larger than `q` is smaller than any larger number. -/
lemma le (hp : IsKthLeast k l p) (hq : IsKthLeast k l q) : p ≤ q := by
  by_contra! hlt
  have hcount : l.countP (· ≤ q) ≤ l.countP (· < p) := by
    refine List.countP_mono_left fun x _ hx => ?_
    simp only [decide_eq_true_eq] at hx ⊢
    exact hx.trans_lt hlt
  exact (hp.countP_lt.trans_le hq.le_countP).not_ge hcount

lemma unique (hp : IsKthLeast k l p) (hq : IsKthLeast k l q) : p = q :=
  le_antisymm (hp.le hq) (hq.le hp)

lemma perm (h : IsKthLeast k l q) (hperm : l.Perm l') : IsKthLeast k l' q :=
  ⟨hperm.countP_eq _ ▸ h.countP_lt, hperm.countP_eq _ ▸ h.le_countP⟩

/-- In a sorted list as many numbers are not larger as stand in front. -/
lemma of_sorted {front back : List ℚ} (h : (front ++ q :: back).Pairwise (· ≤ ·)) :
    IsKthLeast (front.length + 1) (front ++ q :: back) q := by
  obtain ⟨-, hback, hfront⟩ := List.pairwise_append.mp h
  constructor
  case countP_lt =>
    have hnone : (q :: back).countP (· < q) = 0 := by
      rw [List.countP_eq_zero]
      refine List.forall_mem_cons.mpr ⟨by simp, fun x hx => ?_⟩
      simpa using List.rel_of_pairwise_cons hback hx
    rw [List.countP_append, hnone]
    exact Nat.lt_succ_of_le List.countP_le_length
  case le_countP =>
    have hall : front.countP (· ≤ q) = front.length :=
      List.countP_eq_length.mpr fun x hx => by simpa using hfront x hx q List.mem_cons_self
    rw [List.countP_append, hall, List.countP_cons_of_pos (by simp)]
    omega

end IsKthLeast

namespace Loess

section

variable {xs : List ℚ} {neighbours : ℤ} (hxs : xs ≠ []) (hneighbours : 1 ≤ neighbours)

include hxs hneighbours

/-- **The radius is the `k`-th smallest distance**, for at most as many neighbours as there are
points. -/
theorem isKthLeast_radius (target : ℚ) :
    IsKthLeast (min neighbours xs.length).toNat (xs.map fun x => |x - target|)
      (radius xs neighbours target) := by
  have hlt := neighbour_lt_length hxs neighbours target
  have hlength := List.length_pos_of_ne_nil hxs
  have hk : (min neighbours xs.length).toNat = (min neighbours xs.length - 1).toNat + 1 := by omega
  have hradius := List.getD_eq_getElem (sortedDistances xs target) 0 hlt
  rw [hk, radius, hradius]
  generalize (min neighbours (xs.length : ℤ) - 1).toNat = place at hlt
  have hsorted : (sortedDistances xs target).Pairwise (· ≤ ·) := List.pairwise_insertionSort _ _
  have hsplit : (sortedDistances xs target).take place ++
      (sortedDistances xs target)[place] :: (sortedDistances xs target).drop (place + 1) =
        sortedDistances xs target := by
    rw [← List.drop_eq_getElem_cons, List.take_append_drop]
  have hplace : ((sortedDistances xs target).take place).length = place :=
    List.length_take_of_le hlt.le
  have hkth := IsKthLeast.of_sorted (hsplit.symm ▸ hsorted)
  rw [hsplit, hplace] at hkth
  exact hkth.perm (List.perm_insertionSort _ _)

end

/-! ## Weights by distance -/

/-- At these distances the weights lie between zero and one and never rise with the distance. They
vanish from the radius on; if the radius is zero, all are one instead. -/
structure FallsOff (distances : List ℚ) (r : ℚ) (weight : ℚ → ℚ) : Prop where
  unit : ∀ d ∈ distances, 0 ≤ weight d ∧ weight d ≤ 1
  antitone : ∀ d ∈ distances, ∀ d' ∈ distances, d ≤ d' → weight d' ≤ weight d
  eq_zero_iff : 0 < r → ∀ d ∈ distances, weight d = 0 ↔ r ≤ d
  eq_one : r = 0 → ∀ d ∈ distances, weight d = 1

section

variable {r d d' : ℚ} (hr : 0 ≤ r) (hd : 0 ≤ d)

include hr hd

lemma kernel_le_one : kernel r d ≤ 1 := by
  unfold kernel
  split_ifs with hzero hfar
  · exact le_rfl
  · exact zero_le_one
  · have hcube : (d / r) ^ 3 ≤ 1 := relative_cube_le_one hr hd (not_lt.mp hfar)
    have hnonneg : 0 ≤ (d / r) ^ 3 := pow_nonneg (div_nonneg hd hr) 3
    exact pow_le_one₀ (sub_nonneg.mpr hcube) (sub_le_self 1 hnonneg)

/-- A farther point does not weigh more. -/
lemma kernel_antitone (h : d ≤ d') : kernel r d' ≤ kernel r d := by
  have hd' : 0 ≤ d' := hd.trans h
  rcases hr.eq_or_lt with hzero | hpos
  · simp [kernel, ← hzero]
  rcases lt_or_ge r d' with hfar | hnear
  · rw [(kernel_eq_zero_iff hr hd').mpr ⟨hpos, hfar.le⟩]
    exact kernel_nonneg hr hd
  · have hcubes : (d / r) ^ 3 ≤ (d' / r) ^ 3 :=
      pow_le_pow_left₀ (div_nonneg hd hr) (div_le_div_of_nonneg_right h hr) 3
    rw [kernel, kernel, if_neg hpos.ne', if_neg hpos.ne', if_neg hnear.not_gt,
      if_neg (h.trans hnear).not_gt]
    exact pow_le_pow_left₀ (sub_nonneg.mpr (relative_cube_le_one hr hd' hnear))
      (sub_le_sub_left hcubes 1) 3

end

lemma fallsOff_kernel {distances : List ℚ} {r : ℚ} (hr : 0 ≤ r)
    (hdistances : ∀ d ∈ distances, 0 ≤ d) : FallsOff distances r (kernel r) where
  unit d hd := ⟨kernel_nonneg hr (hdistances d hd), kernel_le_one hr (hdistances d hd)⟩
  antitone d hd _ _ h := kernel_antitone hr (hdistances d hd) h
  eq_zero_iff hpos d hd := by
    rw [kernel_eq_zero_iff hr (hdistances d hd), and_iff_right hpos]
  eq_one hzero d _ := by rw [kernel, if_pos hzero]

/-- The neighbourhood ends at the radius unless that is zero and some point is farther. -/
lemma FallsOff.ends_iff {distances : List ℚ} {r : ℚ} {weight : ℚ → ℚ}
    (h : FallsOff distances r weight) (hr : 0 ≤ r) :
    (∀ d ∈ distances, r < d → weight d = 0) ↔ 0 < r ∨ ∀ d ∈ distances, d ≤ 0 := by
  rcases hr.eq_or_lt with rfl | hpos
  · simp only [lt_irrefl, false_or]
    refine forall₂_congr fun d hd => ?_
    rw [h.eq_one rfl d hd, ← not_lt]
    simp
  · exact iff_of_true (fun d hd hfar => (h.eq_zero_iff hpos d hd).mpr hfar.le) (.inl hpos)

/-! ## The computed weights -/

/-- **Weights of points.** The weight of a point is a function of its distance from the target that
lies between zero and one and never rises, with the `k`-th smallest distance as radius. Every point
strictly farther than the radius weighs nothing exactly if the radius is not zero or all points
stand at the target; at the radius zero every point weighs one. -/
theorem tricubeWeights_fall {xs : List ℚ} {neighbours : ℤ} (hxs : xs ≠ [])
    (hneighbours : 1 ≤ neighbours) (target : ℚ) :
    let distances := xs.map fun x => |x - target|
    ∃ (r : ℚ) (weight : ℚ → ℚ),
      (∀ d, IsKthLeast (min neighbours xs.length).toNat distances d ↔ d = r) ∧
      tricubeWeights xs target neighbours = distances.map weight ∧
      FallsOff distances r weight ∧
      ((∀ d ∈ distances, r < d → weight d = 0) ↔ 0 < r ∨ ∀ x ∈ xs, x = target) := by
  intro distances
  have hr := radius_nonneg hxs neighbours target
  have hdistances : ∀ d ∈ distances, 0 ≤ d := by simp [distances]
  have hkth := isKthLeast_radius hxs hneighbours target
  have hfalls := fallsOff_kernel hr hdistances
  refine ⟨radius xs neighbours target, kernel (radius xs neighbours target),
    fun d => ⟨fun hd => hd.unique hkth, fun hd => hd ▸ hkth⟩, ?_, hfalls, ?_⟩
  · rw [tricubeWeights_rat hxs hneighbours, List.map_map]
    rfl
  · rw [hfalls.ends_iff hr]
    simp [distances, sub_eq_zero]

/-- Two points are as far away as the farthest of the three nearest. -/
theorem tricubeWeights_fall_ties :
    ∃ weight : ℚ → ℚ, tricubeWeights [5, 8, 7, 4, 9] (6 : ℚ) 3 = [1, 2, 1, 2, 3].map weight ∧
      FallsOff [1, 2, 1, 2, 3] 2 weight ∧ weight 3 = 0 := by
  obtain ⟨r, weight, hr, hweights, hfalls, hends⟩ :=
    tricubeWeights_fall (List.cons_ne_nil 5 [8, 7, 4, 9]) (by norm_num : (1 : ℤ) ≤ 3) 6
  have hdistances : ([5, 8, 7, 4, 9] : List ℚ).map (fun x => |x - 6|) = [1, 2, 1, 2, 3] := by
    decide +kernel
  simp only [hdistances] at hr hweights hfalls hends
  obtain rfl : 2 = r := (hr 2).mp (by decide +kernel)
  exact ⟨weight, hweights, hfalls, hends.mpr (.inl two_pos) 3 (by simp) (by decide +kernel)⟩

/-- The three nearest points stand at the target, so the third smallest distance is zero; the fourth
point is farther and weighs as much as they do. Among the four nearest it would weigh nothing. -/
theorem tricubeWeights_beyond :
    let xs : List ℚ := [5, 5, 5, 9]
    IsKthLeast 3 (xs.map fun x => |x - 5|) 0 ∧
      tricubeWeights xs 5 3 = [1, 1, 1, 1] ∧ tricubeWeights xs 5 4 = [1, 1, 1, 0] ∧
      ¬ ∀ p ∈ xs.zip (tricubeWeights xs 5 3), 0 < |p.1 - 5| → p.2 = 0 := by
  intro xs
  have hthree : tricubeWeights xs 5 3 = [1, 1, 1, 1] := by
    rw [tricubeWeights_rat (List.cons_ne_nil _ _) (by decide)]
    decide +kernel
  have hfour : tricubeWeights xs 5 4 = [1, 1, 1, 0] := by
    rw [tricubeWeights_rat (List.cons_ne_nil _ _) (by decide)]
    decide +kernel
  refine ⟨by decide +kernel, hthree, hfour, fun hends => ?_⟩
  rw [hthree] at hends
  exact one_ne_zero (hends (9, 1) (by simp [xs]) (by decide +kernel))

end Loess

end CausalEquations
