import CausalEquations.Proofs.LinearSystems
import CausalEquations.Statistics.Residual

/-!
# What residuals are

The outcome of removing the effect of controls is decided in a fixed order, for any numbers. Over
the rationals the normal equations are solved exactly: the residuals are orthogonal to the design,
that is to the constants and to every control, and differ from the raw values by an affine
combination of the controls. Controls that depend on each other have singular normal equations.

* `Sample.Measures`, `StatusRule`, `statusRule_residualize` — when there are which outcomes.
* `design`, `residualsOf?_eq_some`, `residualsOf?_eq_none` — the fit in terms of matrices.
* `IsResidual`, `AffinelyDependent` — what is promised of residuals, and when there are none.
* `residualize_outcomes` — the outcomes, the residuals, and dependent controls.
-/

namespace CausalEquations

/-! ## Readings -/

section

variable {α β : Type}

lemma mapM_cons_eq_some_iff {f : α → Option β} {a : α} {rest : List α} {results : List β} :
    (a :: rest).mapM f = some results ↔
      ∃ b bs, f a = some b ∧ rest.mapM f = some bs ∧ results = b :: bs := by
  rw [List.mapM_cons]
  cases f a with
  | none => simp
  | some b =>
      cases rest.mapM f with
      | none => simp
      | some bs => simp [eq_comm]

/-- A list of partial results is complete exactly if each of them is there. -/
lemma mapM_eq_some_iff {f : α → Option β} {l : List α} {results : List β} :
    l.mapM f = some results ↔ l.map f = results.map some := by
  induction l generalizing results with
  | nil => cases results <;> simp
  | cons a rest ih =>
      rw [mapM_cons_eq_some_iff, List.map_cons]
      cases results with
      | nil => simp
      | cons b bs => simp [ih]

lemma exists_mapM_iff {f : α → Option β} {l : List α} :
    (∃ results, l.mapM f = some results) ↔ ∀ a ∈ l, ∃ b, f a = some b := by
  induction l with
  | nil => simp
  | cons a rest ih =>
      rw [List.forall_mem_cons, ← ih]
      simp only [mapM_cons_eq_some_iff]
      constructor
      · rintro ⟨-, b, bs, hb, hbs, -⟩
        exact ⟨⟨b, hb⟩, bs, hbs⟩
      · rintro ⟨⟨b, hb⟩, bs, hbs⟩
        exact ⟨b :: bs, b, bs, hb, hbs, rfl⟩

end

/-- The sample has a finite number for the variable. -/
def Sample.Measures {ι α : Type} [Scalar α] (s : Sample ι α) (key : Name) : Prop :=
  ∃ v, s.value? key = some v ∧ Scalar.isFinite v = true

section

variable {ι α : Type} [Scalar α]

/-- In which cases the effect of the controls is removed with which outcome. -/
structure StatusRule (samples : List (Sample ι α)) (x y : Name) (controls : List Name)
    (status : ResidualStatus) : Prop where
  raw_iff : status = .raw ↔ controls = []
  insufficient_iff : controls ≠ [] →
    (status = .insufficient ↔ samples.length < controls.length + 2)
  invalid_iff : controls ≠ [] → controls.length + 2 ≤ samples.length →
    (status = .invalid ↔ ∃ s ∈ samples, ∃ key ∈ x :: y :: controls, ¬ s.Measures key)
  otherwise : controls ≠ [] → controls.length + 2 ≤ samples.length →
    (∀ s ∈ samples, ∀ key ∈ x :: y :: controls, s.Measures key) →
      status = .singular ∨ status = .adjusted

lemma finite?_eq_some_iff {datum : Option α} {v : α} :
    finite? datum = some v ↔ datum = some v ∧ Scalar.isFinite v = true :=
  Option.filter_eq_some_iff

lemma exists_observed?_iff {samples : List (Sample ι α)} {key : Name} :
    (∃ values, observed? samples key = some values) ↔ ∀ s ∈ samples, s.Measures key := by
  simp only [observed?, exists_mapM_iff, finite?_eq_some_iff]
  rfl

/-- What the fit goes on with: the read values, if all of them are finite numbers. -/
lemma exists_observations_iff {samples : List (Sample ι α)} {x y : Name} {controls : List Name} :
    (∃ xs ys columns, observed? samples x = some xs ∧ observed? samples y = some ys ∧
      controls.mapM (observed? samples) = some columns) ↔
      ∀ s ∈ samples, ∀ key ∈ x :: y :: controls, s.Measures key := by
  have hsplit : (∀ s ∈ samples, ∀ key ∈ x :: y :: controls, s.Measures key) ↔
      (∀ s ∈ samples, s.Measures x) ∧ (∀ s ∈ samples, s.Measures y) ∧
        ∀ key ∈ controls, ∀ s ∈ samples, s.Measures key := by
    simp only [List.forall_mem_cons]
    exact ⟨fun h => ⟨fun s hs => (h s hs).1, fun s hs => (h s hs).2.1,
      fun key hkey s hs => (h s hs).2.2 key hkey⟩,
      fun h s hs => ⟨h.1 s hs, h.2.1 s hs, fun key hkey => h.2.2 key hkey s hs⟩⟩
  rw [hsplit]
  simp only [← exists_observed?_iff, ← exists_mapM_iff]
  exact ⟨fun ⟨xs, ys, columns, hx, hy, hcolumns⟩ => ⟨⟨xs, hx⟩, ⟨ys, hy⟩, columns, hcolumns⟩,
    fun ⟨⟨xs, hx⟩, ⟨ys, hy⟩, columns, hcolumns⟩ => ⟨xs, ys, columns, hx, hy, hcolumns⟩⟩

/-- The design: for each sample a one and the values of the controls. -/
def designRows (count : ℕ) (columns : List (List α)) : List (List α) :=
  (List.range count).map fun i => Scalar.one :: columns.map fun c => c.getD i Scalar.zero

/-- The outcome of the two fits. -/
def outcomeOf (samples : List (Sample ι α)) : Option (List α) → Option (List α) → Residuals ι α
  | some rx, some ry =>
    ⟨List.zipWith (fun p s => ⟨some p.1, some p.2, s.id⟩) (rx.zip ry) samples, .adjusted⟩
  | _, _ => ⟨[], .singular⟩

omit [Scalar α] in
lemma outcomeOf_status (samples : List (Sample ι α)) (fitX fitY : Option (List α)) :
    (outcomeOf samples fitX fitY).status = .singular ∨
      (outcomeOf samples fitX fitY).status = .adjusted := by
  cases fitX with
  | none => exact .inl rfl
  | some rx => cases fitY <;> simp [outcomeOf]

/-- All ways in which removing the effect of controls can end. -/
lemma residualize_cases (samples : List (Sample ι α)) (x y : Name) (controls : List Name) :
    (controls = [] ∧ (residualize samples x y controls).status = .raw) ∨
    (controls ≠ [] ∧ samples.length < controls.length + 2 ∧
      (residualize samples x y controls).status = .insufficient) ∨
    (controls ≠ [] ∧ controls.length + 2 ≤ samples.length ∧
      (¬ ∀ s ∈ samples, ∀ key ∈ x :: y :: controls, s.Measures key) ∧
      (residualize samples x y controls).status = .invalid) ∨
    (controls ≠ [] ∧ controls.length + 2 ≤ samples.length ∧
      ∃ xs ys columns, observed? samples x = some xs ∧ observed? samples y = some ys ∧
        controls.mapM (observed? samples) = some columns ∧
        residualize samples x y controls = outcomeOf samples
          (residualsOf? (controls.length + 1) (designRows samples.length columns) xs)
          (residualsOf? (controls.length + 1) (designRows samples.length columns) ys)) := by
  unfold residualize
  by_cases hcontrols : controls = []
  · exact .inl ⟨hcontrols, by simp [hcontrols]⟩
  · rw [if_neg (by simpa using hcontrols)]
    by_cases hshort : samples.length < controls.length + 2
    · exact .inr (.inl ⟨hcontrols, hshort, by rw [if_pos hshort]⟩)
    · rw [if_neg hshort]
      refine .inr (.inr ?_)
      rw [← exists_observations_iff]
      split
      · rename_i xs ys columns hx hy hcolumns
        exact .inr ⟨hcontrols, not_lt.mp hshort, xs, ys, columns, hx, hy, hcolumns, rfl⟩
      · rename_i hnone
        refine .inl ⟨hcontrols, not_lt.mp hshort, ?_, rfl⟩
        rintro ⟨xs, ys, columns, hx, hy, hcolumns⟩
        exact hnone xs ys columns hx hy hcolumns

/-- **The outcome is decided in a fixed order**, whatever the numbers are. -/
theorem statusRule_residualize (samples : List (Sample ι α)) (x y : Name) (controls : List Name) :
    StatusRule samples x y controls (residualize samples x y controls).status := by
  rcases residualize_cases samples x y controls with ⟨hnone, hstatus⟩ | ⟨hsome, hshort, hstatus⟩ |
    ⟨hsome, henough, hbad, hstatus⟩ |
    ⟨hsome, henough, xs, ys, columns, hx, hy, hcolumns, hresult⟩
  · rw [hstatus]
    exact ⟨by simp [hnone], fun h => absurd hnone h, fun h => absurd hnone h,
      fun h => absurd hnone h⟩
  · rw [hstatus]
    exact ⟨by simp [hsome], fun _ => by simp [hshort], fun _ h => absurd hshort h.not_gt,
      fun _ h => absurd hshort h.not_gt⟩
  · rw [hstatus]
    refine ⟨by simp [hsome], fun _ => by simp [henough.not_gt], fun _ _ => iff_of_true rfl ?_,
      fun _ _ h => absurd h hbad⟩
    push Not at hbad
    exact hbad
  · have hread : ∀ s ∈ samples, ∀ key ∈ x :: y :: controls, s.Measures key :=
      exists_observations_iff.mp ⟨xs, ys, columns, hx, hy, hcolumns⟩
    have hend : (residualize samples x y controls).status = .singular ∨
        (residualize samples x y controls).status = .adjusted := by
      rw [hresult]
      exact outcomeOf_status _ _ _
    have hgood : ¬ ∃ s ∈ samples, ∃ key ∈ x :: y :: controls, ¬ s.Measures key :=
      fun ⟨s, hs, key, hkey, hbad⟩ => hbad (hread s hs key hkey)
    refine ⟨?_, fun _ => ?_, fun _ _ => ?_, fun _ _ _ => hend⟩
    · rcases hend with h | h <;> simp [h, hsome]
    · rcases hend with h | h <;> simp [h, henough.not_gt]
    · rcases hend with h | h <;> simp only [h, hgood, reduceCtorEq]

end

/-! ## The fit in exact arithmetic -/

open Matrix

section

variable {m w : ℕ}

lemma columnsOf_ofFn (M : Matrix (Fin m) (Fin w) ℚ) :
    columnsOf w (List.ofFn fun i => List.ofFn (M i)) =
      List.ofFn fun j => List.ofFn fun i => M i j := by
  refine List.ext_getElem (by simp [columnsOf]) fun j hj hj' => ?_
  refine List.ext_getElem (by simp [columnsOf]) fun i hi hi' => ?_
  have hj'' : j < w := by simpa using hj'
  simp [columnsOf, hj'']

lemma normalMatrix_ofFn (M : Matrix (Fin m) (Fin w) ℚ) :
    normalMatrix (List.ofFn fun j => List.ofFn fun i => M i j) = rowsOf (Mᵀ * M) := by
  simp only [normalMatrix, List.map_ofFn, rowsOf, Function.comp_def, dot_ofFn]
  rfl

/-- The fit to the rows of a matrix solves its normal equations. -/
lemma residualsOf?_ofFn (M : Matrix (Fin m) (Fin w) ℚ) (outcomes : Fin m → ℚ) :
    residualsOf? w (List.ofFn fun i => List.ofFn (M i)) (List.ofFn outcomes) =
      (solve (rowsOf (Mᵀ * M)) (List.ofFn (Mᵀ *ᵥ outcomes)) Scalar.epsilon).map fun coefficients =>
        List.zipWith (fun row outcome => outcome - Scalar.dot row coefficients)
          (List.ofFn fun i => List.ofFn (M i)) (List.ofFn outcomes) := by
  have hproducts : (List.ofFn fun j => List.ofFn fun i => M i j).map
      (fun c => Scalar.dot c (List.ofFn outcomes)) = List.ofFn (Mᵀ *ᵥ outcomes) := by
    simp only [List.map_ofFn, Function.comp_def, dot_ofFn]
    rfl
  simp only [residualsOf?, columnsOf_ofFn, normalMatrix_ofFn, hproducts]
  cases solve (rowsOf (Mᵀ * M)) (List.ofFn (Mᵀ *ᵥ outcomes)) Scalar.epsilon <;> rfl

lemma epsilon_pos : (0 : ℚ) < Scalar.epsilon := by norm_num

/-- **Residuals are orthogonal to the design**, and what is subtracted is a combination of it. -/
lemma residualsOf?_eq_some {M : Matrix (Fin m) (Fin w) ℚ} {outcomes : Fin m → ℚ}
    {residuals : List ℚ}
    (h : residualsOf? w (List.ofFn fun i => List.ofFn (M i)) (List.ofFn outcomes) =
      some residuals) :
    ∃ c, residuals = List.ofFn (outcomes - M *ᵥ c) ∧ Mᵀ *ᵥ (outcomes - M *ᵥ c) = 0 := by
  rw [residualsOf?_ofFn] at h
  obtain ⟨coefficients, hsolve, rfl⟩ := Option.map_eq_some_iff.mp h
  obtain ⟨c, rfl, hc, -⟩ := solution_of_solve _ _ epsilon_pos hsolve
  refine ⟨c, ?_, ?_⟩
  · refine List.ext_getElem (by simp) fun i hi hi' => ?_
    rw [List.getElem_zipWith, List.getElem_ofFn, List.getElem_ofFn, List.getElem_ofFn, dot_ofFn]
    rfl
  · rw [Matrix.mulVec_sub, Matrix.mulVec_mulVec, hc, sub_self]

/-- Columns that depend on each other have no fit. -/
lemma residualsOf?_eq_none {M : Matrix (Fin m) (Fin w) ℚ} {k : Fin w → ℚ} (hk : k ≠ 0)
    (hzero : M *ᵥ k = 0) (outcomes : Fin m → ℚ) :
    residualsOf? w (List.ofFn fun i => List.ofFn (M i)) (List.ofFn outcomes) = none := by
  have hdet : (Mᵀ * M).det = 0 := by
    refine Matrix.exists_mulVec_eq_zero_iff.mp ⟨k, hk, ?_⟩
    rw [← Matrix.mulVec_mulVec, hzero, Matrix.mulVec_zero]
  rw [residualsOf?_ofFn, solve_eq_none _ _ epsilon_pos hdet, Option.map_none]

end

/-! ## Samples of rational numbers -/

section

variable {ι : Type}

/-- The value that a sample holds for a variable, zero if there is none. -/
def Sample.reading (s : Sample ι ℚ) (key : Name) : ℚ := (s.value? key).getD 0

/-- The residuals sum up to zero, are orthogonal to every control, and differ from the values of the
variable by an affine combination of the controls. -/
structure IsResidual (samples : List (Sample ι ℚ)) (key : Name) (controls : List Name)
    (r : Fin samples.length → ℚ) : Prop where
  sum_eq_zero : ∑ i, r i = 0
  orthogonal : ∀ control ∈ controls, ∑ i, r i * samples[i].reading control = 0
  affine : ∃ (intercept : ℚ) (slopes : Fin controls.length → ℚ), ∀ i, r i =
    samples[i].reading key - (intercept + ∑ j, slopes j * samples[i].reading controls[j])

/-- Some combination of the controls, not all of its coefficients zero, has the same value in all
samples. -/
def AffinelyDependent (samples : List (Sample ι ℚ)) (controls : List Name) : Prop :=
  ∃ (intercept : ℚ) (slopes : Fin controls.length → ℚ), slopes ≠ 0 ∧
    ∀ s ∈ samples, intercept + ∑ j, slopes j * s.reading controls[j] = 0

/-- The values of all samples for a variable. -/
def readings (samples : List (Sample ι ℚ)) (key : Name) : Fin samples.length → ℚ :=
  fun i => samples[i].reading key

/-- The design of the fit: ones, and the values of the controls. -/
def design (samples : List (Sample ι ℚ)) (controls : List Name) :
    Matrix (Fin samples.length) (Fin (controls.length + 1)) ℚ :=
  Matrix.of fun i => Fin.cons 1 fun j => samples[i].reading controls[j]

variable {samples : List (Sample ι ℚ)} {controls : List Name}

/-- What is observed are the values of the samples. -/
lemma observed?_rat {key : Name} {values : List ℚ} (h : observed? samples key = some values) :
    values = samples.map fun s => s.reading key := by
  have hdata := congrArg (List.map fun datum => datum.getD 0) (mapM_eq_some_iff.mp h)
  have hfinite : ∀ s : Sample ι ℚ, (finite? (s.value? key)).getD 0 = s.reading key := by
    intro s
    rw [Sample.reading]
    cases s.value? key <;> rfl
  simpa [Function.comp_def, hfinite] using hdata.symm

lemma design_row (i : Fin samples.length) :
    List.ofFn (design samples controls i) = 1 :: controls.map fun c => samples[i].reading c := by
  rw [← List.ofFn_getElem_eq_map controls fun c => samples[i].reading c]
  simp [design, List.ofFn_succ]

lemma designRows_rat {columns : List (List ℚ)}
    (h : controls.mapM (observed? samples) = some columns) :
    designRows samples.length columns =
      List.ofFn fun i => List.ofFn (design samples controls i) := by
  have hcolumns : columns = controls.map fun c => samples.map fun s => s.reading c := by
    refine List.map_injective_iff.mpr (Option.some_injective _) ?_
    rw [← mapM_eq_some_iff.mp h, List.map_map]
    refine List.map_congr_left fun c hc => ?_
    obtain ⟨column, hcolumn⟩ := exists_mapM_iff.mp ⟨columns, h⟩ c hc
    rw [hcolumn, Function.comp_apply, observed?_rat hcolumn]
  refine List.ext_getElem (by simp [designRows]) fun i hi hi' => ?_
  have hcount : i < samples.length := by simpa using hi'
  rw [List.getElem_ofFn, design_row]
  simp [designRows, hcolumns, Function.comp_def, hcount]

lemma mulVec_design (c : Fin (controls.length + 1) → ℚ) (i : Fin samples.length) :
    (design samples controls *ᵥ c) i =
      c 0 + ∑ j : Fin controls.length, c j.succ * samples[i].reading controls[j] := by
  simp [Matrix.mulVec, dotProduct, Fin.sum_univ_succ, design, mul_comm]

/-- **What is left by the fit are residuals.** -/
lemma isResidual_of_fit {key : Name} {c : Fin (controls.length + 1) → ℚ}
    (h : (design samples controls)ᵀ *ᵥ
      (readings samples key - design samples controls *ᵥ c) = 0) :
    IsResidual samples key controls (readings samples key - design samples controls *ᵥ c) := by
  generalize hr : readings samples key - design samples controls *ᵥ c = r at h ⊢
  refine ⟨?_, fun control hcontrol => ?_, c 0, fun j => c j.succ, fun i => ?_⟩
  · have hones := congrFun h 0
    simpa [Matrix.mulVec, dotProduct, design] using hones
  · obtain ⟨j, rfl⟩ := List.get_of_mem hcontrol
    have hcolumn := congrFun h j.succ
    simpa [Matrix.mulVec, dotProduct, design, mul_comm] using hcolumn
  · rw [← hr, Pi.sub_apply, mulVec_design, readings]

/-- Controls that depend on each other leave the columns of the design dependent. -/
lemma exists_kernel_of_dependent (h : AffinelyDependent samples controls) :
    ∃ k, k ≠ 0 ∧ design samples controls *ᵥ k = 0 := by
  obtain ⟨intercept, slopes, hslopes, hzero⟩ := h
  refine ⟨Fin.cons intercept slopes, fun heq => hslopes ?_, funext fun i => ?_⟩
  · funext j
    simpa using congrFun heq j.succ
  · rw [mulVec_design]
    simpa using hzero samples[i] (List.getElem_mem _)

/-- A control that is given twice depends on itself. -/
lemma affinelyDependent_of_repeated (h : ¬ controls.Nodup) :
    AffinelyDependent samples controls := by
  obtain ⟨i, j, hsame, hne⟩ : ∃ i j, controls.get i = controls.get j ∧ i ≠ j := by
    simpa [List.nodup_iff_injective_get, Function.Injective] using h
  refine ⟨0, Pi.single i 1 - Pi.single j 1, fun hzero => ?_, fun s _ => ?_⟩
  · have hi := congrFun hzero i
    simp [hne] at hi
  · have hreading : s.reading controls[i] = s.reading controls[j] := congrArg s.reading hsame
    simp only [Pi.sub_apply, sub_mul, Finset.sum_sub_distrib, Pi.single_apply, ite_mul, one_mul,
      zero_mul, Finset.sum_ite_eq', Finset.mem_univ, if_true, hreading, sub_self, add_zero]

/-- A constant control depends on no other. -/
lemma affinelyDependent_of_constant {control : Name} (hcontrol : control ∈ controls) {v : ℚ}
    (h : ∀ s ∈ samples, s.reading control = v) : AffinelyDependent samples controls := by
  obtain ⟨j, rfl⟩ := List.get_of_mem hcontrol
  refine ⟨-v, Pi.single j 1, fun hzero => ?_, fun s hs => ?_⟩
  · have hj := congrFun hzero j
    simp at hj
  · have hreading : s.reading controls[j] = v := h s hs
    simp only [Pi.single_apply, ite_mul, one_mul, zero_mul, Finset.sum_ite_eq', Finset.mem_univ,
      if_true, hreading, neg_add_cancel]

variable {x y : Name}

/-- The residuals of the fit of a variable to the controls. -/
def fit? (samples : List (Sample ι ℚ)) (key : Name) (controls : List Name) : Option (List ℚ) :=
  residualsOf? (controls.length + 1) (List.ofFn fun i => List.ofFn (design samples controls i))
    (List.ofFn (readings samples key))

/-- The outcome is that of the two fits unless it is decided before. -/
lemma residualize_eq_fits (hraw : (residualize samples x y controls).status ≠ .raw)
    (hinsufficient : (residualize samples x y controls).status ≠ .insufficient)
    (hinvalid : (residualize samples x y controls).status ≠ .invalid) :
    residualize samples x y controls =
      outcomeOf samples (fit? samples x controls) (fit? samples y controls) := by
  have hreadings : ∀ key, samples.map (fun s => s.reading key) = List.ofFn (readings samples key) :=
    fun key => (List.ofFn_getElem_eq_map samples fun s => s.reading key).symm
  rcases residualize_cases samples x y controls with ⟨-, hstatus⟩ | ⟨-, -, hstatus⟩ |
    ⟨-, -, -, hstatus⟩ | ⟨-, -, xs, ys, columns, hx, hy, hcolumns, hresult⟩
  · exact absurd hstatus hraw
  · exact absurd hstatus hinsufficient
  · exact absurd hstatus hinvalid
  · rw [hresult, designRows_rat hcolumns, observed?_rat hx, observed?_rat hy, hreadings, hreadings]
    rfl

/-- A fit that succeeds leaves one point for each sample. -/
lemma adjusted_points (h : (residualize samples x y controls).status = .adjusted) :
    ∃ rx ry, IsResidual samples x controls rx ∧ IsResidual samples y controls ry ∧
      (residualize samples x y controls).points =
        List.ofFn fun i => ⟨some (rx i), some (ry i), samples[i].id⟩ := by
  have hresult : residualize samples x y controls =
      outcomeOf samples (fit? samples x controls) (fit? samples y controls) :=
    residualize_eq_fits (by simp [h]) (by simp [h]) (by simp [h])
  rw [hresult] at h ⊢
  cases hx : fit? samples x controls with
  | none => simp [hx, outcomeOf] at h
  | some rx =>
      cases hy : fit? samples y controls with
      | none => simp [hx, hy, outcomeOf] at h
      | some ry =>
          obtain ⟨cx, rfl, horthogonalX⟩ := residualsOf?_eq_some hx
          obtain ⟨cy, rfl, horthogonalY⟩ := residualsOf?_eq_some hy
          refine ⟨_, _, isResidual_of_fit horthogonalX, isResidual_of_fit horthogonalY, ?_⟩
          refine List.ext_getElem (by simp [outcomeOf]) fun i hi hi' => ?_
          simp [outcomeOf]

/-- Controls that depend on each other have no fit. -/
lemma singular_of_dependent (hraw : (residualize samples x y controls).status ≠ .raw)
    (hinsufficient : (residualize samples x y controls).status ≠ .insufficient)
    (hinvalid : (residualize samples x y controls).status ≠ .invalid)
    (h : AffinelyDependent samples controls) :
    (residualize samples x y controls).status = .singular := by
  obtain ⟨k, hk, hzero⟩ := exists_kernel_of_dependent h
  rw [residualize_eq_fits hraw hinsufficient hinvalid, fit?, residualsOf?_eq_none hk hzero]
  rfl

/-- **What removing the effect of controls gives.** The outcome is decided in a fixed order, for any
numbers. In exact arithmetic an adjusted outcome has a point for each sample, in the same order and
with the same identity, whose coordinates are residuals; and unless the outcome is decided by the
number of controls, the number of samples or a value that cannot be used, controls that are
repeated, constant or otherwise depend on each other have singular normal equations. -/
theorem residualize_outcomes (x y : Name) (controls : List Name) :
    (∀ {α : Type} [Scalar α] (samples : List (Sample ι α)),
      StatusRule samples x y controls (residualize samples x y controls).status) ∧
    ∀ samples : List (Sample ι ℚ),
      ((residualize samples x y controls).status = .adjusted →
        ∃ rx ry, IsResidual samples x controls rx ∧ IsResidual samples y controls ry ∧
          (residualize samples x y controls).points =
            List.ofFn fun i => ⟨some (rx i), some (ry i), samples[i].id⟩) ∧
      ((residualize samples x y controls).status ≠ .raw →
        (residualize samples x y controls).status ≠ .insufficient →
        (residualize samples x y controls).status ≠ .invalid →
        (¬ controls.Nodup ∨ (∃ control ∈ controls, ∃ v, ∀ s ∈ samples, s.reading control = v) ∨
          AffinelyDependent samples controls) →
        (residualize samples x y controls).status = .singular) := by
  refine ⟨fun samples => statusRule_residualize samples x y controls,
    fun samples => ⟨adjusted_points, fun hraw hinsufficient hinvalid hdependent => ?_⟩⟩
  refine singular_of_dependent hraw hinsufficient hinvalid ?_
  rcases hdependent with hrepeated | ⟨control, hcontrol, v, hv⟩ | hdependent
  · exact affinelyDependent_of_repeated hrepeated
  · exact affinelyDependent_of_constant hcontrol hv
  · exact hdependent

end

/-- Three samples in which the control `Z` explains a part of `X`. -/
def explained : List (Sample ℕ ℚ) :=
  [{ fields := Table.ofList [("X", some 0), ("Y", some 1), ("Z", some 0)], id := some 7 },
    { nested := some (Table.ofList [("X", some 1), ("Y", some 0), ("Z", some 1)]) },
    { fields := Table.ofList [("X", some 5), ("Y", some 2), ("Z", some 2)] }]

/-- Controlling `Z` leaves residuals, and controlling it twice does not. -/
theorem residualize_outcomes_explained :
    (residualize explained "X" "Y" ["Z"]).status = .adjusted ∧
      (∃ rx ry, IsResidual explained "X" ["Z"] rx ∧ IsResidual explained "Y" ["Z"] ry ∧
        (residualize explained "X" "Y" ["Z"]).points =
          List.ofFn fun i => ⟨some (rx i), some (ry i), explained[i].id⟩) ∧
      (residualize (explained ++ explained) "X" "Y" ["Z", "Z"]).status = .singular := by
  have hadjusted : (residualize explained "X" "Y" ["Z"]).status = .adjusted := by decide +kernel
  have hrepeated : (residualize (explained ++ explained) "X" "Y" ["Z", "Z"]).status ≠ .raw ∧
      (residualize (explained ++ explained) "X" "Y" ["Z", "Z"]).status ≠ .insufficient ∧
      (residualize (explained ++ explained) "X" "Y" ["Z", "Z"]).status ≠ .invalid := by
    decide +kernel
  refine ⟨hadjusted, ((residualize_outcomes "X" "Y" ["Z"]).2 explained).1 hadjusted, ?_⟩
  exact ((residualize_outcomes "X" "Y" ["Z", "Z"]).2 (explained ++ explained)).2 hrepeated.1
    hrepeated.2.1 hrepeated.2.2 (.inl (by decide))

end CausalEquations
