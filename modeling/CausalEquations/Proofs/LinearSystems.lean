import CausalEquations.Proofs.RationalNumbers
import CausalEquations.Statistics.LinearSystem
import Mathlib.LinearAlgebra.Matrix.ToLinearEquiv
import Mathlib.Tactic.LinearCombination

/-!
# Solving linear systems

Elimination does not change the solutions of a system of equations: rows only change places, and
multiples of a row that holds are subtracted from rows below it. A pivot is not smaller than the
tolerance, so the triangular system that remains has exactly one solution, and back substitution
finds it.

* `Row.Holds`, `Row.SolvesTriangle` — what it means to solve an equation and a triangular system.
* `Row.eliminate_solutions` — elimination keeps the solutions.
* `Row.backSubstitute_eq` — back substitution finds the only solution of a triangular system.
* `Row.dividing` — the rationals with another quotient, to see which divisions are made.
* `solve_unique_solution` — what a solution and its absence mean, and what is divided by.
-/

namespace CausalEquations

namespace Row

/-! ## Equations -/

/-- The equation holds of the numbers. -/
def Holds (row : Row ℚ) (x : List ℚ) : Prop := Scalar.dot row.coefficients x = row.value

/-- The first equation holds of the numbers, the second of all but the first of them, and so on. -/
def SolvesTriangle : List (Row ℚ) → List ℚ → Prop
  | [], x => x = []
  | row :: rest, x => row.Holds x ∧ SolvesTriangle rest x.tail

/-- The sum of products with the difference of two rows of the same length. -/
lemma dot_zipWith_sub (factor : ℚ) {xs ys : List ℚ} (hlength : xs.length = ys.length)
    (zs : List ℚ) :
    Scalar.dot (List.zipWith (fun a p => a - factor * p) xs ys) zs =
      Scalar.dot xs zs - factor * Scalar.dot ys zs := by
  induction xs generalizing ys zs with
  | nil =>
      obtain rfl := List.length_eq_zero_iff.mp hlength.symm
      simp
  | cons x xs ih =>
      match ys, zs, hlength with
      | y :: ys, [], _ => simp
      | y :: ys, z :: zs, hlength =>
          have htail : xs.length = ys.length := by simpa using hlength
          have hrest := ih htail zs
          simp only [Scalar.dot_rat, List.zipWith_cons_cons, List.sum_cons] at hrest ⊢
          rw [hrest]
          ring

/-- A row with its first coefficient and the others. -/
lemma holds_cons_iff {row : Row ℚ} (hrow : row.coefficients ≠ []) (x : ℚ) (xs : List ℚ) :
    row.Holds (x :: xs) ↔ row.lead * x + Scalar.dot row.coefficients.tail xs = row.value := by
  obtain ⟨first, rest, hcoefficients⟩ := List.exists_cons_of_ne_nil hrow
  simp [Holds, lead, hcoefficients]

/-- **Subtracting a multiple of a row that holds** does not change whether a row holds. -/
lemma holds_reduceBy_iff {pivot row : Row ℚ} (hlead : pivot.lead ≠ 0)
    (hrow : row.coefficients ≠ []) (hlength : row.coefficients.length = pivot.coefficients.length)
    {x : ℚ} {xs : List ℚ} (hpivot : pivot.Holds (x :: xs)) :
    (reduceBy pivot row).Holds xs ↔ row.Holds (x :: xs) := by
  have hpivotRow : pivot.coefficients ≠ [] := by
    rw [← List.length_pos_iff, ← hlength, List.length_pos_iff]
    exact hrow
  have htails : row.coefficients.tail.length = pivot.coefficients.tail.length := by
    rw [List.length_tail, List.length_tail, hlength]
  have hreduced : reduceBy pivot row = ⟨List.zipWith (fun a p => a - row.lead / pivot.lead * p)
      row.coefficients.tail pivot.coefficients.tail,
      row.value - row.lead / pivot.lead * pivot.value⟩ := rfl
  have hfactor : row.lead / pivot.lead * pivot.lead = row.lead := div_mul_cancel₀ _ hlead
  rw [holds_cons_iff hpivotRow] at hpivot
  rw [holds_cons_iff hrow, hreduced, Holds, dot_zipWith_sub _ htails]
  generalize row.lead / pivot.lead = factor at hfactor ⊢
  constructor
  · intro h
    linear_combination h + factor * hpivot - x * hfactor
  · intro h
    linear_combination h - factor * hpivot + x * hfactor

/-! ## Elimination -/

/-- The rows only change places. -/
lemma bringToFront_perm {β : Type} (position : ℕ) (l : List β) :
    (bringToFront position l).Perm l := by
  match l, position with
  | [], _ => exact .refl _
  | first :: rest, 0 => exact .refl _
  | first :: rest, i + 1 =>
      simp only [bringToFront]
      split
      · exact .refl _
      · rename_i chosen hchosen
        obtain ⟨hi, rfl⟩ := List.getElem?_eq_some_iff.mp hchosen
        have hset : rest.set i first = rest.take i ++ first :: rest.drop (i + 1) := by
          rw [List.set_eq_take_append_cons_drop, if_pos hi]
        calc (rest[i] :: rest.set i first).Perm
              (rest[i] :: first :: (rest.take i ++ rest.drop (i + 1))) :=
              .cons _ (hset ▸ List.perm_middle)
          List.Perm _ (first :: rest[i] :: (rest.take i ++ rest.drop (i + 1))) := .swap _ _ _
          List.Perm _ (first :: (rest.take i ++ rest[i] :: rest.drop (i + 1))) :=
              .cons _ List.perm_middle.symm
          _ = first :: rest := by rw [List.getElem_cons_drop, List.take_append_drop]

variable {tolerance : ℚ}

/-- The rows have a place for each of the unknowns. -/
def Wide (size : ℕ) (rows : List (Row ℚ)) : Prop :=
  ∀ row ∈ rows, row.coefficients.length = size

/-- One unknown is removed by a pivot that is not small, and the rest goes on without it. -/
lemma eliminate_succ_cases {size : ℕ} {rows triangle : List (Row ℚ)}
    (hlength : rows.length = size + 1)
    (h : eliminate tolerance (size + 1) rows = some triangle) :
    ∃ pivot others rest, (pivot :: others).Perm rows ∧ tolerance ≤ |pivot.lead| ∧
      eliminate tolerance size (others.map (reduceBy pivot)) = some rest ∧
      triangle = pivot :: rest := by
  have hperm := bringToFront_perm (pivotIndex rows) rows
  rw [eliminate] at h
  split at h
  · rename_i hnil
    rw [hnil] at hperm
    rw [hperm.nil_eq.symm] at hlength
    cases hlength
  · rename_i pivot others hcons
    rw [hcons] at hperm
    rw [Scalar.lt_rat, Scalar.abs_rat] at h
    split at h
    · cases h
    · rename_i hpivot
      obtain ⟨rest, hrest, rfl⟩ := Option.map_eq_some_iff.mp h
      exact ⟨pivot, others, rest, hperm, by simpa using hpivot, hrest, rfl⟩

/-- **Elimination keeps the solutions**, and leaves a triangle with large diagonal entries. -/
theorem eliminate_solutions (htolerance : 0 < tolerance) {size : ℕ} {rows triangle : List (Row ℚ)}
    (hlength : rows.length = size) (hwide : Wide size rows)
    (h : eliminate tolerance size rows = some triangle) :
    triangle.length = size ∧ (∀ row ∈ triangle, tolerance ≤ |row.lead|) ∧
      ∀ x : List ℚ, x.length = size → (SolvesTriangle triangle x ↔ ∀ row ∈ rows, row.Holds x) := by
  induction size generalizing rows triangle with
  | zero =>
      obtain rfl : triangle = [] := by simpa [eliminate] using h.symm
      obtain rfl := List.length_eq_zero_iff.mp hlength
      refine ⟨rfl, by simp, fun x hx => ?_⟩
      simpa [SolvesTriangle] using hx
  | succ size ih =>
      obtain ⟨pivot, others, rest, hperm, hpivot, hrest, rfl⟩ := eliminate_succ_cases hlength h
      have hlead : pivot.lead ≠ 0 := abs_pos.mp (htolerance.trans_le hpivot)
      have hwide' : Wide (size + 1) (pivot :: others) := fun row hrow =>
        hwide row (hperm.mem_iff.mp hrow)
      obtain ⟨hpivotWide, hothersWide⟩ := List.forall_mem_cons.mp hwide'
      have hothers : (others.map (reduceBy pivot)).length = size := by
        have hcount := hperm.length_eq
        rw [List.length_cons, hlength] at hcount
        rw [List.length_map]
        omega
      have hreducedWide : Wide size (others.map (reduceBy pivot)) := by
        intro row hrow
        obtain ⟨old, hold, rfl⟩ := List.mem_map.mp hrow
        simp [reduceBy, hothersWide old hold, hpivotWide]
      obtain ⟨hcount, hleads, hsolutions⟩ := ih hothers hreducedWide hrest
      refine ⟨by rw [List.length_cons, hcount], List.forall_mem_cons.mpr ⟨hpivot, hleads⟩, ?_⟩
      intro x hx
      obtain ⟨first, others', rfl⟩ := List.exists_cons_of_length_eq_add_one hx
      have hnonempty : ∀ row ∈ others, row.coefficients ≠ [] := fun row hrow hnil => by
        have hlen := hothersWide row hrow
        rw [hnil] at hlen
        cases hlen
      simp only [← hperm.mem_iff, List.forall_mem_cons, SolvesTriangle, List.tail_cons]
      refine and_congr_right fun hholds => ?_
      rw [hsolutions others' (by simpa using hx), List.forall_mem_map]
      refine forall₂_congr fun row hrow => ?_
      exact holds_reduceBy_iff hlead (hnonempty row hrow)
        ((hothersWide row hrow).trans hpivotWide.symm) hholds

/-! ## Back substitution -/

/-- **A triangle with large diagonal entries has one solution**, and back substitution finds it. -/
theorem backSubstitute_eq (htolerance : 0 < tolerance) {triangle : List (Row ℚ)}
    (hleads : ∀ row ∈ triangle, tolerance ≤ |row.lead|) :
    ∃ x, backSubstitute tolerance triangle = some x ∧ x.length = triangle.length ∧
      ∀ y : List ℚ, y.length = triangle.length → (SolvesTriangle triangle y ↔ y = x) := by
  induction triangle with
  | nil => exact ⟨[], rfl, rfl, fun y _ => Iff.rfl⟩
  | cons row rest ih =>
      obtain ⟨hlead, hrest⟩ := List.forall_mem_cons.mp hleads
      obtain ⟨x, hx, hlength, hunique⟩ := ih hrest
      have hnonzero : row.lead ≠ 0 := abs_pos.mp (htolerance.trans_le hlead)
      have hcoefficients : row.coefficients ≠ [] := fun hnil => hnonzero (by simp [lead, hnil])
      have hlarge : Scalar.lt (Scalar.abs row.lead) tolerance = false := by
        rw [Scalar.lt_rat, Scalar.abs_rat, decide_eq_false hlead.not_gt]
      refine ⟨(row.value - Scalar.dot row.coefficients.tail x) / row.lead :: x, ?_, ?_, ?_⟩
      · simp only [backSubstitute, hx, hlarge]
        rfl
      · rw [List.length_cons, List.length_cons, hlength]
      · intro y hy
        obtain ⟨first, others, rfl⟩ := List.exists_cons_of_length_eq_add_one hy
        rw [SolvesTriangle, List.tail_cons, hunique others (by simpa using hy), List.cons.injEq,
          and_congr_left_iff]
        rintro rfl
        rw [holds_cons_iff hcoefficients, eq_div_iff hnonzero]
        constructor
        · intro h
          linear_combination h
        · intro h
          linear_combination h

/-! ## Divisions -/

/-- The rationals with another quotient. What is computed alike with every quotient that is right
for large divisors makes no other divisions. -/
abbrev dividing (quotient : ℚ → ℚ → ℚ) : Scalar ℚ :=
  { (inferInstance : Scalar ℚ) with div := quotient }

lemma bestFrom_dividing (quotient : ℚ → ℚ → ℚ) (best : ℕ) (bestLead : ℚ) (i : ℕ)
    (rows : List (Row ℚ)) :
    @bestFrom ℚ (dividing quotient) best bestLead i rows = bestFrom best bestLead i rows := by
  induction rows generalizing best bestLead i with
  | nil => rfl
  | cons row rest ih =>
      unfold bestFrom
      simp only [ih]
      rfl

lemma pivotIndex_dividing (quotient : ℚ → ℚ → ℚ) (rows : List (Row ℚ)) :
    @pivotIndex ℚ (dividing quotient) rows = pivotIndex rows := by
  cases rows with
  | nil => rfl
  | cons row rest => exact bestFrom_dividing quotient 0 _ 1 rest

/-- What is done with small numbers does not matter where the two sides agree on large ones. -/
lemma ite_small_congr {β : Type} {q : ℚ} {small u v : β} (h : tolerance ≤ |q| → u = v) :
    (if Scalar.lt (Scalar.abs q) tolerance then small else u) =
      if Scalar.lt (Scalar.abs q) tolerance then small else v := by
  split
  · rfl
  · rename_i hlarge
    exact h (by simpa using hlarge)

section

variable {quotient : ℚ → ℚ → ℚ} (hquotient : ∀ p d, tolerance ≤ |d| → quotient p d = p / d)

include hquotient

lemma reduceBy_dividing {pivot : Row ℚ} (hpivot : tolerance ≤ |pivot.lead|) :
    @reduceBy ℚ (dividing quotient) pivot = reduceBy pivot := by
  funext row
  have hfactor : quotient row.lead pivot.lead = row.lead / pivot.lead := hquotient _ _ hpivot
  have hreduced : @reduceBy ℚ (dividing quotient) pivot row =
      ⟨List.zipWith (fun a p => a - quotient row.lead pivot.lead * p)
        row.coefficients.tail pivot.coefficients.tail,
        row.value - quotient row.lead pivot.lead * pivot.value⟩ := rfl
  rw [hreduced, hfactor]
  rfl

/-- Elimination divides by pivots only, and these are not small. -/
lemma eliminate_dividing (size : ℕ) (rows : List (Row ℚ)) :
    @eliminate ℚ (dividing quotient) tolerance size rows = eliminate tolerance size rows := by
  induction size generalizing rows with
  | zero => rfl
  | succ size ih =>
      unfold eliminate
      rw [pivotIndex_dividing]
      cases bringToFront (pivotIndex rows) rows with
      | nil => rfl
      | cons pivot others =>
          refine ite_small_congr fun hlarge => ?_
          rw [reduceBy_dividing hquotient hlarge, ih]

/-- Back substitution divides by diagonal entries only, and these are not small. -/
lemma backSubstitute_dividing (triangle : List (Row ℚ)) :
    @backSubstitute ℚ (dividing quotient) tolerance triangle =
      backSubstitute tolerance triangle := by
  induction triangle with
  | nil => rfl
  | cons row rest ih =>
      unfold backSubstitute
      rw [ih]
      cases backSubstitute tolerance rest with
      | none => rfl
      | some solution =>
          refine ite_small_congr fun hlarge => ?_
          exact congrArg (fun first => some (first :: solution)) (hquotient _ _ hlarge)

end

end Row

/-! ## Solutions -/

section

variable {tolerance : ℚ} (htolerance : 0 < tolerance)

include htolerance

/-- **A solution that is found is the only one.** -/
theorem solve_eq_some {matrix : List (List ℚ)} {vector x : List ℚ}
    (hsquare : ∀ row ∈ matrix, row.length = matrix.length)
    (hvector : vector.length = matrix.length) (h : solve matrix vector tolerance = some x) :
    x.length = matrix.length ∧ ∀ y : List ℚ, y.length = matrix.length →
      ((∀ row ∈ List.zipWith Row.mk matrix vector, row.Holds y) ↔ y = x) := by
  have hlength : (List.zipWith Row.mk matrix vector).length = matrix.length := by
    rw [List.length_zipWith, hvector, min_self]
  have hwide : Row.Wide matrix.length (List.zipWith Row.mk matrix vector) := by
    intro row hrow
    obtain ⟨i, hi, rfl⟩ := List.getElem_of_mem hrow
    rw [List.getElem_zipWith]
    exact hsquare _ (List.getElem_mem _)
  rw [solve] at h
  split at h
  · cases h
  · obtain ⟨triangle, htriangle, hback⟩ := Option.bind_eq_some_iff.mp h
    obtain ⟨hcount, hleads, hsolutions⟩ :=
      Row.eliminate_solutions htolerance hlength hwide htriangle
    obtain ⟨x', hx', hlength', hunique⟩ := Row.backSubstitute_eq htolerance hleads
    obtain rfl : x' = x := Option.some.inj (hx'.symm.trans hback)
    refine ⟨hlength'.trans hcount, fun y hy => ?_⟩
    rw [← hsolutions y hy, hunique y (hy.trans hcount.symm)]

end

open Matrix

variable {n : ℕ}

/-- The rows of a matrix. -/
def rowsOf (A : Matrix (Fin n) (Fin n) ℚ) : List (List ℚ) := List.ofFn fun i => List.ofFn (A i)

/-- The equations of a system. -/
def equations (A : Matrix (Fin n) (Fin n) ℚ) (b : Fin n → ℚ) : List (Row ℚ) :=
  List.zipWith Row.mk (rowsOf A) (List.ofFn b)

lemma dot_ofFn (a x : Fin n → ℚ) : Scalar.dot (List.ofFn a) (List.ofFn x) = a ⬝ᵥ x := by
  have hproducts : List.zipWith (· * ·) (List.ofFn a) (List.ofFn x) =
      List.ofFn fun i => a i * x i := by
    refine List.ext_getElem (by simp) fun i hi hi' => ?_
    simp
  rw [Scalar.dot_rat, hproducts, List.sum_ofFn, dotProduct]

lemma equations_eq (A : Matrix (Fin n) (Fin n) ℚ) (b : Fin n → ℚ) :
    equations A b = List.ofFn fun i => ⟨List.ofFn (A i), b i⟩ := by
  refine List.ext_getElem (by simp [equations, rowsOf]) fun i hi hi' => ?_
  simp [equations, rowsOf]

lemma holds_equations_iff (A : Matrix (Fin n) (Fin n) ℚ) (b x : Fin n → ℚ) :
    (∀ row ∈ equations A b, row.Holds (List.ofFn x)) ↔ A *ᵥ x = b := by
  rw [equations_eq, List.forall_mem_ofFn_iff, funext_iff]
  refine forall_congr' fun i => ?_
  rw [Row.Holds, dot_ofFn]
  rfl

/-- A list of the right length lists the values of a function. -/
lemma exists_eq_ofFn {l : List ℚ} (h : l.length = n) : ∃ x : Fin n → ℚ, l = List.ofFn x := by
  subst h
  exact ⟨l.get, (List.ofFn_get l).symm⟩

section

variable (A : Matrix (Fin n) (Fin n) ℚ) (b : Fin n → ℚ) {tolerance : ℚ}
  (htolerance : 0 < tolerance)

include htolerance

lemma solution_of_solve {solution : List ℚ}
    (h : solve (rowsOf A) (List.ofFn b) tolerance = some solution) :
    ∃ x, solution = List.ofFn x ∧ A *ᵥ x = b ∧ ∀ y, A *ᵥ y = b → y = x := by
  have hrows : (rowsOf A).length = n := by rw [rowsOf, List.length_ofFn]
  have hsquare : ∀ row ∈ rowsOf A, row.length = (rowsOf A).length := by
    rw [hrows, rowsOf, List.forall_mem_ofFn_iff]
    exact fun i => List.length_ofFn
  have hvector : (List.ofFn b).length = (rowsOf A).length := by rw [hrows, List.length_ofFn]
  obtain ⟨hlength, hunique⟩ := solve_eq_some htolerance hsquare hvector h
  obtain ⟨x, rfl⟩ := exists_eq_ofFn (hlength.trans hrows)
  have hsolves : ∀ y, A *ᵥ y = b ↔ y = x := by
    intro y
    rw [← holds_equations_iff, equations, hunique _ (by rw [hrows, List.length_ofFn]),
      List.ofFn_inj]
  exact ⟨x, rfl, (hsolves x).mpr rfl, fun y => (hsolves y).mp⟩

/-- A singular matrix gives no solution: the kernel would make it more than one. -/
lemma solve_eq_none (hdet : A.det = 0) : solve (rowsOf A) (List.ofFn b) tolerance = none := by
  rw [Option.eq_none_iff_forall_ne_some]
  intro solution hsolution
  obtain ⟨x, -, hx, hunique⟩ := solution_of_solve A b htolerance hsolution
  obtain ⟨v, hv, hzero⟩ := Matrix.exists_mulVec_eq_zero_iff.mpr hdet
  have hshifted := hunique (x + v) (by rw [Matrix.mulVec_add, hx, hzero, add_zero])
  exact hv (add_eq_left.mp hshifted)

/-- **What is returned is the solution.** A solution that is returned solves the system as it was
given, and no other does; a singular matrix gives none. What a quotient by a number of a magnitude
below the tolerance would be plays no part, so there is no such division, and back substitution
succeeds whenever elimination does. -/
theorem solve_unique_solution :
    (∀ solution, solve (rowsOf A) (List.ofFn b) tolerance = some solution →
      ∃ x, solution = List.ofFn x ∧ A *ᵥ x = b ∧ ∀ y, A *ᵥ y = b → y = x) ∧
    (A.det = 0 → solve (rowsOf A) (List.ofFn b) tolerance = none) ∧
    (∀ quotient : ℚ → ℚ → ℚ, (∀ p d, tolerance ≤ |d| → quotient p d = p / d) →
      @solve ℚ (Row.dividing quotient) (rowsOf A) (List.ofFn b) tolerance =
        solve (rowsOf A) (List.ofFn b) tolerance) ∧
    ∀ triangle, Row.eliminate tolerance n (equations A b) = some triangle →
      (∀ row ∈ triangle, tolerance ≤ |row.lead|) ∧
        ∃ solution, Row.backSubstitute tolerance triangle = some solution := by
  refine ⟨fun _ => solution_of_solve A b htolerance, solve_eq_none A b htolerance,
    fun quotient hquotient => ?_, fun triangle htriangle => ?_⟩
  · unfold solve
    split
    · rfl
    · rw [Row.eliminate_dividing hquotient]
      congr 1
      funext triangle
      exact Row.backSubstitute_dividing hquotient triangle
  · have hlength : (equations A b).length = n := by rw [equations_eq, List.length_ofFn]
    have hwide : Row.Wide n (equations A b) := by
      rw [Row.Wide, equations_eq, List.forall_mem_ofFn_iff]
      exact fun i => List.length_ofFn
    obtain ⟨-, hleads, -⟩ := Row.eliminate_solutions htolerance hlength hwide htriangle
    obtain ⟨solution, hsolution, -⟩ := Row.backSubstitute_eq htolerance hleads
    exact ⟨hleads, solution, hsolution⟩

end

/-- A system whose first diagonal entry is zero is solved all the same. -/
theorem solve_unique_solution_swapped :
    (0 : ℚ) < 1 / 10 ^ 10 ∧
      solve (rowsOf !![0, 2; 4, 1]) (List.ofFn ![6, 7]) (1 / 10 ^ 10) = some [1, 3] ∧
      !![0, 2; 4, (1 : ℚ)] *ᵥ ![1, 3] = ![6, 7] ∧
      ∀ y : Fin 2 → ℚ, !![0, 2; 4, 1] *ᵥ y = ![6, 7] → y = ![1, 3] := by
  have hpos : (0 : ℚ) < 1 / 10 ^ 10 := by norm_num
  have hsolved : solve (rowsOf !![0, 2; 4, 1]) (List.ofFn ![6, 7]) (1 / 10 ^ 10) = some [1, 3] := by
    decide +kernel
  obtain ⟨x, hx, hsolves, hunique⟩ := (solve_unique_solution _ _ hpos).1 _ hsolved
  obtain rfl : x = ![1, 3] := List.ofFn_injective (hx.symm.trans (by simp))
  exact ⟨hpos, hsolved, hsolves, hunique⟩

end CausalEquations
