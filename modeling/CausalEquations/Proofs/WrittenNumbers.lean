import CausalEquations.Proofs.RationalNumbers
import CausalEquations.Proofs.WrittenForms
import Mathlib.Algebra.Order.Field.Basic
import Mathlib.Algebra.Order.Ring.Rat
import Mathlib.Tactic.Linarith
import Mathlib.Tactic.FieldSimp
import Mathlib.Tactic.Ring

/-!
# Numbers read back

In the rationals, what is written for a number is read as the multiple of the last decimal that is
nearest to it, of two equally near ones as the even one.

* `IsNearest`, `IsRounding`, `IsRounding.unique` — the rounded number, without a computation.
* `Fixed.rounded`, `Fixed.isRounding_rounded` — the number that is written.
* `digitsValue_append`, `digitsValue_decimalDigits` — what digits stand for.
* `readNumeral_magnitudeText` — a written magnitude is read as what has been written.
-/

namespace CausalEquations

/-! ## Rounding -/

/-- `k` is the integer nearest to `x`; of two equally near ones, the even one. -/
structure IsNearest (x : ℚ) (k : ℤ) : Prop where
  within : |x - k| ≤ 1 / 2
  even_of_tie : |x - k| = 1 / 2 → Even k

/-- `r` is the multiple of `10 ^ -places` nearest to `q`; of two equally near ones, the even one. -/
def IsRounding (places : ℕ) (q r : ℚ) : Prop :=
  ∃ k : ℤ, r = k / 10 ^ places ∧ IsNearest (q * 10 ^ places) k

namespace IsNearest

variable {x : ℚ} {k k' : ℤ}

/-- Of two different nearest integers both would be even, though they are neighbours. -/
lemma le (h : IsNearest x k) (h' : IsNearest x k') : k' ≤ k := by
  by_contra hlt
  have hstep : (k : ℚ) + 1 ≤ k' := by exact_mod_cast not_le.mp hlt
  have hupper := (abs_le.mp h.within).2
  have hlower := (abs_le.mp h'.within).1
  have htie : |x - k| = 1 / 2 := by
    rw [abs_of_nonneg (by linarith)]
    linarith
  have htie' : |x - k'| = 1 / 2 := by
    rw [abs_of_nonpos (by linarith)]
    linarith
  have hnext : (k' : ℚ) = k + 1 := by linarith
  have hnext : k' = k + 1 := by exact_mod_cast hnext
  obtain ⟨m, hm⟩ := h.even_of_tie htie
  obtain ⟨m', hm'⟩ := h'.even_of_tie htie'
  omega

lemma unique (h : IsNearest x k) (h' : IsNearest x k') : k = k' := le_antisymm (h'.le h) (h.le h')

lemma neg (h : IsNearest x k) : IsNearest (-x) (-k) := by
  have hdistance : |-x - (-k : ℤ)| = |x - k| := by
    rw [← abs_neg]
    congr 1
    push_cast
    ring
  exact ⟨hdistance ▸ h.within, fun htie => (h.even_of_tie (hdistance ▸ htie)).neg⟩

lemma self (k : ℤ) : IsNearest k k := by
  constructor <;> simp

lemma zero (h : |x| ≤ 1 / 2) : IsNearest x 0 := ⟨by simpa using h, fun _ => Even.zero⟩

end IsNearest

/-- A magnitude with a minus sign, or without. -/
def withSign (negative : Bool) (r : ℚ) : ℚ := if negative then -r else r

@[simp] lemma withSign_true (r : ℚ) : withSign true r = -r := rfl

@[simp] lemma withSign_false (r : ℚ) : withSign false r = r := rfl

@[simp] lemma withSign_zero (negative : Bool) : withSign negative 0 = 0 := by
  cases negative <;> simp

namespace IsRounding

variable {places : ℕ} {q r r' : ℚ}

/-- There is one rounded number. -/
theorem unique (h : IsRounding places q r) (h' : IsRounding places q r') : r = r' := by
  obtain ⟨k, rfl, hk⟩ := h
  obtain ⟨k', rfl, hk'⟩ := h'
  rw [hk.unique hk']

lemma neg (h : IsRounding places q r) : IsRounding places (-q) (-r) := by
  obtain ⟨k, rfl, hk⟩ := h
  refine ⟨-k, by push_cast; ring, ?_⟩
  rw [neg_mul]
  exact hk.neg

/-- A number is rounded like its magnitude. -/
lemma withSign (h : IsRounding places |q| r) :
    IsRounding places q (withSign (Rat.blt q 0) r) := by
  by_cases hq : q < 0
  · have hblt : Rat.blt q 0 = true := hq
    rw [abs_of_neg hq] at h
    rw [hblt]
    simpa using h.neg
  · have hblt : Rat.blt q 0 = false := eq_false_of_ne_true hq
    rw [abs_of_nonneg (not_lt.mp hq)] at h
    rwa [hblt]

/-- An integer is its own rounding. -/
lemma of_int (places : ℕ) (k : ℤ) : IsRounding places k k := by
  have hself := IsNearest.self (k * 10 ^ places)
  push_cast at hself
  refine ⟨k * 10 ^ places, ?_, hself⟩
  push_cast
  field_simp

/-- A number within half a unit is rounded to zero. -/
lemma of_small (h : |q| * 10 ^ places ≤ 1 / 2) : IsRounding places q 0 := by
  refine ⟨0, by simp, .zero ?_⟩
  rwa [abs_mul, abs_of_pos (by positivity : (0 : ℚ) < 10 ^ places)]

/-- What is rounded to something else than zero is at least one unit. -/
lemma unit_le (h : IsRounding places q r) (hr : r ≠ 0) : 1 ≤ |r| * 10 ^ places := by
  obtain ⟨k, rfl, -⟩ := h
  have hpower : (0 : ℚ) < 10 ^ places := by positivity
  have hk : k ≠ 0 := by
    rintro rfl
    simp at hr
  rw [abs_div, abs_of_pos hpower, div_mul_cancel₀ _ hpower.ne']
  exact_mod_cast Int.one_le_abs hk

end IsRounding

/-- Of two equally near integers the even one is taken. -/
lemma even_divideHalfEven {n d : ℕ} (hd : 0 < d)
    (h : 2 * n + d = 2 * (d * divideHalfEven n d) ∨ 2 * n = 2 * (d * divideHalfEven n d) + d) :
    Even (divideHalfEven n d) := by
  have hn := Nat.div_add_mod n d
  have hm := Nat.mod_lt n hd
  rw [Nat.even_iff]
  revert h
  simp only [divideHalfEven]
  split
  · omega
  · split
    · rw [Nat.mul_add]
      omega
    · split
      · omega
      · omega

/-- The quotient is rounded. -/
lemma isNearest_divideHalfEven {n d : ℕ} (hd : 0 < d) :
    IsNearest (n / d) (divideHalfEven n d : ℕ) := by
  have hpos : (0 : ℚ) < d := by exact_mod_cast hd
  have hup : 2 * (d * divideHalfEven n d : ℚ) ≤ 2 * n + d := by
    exact_mod_cast two_mul_divideHalfEven_le n d
  have hdown : 2 * (n : ℚ) ≤ 2 * (d * divideHalfEven n d) + d := by
    exact_mod_cast le_two_mul_divideHalfEven n d hd
  have heven := @even_divideHalfEven n d hd
  generalize divideHalfEven n d = k at *
  have hdistance : (n / d - (k : ℤ) : ℚ) = (n - d * k) / d := by
    push_cast
    field_simp
  constructor
  case within =>
    rw [hdistance, abs_div, abs_of_pos hpos, div_le_iff₀ hpos, abs_le]
    constructor <;> linarith
  case even_of_tie =>
    rw [hdistance, abs_div, abs_of_pos hpos, div_eq_iff hpos.ne', Int.even_coe_nat]
    intro htie
    refine heven ?_
    rcases abs_choice ((n : ℚ) - d * k) with habs | habs
    · right
      have hside : 2 * (n : ℚ) = 2 * (d * k) + d := by linarith
      exact_mod_cast hside
    · left
      have hside : 2 * (n : ℚ) + d = 2 * (d * k) := by linarith
      exact_mod_cast hside

namespace Fixed

variable (places : ℕ) (q : ℚ)

/-- The magnitude is rounded. -/
lemma isRounding_units : IsRounding places |q| (units places q / 10 ^ places) := by
  have hmagnitude : |q| = q.num.natAbs / q.den := by
    conv_lhs => rw [← Rat.num_div_den q, abs_div, Nat.abs_cast]
    rw [Nat.cast_natAbs, Int.cast_abs]
  have hscaled : |q| * 10 ^ places = (q.num.natAbs * 10 ^ places : ℕ) / q.den := by
    rw [hmagnitude]
    push_cast
    ring
  refine ⟨units places q, by push_cast; rfl, ?_⟩
  rw [hscaled]
  exact isNearest_divideHalfEven q.den_pos

/-- The number that is written for `q`. -/
def rounded : ℚ := withSign (Rat.blt q 0) (units places q / 10 ^ places)

/-- What is written is the rounded number. -/
theorem isRounding_rounded : IsRounding places q (rounded places q) :=
  (isRounding_units places q).withSign

end Fixed

/-! ## Digits -/

lemma digitsValue_append (xs ys : List Char) :
    digitsValue (xs ++ ys) = digitsValue xs * 10 ^ ys.length + digitsValue ys := by
  have hgeneral : ∀ (cs : List Char) (n : ℕ),
      cs.foldl (fun n c => 10 * n + (digitValue? c).getD 0) n =
        n * 10 ^ cs.length + digitsValue cs := by
    intro cs
    induction cs with
    | nil => simp [digitsValue]
    | cons c cs ih =>
        intro n
        rw [digitsValue, List.foldl_cons, List.foldl_cons, ih, ih (10 * 0 + _), List.length_cons]
        ring
  rw [digitsValue, List.foldl_append, hgeneral]
  rfl

lemma digitsValue_zeros (k : ℕ) : digitsValue (List.replicate k '0') = 0 := by
  have hzero : (digitValue? '0').getD 0 = 0 := by decide
  induction k with
  | zero => rfl
  | succ k ih => rwa [List.replicate_succ, digitsValue, List.foldl_cons, hzero]

/-- Digits of the first script are read as usual. -/
lemma digitsValue_eq_ofDigitChars {cs : List Char} (h : ∀ c ∈ cs, c.isDigit = true) :
    digitsValue cs = Nat.ofDigitChars 10 cs 0 := by
  rw [Nat.ofDigitChars_eq_foldl]
  refine List.foldl_ext _ _ _ fun n c hc => ?_
  have hdigit := h c hc
  simp only [Char.isDigit, Bool.and_eq_true, decide_eq_true_eq, ge_iff_le, UInt32.le_iff_toNat_le]
    at hdigit
  have hvalue : digitValue? c = some (c.toNat - 48) := by
    have hlow : ¬ c.toNat < 48 := not_lt.mpr hdigit.1
    have hhigh : c.toNat < 48 + 10 := Nat.lt_succ_of_le hdigit.2
    rw [digitValue?, digitZeros, digitValueAmong, if_neg hlow, if_pos hhigh]
  rw [hvalue]
  rfl

/-- The digits of a number stand for it. -/
lemma digitsValue_decimalDigits (n : ℕ) : digitsValue (decimalDigits n) = n := by
  have h : ∀ c ∈ decimalDigits n, c.isDigit = true :=
    fun c hc => Nat.isDigit_of_mem_toDigits (by decide) (by decide) hc
  rw [digitsValue_eq_ofDigitChars h]
  exact Nat.ofDigitChars_ten_toDigits

/-- Only zeros have been left out behind the digits of a fraction. -/
lemma exists_fractionDigits (places n : ℕ) :
    ∃ k, List.replicate (places - (decimalDigits n).length) '0' ++ decimalDigits n =
      Fixed.fractionDigits places n ++ List.replicate k '0' := by
  set padded := List.replicate (places - (decimalDigits n).length) '0' ++ decimalDigits n
    with hpadded
  refine ⟨(padded.reverse.takeWhile fun c => c == '0').length, ?_⟩
  have hzeros : padded.reverse.takeWhile (fun c => c == '0') =
      List.replicate (padded.reverse.takeWhile fun c => c == '0').length '0' :=
    List.eq_replicate_of_mem fun c hc => by simpa using List.mem_takeWhile_imp hc
  have hsplit := List.takeWhile_append_dropWhile (p := fun c => c == '0') (l := padded.reverse)
  rw [Fixed.fractionDigits, ← hpadded]
  conv_lhs => rw [← List.reverse_reverse padded, ← hsplit, List.reverse_append]
  rw [hzeros, List.reverse_replicate, List.length_replicate]

/-- The digits of a fraction stand for it. -/
lemma digitsValue_fractionDigits {places n : ℕ} (hplaces : 0 < places) (h : n < 10 ^ places) :
    (digitsValue (Fixed.fractionDigits places n) : ℚ) /
      10 ^ (Fixed.fractionDigits places n).length = n / 10 ^ places := by
  obtain ⟨k, hk⟩ := exists_fractionDigits places n
  have hfits : (decimalDigits n).length ≤ places :=
    (Nat.length_toDigits_le_iff (by norm_num) hplaces).mpr h
  have hlength : places = (Fixed.fractionDigits places n).length + k := by
    have hlengths := congrArg List.length hk
    simp only [List.length_append, List.length_replicate] at hlengths
    omega
  have hvalue : n = digitsValue (Fixed.fractionDigits places n) * 10 ^ k := by
    have hvalues := congrArg digitsValue hk
    simpa [digitsValue_append, digitsValue_zeros, digitsValue_decimalDigits] using hvalues
  generalize Fixed.fractionDigits places n = digits at *
  rw [hvalue, hlength, pow_add]
  push_cast
  field_simp

/-! ## Numerals -/

section

variable {α : Type} [Scalar α] {w d : List Char}

lemma AllDigits.take_self (hw : AllDigits w) : takeDigits w = (w, []) := by
  have hends : EndsDigits [] := by simp [EndsDigits]
  have htake := hw.take hends
  rwa [List.append_nil] at htake

lemma readNumeral_whole (hw : AllDigits w) :
    (readNumeral w : α) = Scalar.ofDecimal (digitsValue w) 0 := by
  simp [readNumeral, hw.take_self]

lemma readNumeral_point (hw : AllDigits w) (hd : AllDigits d) :
    (readNumeral (w ++ '.' :: d) : α) =
      Scalar.ofDecimal (digitsValue (w ++ d)) (-Int.ofNat d.length) := by
  have hpoint : EndsDigits ('.' :: d) := by simp [EndsDigits, isDigit_point]
  simp [readNumeral, hw.take hpoint, hd.take_self]

end

/-- **A written magnitude is read as what has been written.** -/
theorem readNumeral_magnitudeText {places : ℕ} (hplaces : 0 < places) (n : ℕ) :
    (readNumeral (Fixed.magnitudeText places n) : ℚ) = n / 10 ^ places := by
  have hpower : 0 < 10 ^ places := by positivity
  have hparts : (n : ℚ) = (n / 10 ^ places : ℕ) * 10 ^ places + (n % 10 ^ places : ℕ) := by
    exact_mod_cast (Nat.div_add_mod' n (10 ^ places)).symm
  have hfraction := digitsValue_fractionDigits hplaces (Nat.mod_lt n hpower)
  simp only [Fixed.magnitudeText, Nat.pow_eq]
  split
  · rename_i hwhole
    have hread := Scalar.ofDecimal_rat (digitsValue (decimalDigits (n / 10 ^ places))) 0
    rw [readNumeral_whole (allDigits_decimalDigits _)]
    refine (hread.trans ?_ :)
    rw [digitsValue_decimalDigits, hparts, hwhole]
    field_simp
    simp
  · rw [readNumeral_point (allDigits_decimalDigits _) (allDigits_fractionDigits _ _), Scalar.ofDecimal_rat,
      digitsValue_append, digitsValue_decimalDigits, hparts, add_div, ← hfraction]
    push_cast
    field_simp

end CausalEquations
