import CausalEquations.Proofs.ExactNumbers
import CausalEquations.Proofs.TokenSlices

/-!
# Canonical decimals

A number is written as a decimal with nothing superfluous in it: no zeros in front of the integer
part, none behind the fraction, no point without a fraction and no sign of zero. What is written is
the number rounded to four decimals, and without a sign it is one token of an equation.

* `IsWholePart`, `IsFractionPart`, `IsCanonicalDecimal` — the form.
* `Fixed.isCanonicalDecimal_text` — numbers are written in this form.
* `readSigned`, `Fixed.readSigned_text` — what is written is read as the rounded number.
* `scan_numeral` — a numeral is one token.
* `formatNumber_canonical` — the text of a number.
-/

namespace CausalEquations

/-! ## The form -/

/-- Digits, of which the first is no zero unless it is the only one. -/
structure IsWholePart (w : List Char) : Prop where
  digits : ∀ c ∈ w, c.isDigit = true
  ne_nil : w ≠ []
  eq_zero : w.head? = some '0' → w = ['0']

/-- Nothing, or a point and up to so many digits, of which the last is no zero. -/
inductive IsFractionPart (places : ℕ) : List Char → Prop where
  | none : IsFractionPart places []
  | point {d : List Char} : (∀ c ∈ d, c.isDigit = true) → d ≠ [] → d.length ≤ places →
      d.getLast? ≠ some '0' → IsFractionPart places ('.' :: d)

/-- An integer part and a fraction with at most so many digits, with a minus sign or none; zero has
no sign. -/
def IsCanonicalDecimal (places : ℕ) (cs : List Char) : Prop :=
  ∃ sign whole fraction, cs = sign ++ (whole ++ fraction) ∧ IsWholePart whole ∧
    IsFractionPart places fraction ∧ (sign = [] ∨ sign = ['-'] ∧ whole ++ fraction ≠ ['0'])

lemma IsWholePart.head {w : List Char} (h : IsWholePart w) (rest : List Char) :
    ∃ c tail, w ++ rest = c :: tail ∧ c.isDigit = true := by
  obtain ⟨c, tail, rfl⟩ := List.exists_cons_of_ne_nil h.ne_nil
  exact ⟨c, tail ++ rest, rfl, h.digits c List.mem_cons_self⟩

namespace IsCanonicalDecimal

variable {places : ℕ} {cs : List Char}

lemma ne_nil (h : IsCanonicalDecimal places cs) : cs ≠ [] := by
  obtain ⟨sign, whole, fraction, rfl, hwhole, -, -⟩ := h
  simp [hwhole.ne_nil]

lemma ne_negative_zero (h : IsCanonicalDecimal places cs) : cs ≠ ['-', '0'] := by
  obtain ⟨sign, whole, fraction, rfl, hwhole, -, rfl | ⟨rfl, hne⟩⟩ := h
  · obtain ⟨c, tail, heq, hc⟩ := hwhole.head fraction
    rintro hzero
    rw [List.nil_append, heq] at hzero
    obtain ⟨rfl, -⟩ := List.cons.inj hzero
    exact absurd hc (by decide)
  · exact fun hzero => hne (List.append_cancel_left hzero)

end IsCanonicalDecimal

/-! ## Numbers are written in this form -/

/-- The first digit of a number is no zero, but for zero itself. -/
lemma isWholePart_decimalDigits (n : ℕ) : IsWholePart (decimalDigits n) where
  digits _ hc := Nat.isDigit_of_mem_toDigits (by decide) (by decide) hc
  ne_nil := Nat.toDigits_ne_nil
  eq_zero := by
    rw [decimalDigits]
    induction n using Nat.strongRecOn with
    | ind n ih =>
        rw [Nat.toDigits_eq_if (by decide)]
        split
        · simp
        · rename_i hn
          rw [List.head?_append_of_ne_nil _ Nat.toDigits_ne_nil]
          intro hhead
          -- a leading zero would be that of the number without its last digit
          have hzero := ih (n / 10) (by omega) hhead
          have hvalue := Nat.ofDigitChars_ten_toDigits (n := n / 10)
          rw [hzero] at hvalue
          have hten : n / 10 = 0 := hvalue.symm
          omega

namespace Fixed

variable {places n : ℕ}

lemma eq_zero_of_div_eq_zero (h : (n : ℚ) / 10 ^ places = 0) : n = 0 := by
  have hpower : (10 : ℚ) ^ places ≠ 0 := by positivity
  simpa [hpower] using h

lemma getLast?_fractionDigits (places n : ℕ) : (fractionDigits places n).getLast? ≠ some '0' := by
  rw [fractionDigits, List.getLast?_reverse]
  intro hzero
  have hnot := List.head?_dropWhile_not (fun c => c == '0')
    (List.replicate (places - (decimalDigits n).length) '0' ++ decimalDigits n).reverse
  rw [hzero] at hnot
  exact absurd hnot (by decide)

section

variable (hplaces : 0 < places)

include hplaces

lemma length_fractionDigits_le (h : n < 10 ^ places) :
    (fractionDigits places n).length ≤ places := by
  obtain ⟨k, hk⟩ := exists_fractionDigits places n
  have hfits : (decimalDigits n).length ≤ places :=
    (Nat.length_toDigits_le_iff (by norm_num) hplaces).mpr h
  have hlengths := congrArg List.length hk
  simp only [List.length_append, List.length_replicate] at hlengths
  omega

/-- Without digits the fraction would be zero. -/
lemma fractionDigits_ne_nil (h : n < 10 ^ places) (hn : n ≠ 0) : fractionDigits places n ≠ [] := by
  intro hnil
  have hvalue := digitsValue_fractionDigits hplaces h
  rw [hnil] at hvalue
  have hzero : (n : ℚ) / 10 ^ places = 0 := by
    rw [← hvalue]
    simp [digitsValue]
  exact hn (eq_zero_of_div_eq_zero hzero)

lemma isFractionPart_fractionDigits (h : n < 10 ^ places) (hn : n ≠ 0) :
    IsFractionPart places ('.' :: fractionDigits places n) := by
  refine .point (fun c hc => ?_) (fractionDigits_ne_nil hplaces h hn)
    (length_fractionDigits_le hplaces h) (getLast?_fractionDigits places n)
  rcases mem_fractionDigits hc with rfl | hc
  · decide
  · exact (isWholePart_decimalDigits n).digits c hc

/-- A magnitude consists of the two parts. -/
lemma exists_parts_magnitudeText (n : ℕ) : ∃ whole fraction,
    magnitudeText places n = whole ++ fraction ∧ IsWholePart whole ∧
      IsFractionPart places fraction := by
  have hwhole := isWholePart_decimalDigits (n / 10 ^ places)
  simp only [magnitudeText, Nat.pow_eq]
  split
  · exact ⟨_, [], (List.append_nil _).symm, hwhole, .none⟩
  · rename_i hfraction
    have hlt : n % 10 ^ places < 10 ^ places := Nat.mod_lt _ (by positivity)
    exact ⟨_, _, rfl, hwhole, isFractionPart_fractionDigits hplaces hlt hfraction⟩

/-- Only zero is written as zero. -/
lemma magnitudeText_ne_zero (hn : n ≠ 0) : magnitudeText places n ≠ ['0'] := by
  intro hzero
  have hvalue := readNumeral_magnitudeText hplaces n
  have hread : (readNumeral ['0'] : ℚ) = 0 := by decide +kernel
  rw [hzero, hread] at hvalue
  exact hn (eq_zero_of_div_eq_zero hvalue.symm)

/-- **Numbers are written as canonical decimals.** -/
theorem isCanonicalDecimal_text (q : ℚ) : IsCanonicalDecimal places (text places q) := by
  obtain ⟨whole, fraction, htext, hwhole, hfraction⟩ :=
    exists_parts_magnitudeText hplaces (units places q)
  simp only [text]
  split
  · rename_i hnegative
    have hne := magnitudeText_ne_zero hplaces hnegative.2
    rw [htext] at hne ⊢
    exact ⟨['-'], whole, fraction, rfl, hwhole, hfraction, .inr ⟨rfl, hne⟩⟩
  · exact ⟨[], whole, fraction, htext, hwhole, hfraction, .inl rfl⟩

end

end Fixed

/-! ## Reading -/

/-- The number that a numeral with a minus sign or none stands for. -/
def readSigned : List Char → ℚ
  | '-' :: cs => -readNumeral cs
  | cs => readNumeral cs

lemma readSigned_of_isNumeral {n : List Char} (hn : IsNumeral n) : readSigned n = readNumeral n := by
  obtain ⟨c, rest, rfl, hc⟩ := hn.head
  have hsign : c ≠ '-' := by
    rintro rfl
    rcases hc with hc | hc <;> exact absurd hc (by decide)
  simp [readSigned, hsign]

/-- **What is written is read as the rounded number.** -/
theorem Fixed.readSigned_text {places : ℕ} (hplaces : 0 < places) (q : ℚ) :
    readSigned (text places q) = rounded places q := by
  have hread := readNumeral_magnitudeText hplaces (units places q)
  have hblt : Rat.blt q 0 = decide (q.num < 0) := by
    rw [Bool.eq_iff_iff, decide_eq_true_iff, Rat.num_neg]
    exact Iff.rfl
  simp only [text, rounded, hblt]
  by_cases hnegative : q.num < 0
  · by_cases hzero : units places q = 0
    · rw [if_neg (by simp [hzero]), readSigned_of_isNumeral (isNumeral_magnitudeText _ _), hread]
      simp [hzero]
    · rw [if_pos ⟨hnegative, hzero⟩, readSigned, hread]
      simp [hnegative]
  · rw [if_neg (by simp [hnegative]), readSigned_of_isNumeral (isNumeral_magnitudeText _ _), hread]
    simp [hnegative]

/-! ## Tokens -/

/-- **A numeral is one token.** -/
theorem scan_numeral {n : String} (hn : IsNumeral n.toList) :
    Token.scan n = .ok [⟨.number, n, 0⟩, ⟨.finish, "", n.length⟩] := by
  have hlayout : Layout n.toList [(.number, n)] := by
    have hnumber : Layout (n.toList ++ []) [(.number, String.ofList n.toList)] :=
      .number hn (by simp [EndsNumeral]) rfl .nil
    rwa [List.append_nil, String.ofList_toList] at hnumber
  obtain ⟨body, ⟨fin, hscan, -⟩, hbody⟩ := hlayout.exists_scans
  obtain ⟨body', htokens, hplaced⟩ := exists_placed hscan
  obtain ⟨rfl, hfin⟩ := List.append_inj' htokens rfl
  obtain ⟨t, rfl, ht⟩ := List.map_eq_singleton_iff.mp hbody
  have hinside := hplaced.slices.inside t (List.mem_singleton_self t)
  obtain ⟨kind, text, position⟩ := t
  cases ht
  -- the token is as long as the text, so that it stands at its beginning
  rw [String.length_toList] at hinside
  obtain rfl : position = 0 := by simpa using hinside
  rw [hscan, hfin]
  rfl

/-! ## The text of a number -/

/-- **The text of a number** is a canonical decimal with up to four decimals, which is read as the
number rounded to four decimals, a half to the even neighbour. The text of a number that is not
negative is one token. -/
theorem formatNumber_canonical {α : Type} [Scalar α] {x : α} {q : ℚ} (hx : Denotes x q) :
    IsCanonicalDecimal 4 (formatNumber x).toList ∧ formatNumber x ≠ "" ∧ formatNumber x ≠ "-0" ∧
      IsRounding 4 q (readSigned (formatNumber x).toList) ∧
      (0 ≤ q → Token.scan (formatNumber x) =
        .ok [⟨.number, formatNumber x, 0⟩, ⟨.finish, "", (formatNumber x).length⟩]) := by
  have hfour : 0 < 4 := by norm_num
  have htext : (formatNumber x).toList = Fixed.text 4 q := by
    rw [formatNumber, if_pos hx.finite, hx.value, String.toList_ofList]
  have hcanonical := Fixed.isCanonicalDecimal_text hfour q
  rw [htext]
  refine ⟨hcanonical, fun hempty => ?_, fun hzero => ?_, ?_, fun hq => scan_numeral ?_⟩
  · rw [hempty] at htext
    exact hcanonical.ne_nil htext.symm
  · rw [hzero] at htext
    exact hcanonical.ne_negative_zero htext.symm
  · rw [Fixed.readSigned_text hfour]
    exact Fixed.isRounding_rounded 4 q
  · have hsign : ¬ (q.num < 0 ∧ Fixed.units 4 q ≠ 0) :=
      fun h => h.1.not_ge (Rat.num_nonneg.mpr hq)
    rw [htext, Fixed.text, if_neg hsign]
    exact isNumeral_magnitudeText 4 _

/-- A tie is rounded to an integer, whose zeros at the end are kept. -/
theorem formatNumber_canonical_tie :
    formatNumber (1200.00005 : ℚ) = "1200" ∧ IsCanonicalDecimal 4 "1200".toList ∧
      IsRounding 4 1200.00005 (readSigned "1200".toList) ∧
      Token.scan "1200" = .ok [⟨.number, "1200", 0⟩, ⟨.finish, "", 4⟩] := by
  have htext : formatNumber (1200.00005 : ℚ) = "1200" := by decide +kernel
  obtain ⟨hcanonical, -, -, hrounding, hscan⟩ := formatNumber_canonical (denotes_rat 1200.00005)
  rw [htext] at hcanonical hrounding hscan
  exact ⟨htext, hcanonical, hrounding, hscan (by norm_num)⟩

end CausalEquations
