import CausalEquations.Expr.Token
import CausalEquations.Text.Word
import Mathlib.Data.List.Basic

/-!
# How the classes of characters relate

Names and digits consist of word characters; blanks, operators and punctuation marks contain none.
So a word never reaches beyond the token that it is part of. The classes are lists of ranges, and a
relation between two classes is checked range by range.

* `isWordChar_of_isNameChar`, `isWordChar_of_isDigit` — what belongs to words.
* `isWordChar_of_isBlank`, `isWordChar_of_mem_symbols` — what does not.
* `takeWhile_append_of_head`, `dropWhile_of_head` — where a run of characters of a class ends.
-/

namespace CausalEquations

/-! ## Ranges -/

/-- One range ends before the other starts. -/
def Before (r s : Nat × Nat) : Prop := r.1 ≤ r.2 ∧ r.2 < s.1

instance (r s : Nat × Nat) : Decidable (Before r s) :=
  inferInstanceAs (Decidable (r.1 ≤ r.2 ∧ r.2 < s.1))

instance : Trans Before Before Before :=
  ⟨fun h h' => ⟨h.1, Nat.lt_trans (Nat.lt_of_lt_of_le h.2 h'.1) h'.2⟩⟩

/-- Every range ends before the next one starts. -/
def Ascending (ranges : List (Nat × Nat)) : Prop := ranges.IsChain Before

instance (ranges : List (Nat × Nat)) : Decidable (Ascending ranges) :=
  inferInstanceAs (Decidable (ranges.IsChain Before))

lemma inRanges_of_mem {point : Nat} {ranges : List (Nat × Nat)} {r : Nat × Nat}
    (h : Ascending ranges) (hr : r ∈ ranges) (hlow : r.1 ≤ point) (hhigh : point ≤ r.2) :
    inRanges point ranges = true := by
  induction ranges with
  | nil => simp at hr
  | cons s rest ih =>
      have hfirst := (List.pairwise_cons.mp (List.isChain_iff_pairwise.mp h)).1
      simp only [inRanges]
      rcases List.mem_cons.mp hr with rfl | hr
      · rw [if_neg (by omega), if_pos hhigh]
      · have hs : s.1 ≤ s.2 ∧ s.2 < r.1 := hfirst r hr
        split
        · omega
        · split
          · rfl
          · exact ih h.of_cons hr

/-- No range of one list meets a range of the other. -/
def Apart (ranges ranges' : List (Nat × Nat)) : Prop :=
  ∀ r ∈ ranges, ∀ s ∈ ranges', r.2 < s.1 ∨ s.2 < r.1

instance (ranges ranges' : List (Nat × Nat)) : Decidable (Apart ranges ranges') :=
  inferInstanceAs (Decidable (∀ r ∈ ranges, ∀ s ∈ ranges', r.2 < s.1 ∨ s.2 < r.1))

lemma Apart.inRanges_eq_false {ranges ranges' : List (Nat × Nat)} (h : Apart ranges ranges')
    {point : Nat} (hpoint : inRanges point ranges = true) : inRanges point ranges' = false := by
  rw [Bool.eq_false_iff]
  intro hpoint'
  obtain ⟨r, hr, hlow, hhigh⟩ := mem_of_inRanges hpoint
  obtain ⟨s, hs, hlow', hhigh'⟩ := mem_of_inRanges hpoint'
  have hapart := h r hr s hs
  omega

/-! ## Words -/

lemma isNameChar_of_isNameStart {c : Char} (h : isNameStart c = true) : isNameChar c = true := by
  simp [isNameChar, h]

lemma ascending_letterRanges : Ascending letterRanges := by decide +kernel

lemma ascending_numeralRanges : Ascending numeralRanges := by decide +kernel

/-- The code points of the characters of a name. -/
lemma toNat_of_isNameStart {c : Char} (h : isNameStart c = true) :
    (97 ≤ c.toNat ∧ c.toNat ≤ 122) ∨ (65 ≤ c.toNat ∧ c.toNat ≤ 90) ∨ c.toNat = 95 := by
  simp only [isNameStart, Bool.or_eq_true, Bool.and_eq_true, decide_eq_true_eq, beq_iff_eq,
    Char.le_def, UInt32.le_iff_toNat_le] at h
  rcases h with (h | h) | rfl
  · exact .inl h
  · exact .inr (.inl h)
  · exact .inr (.inr rfl)

lemma isLetter_of_mem {c : Char} {r : Nat × Nat} (hr : r ∈ letterRanges) (hlow : r.1 ≤ c.toNat)
    (hhigh : c.toNat ≤ r.2) : isLetter c = true :=
  inRanges_of_mem ascending_letterRanges hr hlow hhigh

/-- The start of a name is a letter or the underscore. -/
lemma isLetter_of_isNameStart {c : Char} (h : isNameStart c = true) :
    isLetter c = true ∨ c = '_' := by
  have hlower : (97, 122) ∈ letterRanges := by decide +kernel
  have hupper : (65, 90) ∈ letterRanges := by decide +kernel
  rcases toNat_of_isNameStart h with ⟨hlow, hhigh⟩ | ⟨hlow, hhigh⟩ | hpoint
  · exact .inl (isLetter_of_mem hlower hlow hhigh)
  · exact .inl (isLetter_of_mem hupper hlow hhigh)
  · exact .inr (Char.toNat_inj.mp hpoint)

lemma mem_of_digitValueAmong {point value : Nat} {zeros : List Nat}
    (h : digitValueAmong point zeros = some value) : ∃ z ∈ zeros, z ≤ point ∧ point ≤ z + 9 := by
  induction zeros with
  | nil => cases h
  | cons z rest ih =>
      simp only [digitValueAmong] at h
      split at h
      · cases h
      · split at h
        · exact ⟨z, by simp, by omega, by omega⟩
        · obtain ⟨z', hz', hbounds⟩ := ih h
          exact ⟨z', List.mem_cons_of_mem _ hz', hbounds⟩

lemma isWordChar_of_isDigit {c : Char} (h : isDigit c = true) : isWordChar c = true := by
  obtain ⟨value, hvalue⟩ := Option.isSome_iff_exists.mp h
  obtain ⟨z, hz, hlow, hhigh⟩ := mem_of_digitValueAmong hvalue
  have hcover : ∀ z ∈ digitZeros, ∃ r ∈ numeralRanges, r.1 ≤ z ∧ z + 9 ≤ r.2 := by decide +kernel
  obtain ⟨r, hr, hlow', hhigh'⟩ := hcover z hz
  have hnumeral : inRanges c.toNat numeralRanges = true :=
    inRanges_of_mem ascending_numeralRanges hr (by omega) (by omega)
  simp [isWordChar, hnumeral]

lemma isDigit_of_isNameStart {c : Char} (h : isNameStart c = true) : isDigit c = false := by
  rw [Bool.eq_false_iff]
  intro hdigit
  obtain ⟨value, hvalue⟩ := Option.isSome_iff_exists.mp hdigit
  obtain ⟨z, hz, hlow, hhigh⟩ := mem_of_digitValueAmong hvalue
  have hzeros : ∀ z ∈ digitZeros, z + 9 < 65 ∨ 122 < z := by decide +kernel
  have hapart := hzeros z hz
  have hpoint := toNat_of_isNameStart h
  omega

/-- The ten digits of ASCII are digits. -/
lemma isNameStart_of_isDigit {c : Char} (h : isDigit c = true) : isNameStart c = false := by
  rw [← Bool.not_eq_true]
  intro hstart
  rw [isDigit_of_isNameStart hstart] at h
  cases h

lemma isDigit_of_toNat {c : Char} (hlow : 48 ≤ c.toNat) (hhigh : c.toNat ≤ 57) :
    isDigit c = true := by
  have hvalue : digitValue? c = some (c.toNat - 48) := by
    simp only [digitValue?, digitZeros, digitValueAmong]
    rw [if_neg (by omega), if_pos (by omega)]
  simp [isDigit, hvalue]

lemma isNameStart_or_isDigit {c : Char} (h : isNameChar c = true) :
    isNameStart c = true ∨ isDigit c = true := by
  simp only [isNameChar, Bool.or_eq_true, Bool.and_eq_true, decide_eq_true_eq] at h
  refine h.imp_right fun ⟨hlow, hhigh⟩ => ?_
  simp only [Char.le_def, UInt32.le_iff_toNat_le] at hlow hhigh
  exact isDigit_of_toNat hlow hhigh

lemma isWordChar_of_isNameStart {c : Char} (h : isNameStart c = true) : isWordChar c = true := by
  rcases isLetter_of_isNameStart h with h | rfl
  · simp [isWordChar, h]
  · decide

lemma isWordChar_of_isNameChar {c : Char} (h : isNameChar c = true) : isWordChar c = true := by
  rcases isNameStart_or_isDigit h with h | h
  · exact isWordChar_of_isNameStart h
  · exact isWordChar_of_isDigit h

/-! ## Other characters -/

lemma isWordChar_of_isBlank {c : Char} (h : isBlank c = true) : isWordChar c = false := by
  have hletters : Apart blankRanges letterRanges := by decide +kernel
  have hnumerals : Apart blankRanges numeralRanges := by decide +kernel
  have hletter : isLetter c = false := hletters.inRanges_eq_false h
  have hnumeral : inRanges c.toNat numeralRanges = false := hnumerals.inRanges_eq_false h
  have hunderscore : (c == '_') = false := by
    rw [beq_eq_false_iff_ne]
    rintro rfl
    exact absurd h (by decide)
  simp [isWordChar, hletter, hnumeral, hunderscore]

/-- The characters of operators and punctuation marks. -/
def symbols : List Char := longOperators.flatten ++ shortOperators ++ punctuation

lemma isWordChar_of_mem_symbols {c : Char} (h : c ∈ symbols) : isWordChar c = false := by
  have hall : symbols.any isWordChar = false := by decide +kernel
  simpa using List.any_eq_false.mp hall c h

lemma isBlank_of_mem_symbols {c : Char} (h : c ∈ symbols) : isBlank c = false := by
  have hall : symbols.any isBlank = false := by decide +kernel
  simpa using List.any_eq_false.mp hall c h

lemma isBlank_of_isWordChar {c : Char} (h : isWordChar c = true) : isBlank c = false := by
  rw [Bool.eq_false_iff]
  intro hblank
  rw [isWordChar_of_isBlank hblank] at h
  cases h

/-! ## Runs -/

section

variable {p : Char → Bool} {cs rest : List Char}

lemma dropWhile_of_head (h : ∀ c ∈ rest.head?, p c = false) : rest.dropWhile p = rest := by
  cases rest with
  | nil => rfl
  | cons c rest => exact List.dropWhile_cons_of_neg (by simp [h c (by simp)])

lemma takeWhile_append_of_head (hcs : ∀ c ∈ cs, p c = true) (h : ∀ c ∈ rest.head?, p c = false) :
    (cs ++ rest).takeWhile p = cs := by
  rw [List.takeWhile_append_of_pos hcs]
  cases rest with
  | nil => exact List.append_nil cs
  | cons c rest => rw [List.takeWhile_cons_of_neg (by simp [h c (by simp)]), List.append_nil]

lemma dropWhile_append_of_head (hcs : ∀ c ∈ cs, p c = true) (h : ∀ c ∈ rest.head?, p c = false) :
    (cs ++ rest).dropWhile p = rest := by
  rw [List.dropWhile_append_of_pos hcs, dropWhile_of_head h]

end

end CausalEquations
