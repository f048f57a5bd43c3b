import CausalEquations.Proofs.Scanning

/-!
# Names inside numerals

A name can be a whole word inside a numeral in one way only: the mantissa ends with its point, and
the letter of the exponent starts a word that consists of it and of the digits behind it if there is
no sign between them, as in `1.e5` and `1.e+5`. When such a word is replaced, whatever replaces it
has to be an exponent again.

* `IsTail`, `replaceWord_numeral` — what becomes of a numeral.
* `IsReplacement`, `IsReplacement.forms` — what may stand in the place of a name.
* `takeNumeral?_point` — the numeral that is read then.
-/

namespace CausalEquations

variable {old r cs : List Char}

/-! ## Words made of digits and an exponent -/

lemma isWord_of_isName (h : isName old = true) : IsWord old := by
  cases old with
  | nil => cases h
  | cons c rest =>
      simp only [isName, Bool.and_eq_true, List.all_eq_true] at h
      exact ⟨by simp, List.forall_mem_cons.mpr
        ⟨isWordChar_of_isNameStart h.1, fun d hd => isWordChar_of_isNameChar (h.2 d hd)⟩⟩

lemma isDigit_head_of_isName (h : isName old = true) : EndsDigits old := by
  cases old with
  | nil => cases h
  | cons c rest =>
      simp only [isName, Bool.and_eq_true] at h
      intro d hd
      obtain rfl : c = d := by simpa using hd
      exact isDigit_of_isNameStart h.1

lemma EndsDigits.append {w rest : List Char} (h : EndsDigits w) (hne : w ≠ []) :
    EndsDigits (w ++ rest) := by
  obtain ⟨c, tail, rfl⟩ := List.exists_cons_of_ne_nil hne
  exact h

lemma AllDigits.isWordChar {d : List Char} (h : AllDigits d) : ∀ c ∈ d, isWordChar c = true :=
  fun c hc => isWordChar_of_isDigit (h c hc)

lemma isWordChar_letter {e : Char} (h : IsExponentLetter e) : isWordChar e = true := by
  rcases h with rfl | rfl <;> decide

lemma isWordChar_sign {s : Char} (h : s = '+' ∨ s = '-') : isWordChar s = false := by
  rcases h with rfl | rfl <;> decide

lemma endsWord_cons {c : Char} (h : isWordChar c = false) : EndsWord (c :: cs) := by
  intro d hd
  obtain rfl : c = d := by simpa using hd
  exact h

/-- A run that starts with a digit is no name. -/
lemma replaceWord_digits (hold : isName old = true) {p x rest : List Char} (hp : AllDigits p)
    (hx : ∀ c ∈ x, isWordChar c = true) (hne : p ≠ [] ∨ x = []) (hrest : EndsWord rest) :
    replaceWord old r (p ++ (x ++ rest)) = p ++ (x ++ replaceWord old r rest) := by
  have hword : ∀ c ∈ p ++ x, isWordChar c = true :=
    List.forall_mem_append.mpr ⟨hp.isWordChar, hx⟩
  have hdiff : p ++ x ≠ old := by
    rintro rfl
    cases p with
    | nil =>
        rcases hne with hne | rfl
        · exact hne rfl
        · cases hold
    | cons c p =>
        have hc := isDigit_head_of_isName hold c (by simp)
        rw [hp c (by simp)] at hc
        cases hc
  rw [← List.append_assoc, replaceWord_run_of_ne (isWord_of_isName hold) hword hrest hdiff,
    List.append_assoc]

lemma replaceWord_allDigits (hold : isName old = true) {d rest : List Char} (hd : AllDigits d)
    (hrest : EndsWord rest) : replaceWord old r (d ++ rest) = d ++ replaceWord old r rest :=
  replaceWord_digits (x := []) hold hd (by simp) (.inr rfl) hrest

/-- An exponent behind digits stays. -/
lemma replaceWord_exponent (hold : isName old = true) {p x : List Char} (hp : AllDigits p)
    (hne : p ≠ []) (hx : IsExponent x) (hcs : EndsWord cs) :
    replaceWord old r (p ++ (x ++ cs)) = p ++ (x ++ replaceWord old r cs) := by
  cases hx with
  | none => exact replaceWord_digits (x := []) hold hp (by simp) (.inr rfl) hcs
  | @some e s d he hs hd hdigits =>
      have hletter := isWordChar_letter he
      rcases isSign_iff.mp hs with rfl | ⟨c, rfl, hc⟩
      · have hx : ∀ c ∈ e :: d, isWordChar c = true :=
          List.forall_mem_cons.mpr ⟨hletter, hdigits.isWordChar⟩
        exact replaceWord_digits (x := e :: d) hold hp hx (.inl hne) hcs
      · have hsign := isWordChar_sign hc
        have hhead : replaceWord old r (p ++ ([e] ++ c :: (d ++ cs))) =
            p ++ ([e] ++ replaceWord old r (c :: (d ++ cs))) :=
          replaceWord_digits hold hp (by simpa using hletter) (.inl hne) (endsWord_cons hsign)
        rw [replaceWord_other (isWord_of_isName hold) hsign, replaceWord_allDigits hold hdigits hcs]
          at hhead
        simpa using hhead

/-- What stands behind the word `old` in a numeral. -/
inductive IsTail : List Char → List Char → Prop where
  | unsigned {e : Char} {d : List Char} : IsExponentLetter e → d ≠ [] → AllDigits d →
      IsTail (e :: d) []
  | signed {e s : Char} {d : List Char} : IsExponentLetter e → s = '+' ∨ s = '-' → d ≠ [] →
      AllDigits d → IsTail [e] (s :: d)

/-- An exponent behind the point stays unless it starts with the word. -/
lemma replaceWord_lone_exponent (hold : isName old = true) {x : List Char} (hx : IsExponent x) :
    (∀ r cs, EndsWord cs → replaceWord old r (x ++ cs) = x ++ replaceWord old r cs) ∨
      ∃ t, x = old ++ t ∧ IsTail old t ∧
        ∀ r cs, EndsWord cs → replaceWord old r (x ++ cs) = r ++ (t ++ replaceWord old r cs) := by
  have hword := isWord_of_isName hold
  cases hx with
  | none => exact .inl fun _ _ _ => rfl
  | @some e s d he hs hd hdigits =>
      have hletter := isWordChar_letter he
      rcases isSign_iff.mp hs with rfl | ⟨c, rfl, hc⟩
      · have hx : ∀ c ∈ e :: d, isWordChar c = true :=
          List.forall_mem_cons.mpr ⟨hletter, hdigits.isWordChar⟩
        by_cases heq : e :: d = old
        · refine .inr ⟨[], by simpa using heq, heq ▸ .unsigned he hd hdigits, fun r cs hcs => ?_⟩
          rw [List.nil_append, List.nil_append, replaceWord_run hword hx hcs, if_pos heq]
        · exact .inl fun r cs hcs => replaceWord_run_of_ne hword hx hcs heq
      · have hsign := isWordChar_sign hc
        have hrun : ∀ r cs, EndsWord cs → replaceWord old r ([e] ++ c :: (d ++ cs)) =
            (if [e] = old then r else [e]) ++ c :: (d ++ replaceWord old r cs) := by
          intro r cs hcs
          rw [replaceWord_run hword (by simpa using hletter) (endsWord_cons hsign),
            replaceWord_other hword hsign, replaceWord_allDigits hold hdigits hcs]
        by_cases heq : [e] = old
        · refine .inr ⟨c :: d, by simp [← heq], heq ▸ .signed he hc hd hdigits, fun r cs hcs => ?_⟩
          have h := hrun r cs hcs
          rw [if_pos heq] at h
          simpa using h
        · refine .inl fun r cs hcs => ?_
          have h := hrun r cs hcs
          rw [if_neg heq] at h
          simpa using h

/-- A numeral stays, or the word follows the point of its mantissa. -/
lemma replaceWord_numeral (hold : isName old = true) {n : List Char} (hn : IsNumeral n) :
    (∀ r cs, EndsWord cs → replaceWord old r (n ++ cs) = n ++ replaceWord old r cs) ∨
      ∃ w t, n = w ++ '.' :: (old ++ t) ∧ w ≠ [] ∧ AllDigits w ∧ IsTail old t ∧
        ∀ r cs, EndsWord cs →
          replaceWord old r (n ++ cs) = w ++ '.' :: (r ++ (t ++ replaceWord old r cs)) := by
  have hpoint : isWordChar '.' = false := by decide +kernel
  have hword := isWord_of_isName hold
  obtain ⟨m, x, rfl, hm, hx⟩ := hn
  cases hm with
  | whole hne hdigits =>
      refine .inl fun r cs hcs => ?_
      rw [List.append_assoc, replaceWord_exponent hold hdigits hne hx hcs, List.append_assoc]
  | @point w d hw hd hne =>
      have hfront : ∀ r cs, replaceWord old r (w ++ '.' :: d ++ x ++ cs) =
          w ++ '.' :: replaceWord old r (d ++ (x ++ cs)) := by
        intro r cs
        rw [List.append_assoc, List.append_assoc, List.cons_append,
          replaceWord_allDigits hold hw (endsWord_cons hpoint), replaceWord_other hword hpoint]
      by_cases hempty : d = []
      · subst hempty
        rcases replaceWord_lone_exponent hold hx with hsame | ⟨t, rfl, ht, hreplace⟩
        · refine .inl fun r cs hcs => ?_
          rw [hfront, List.nil_append, hsame r cs hcs]
          simp
        · refine .inr ⟨w, t, by simp, by simpa using hne, hw, ht, fun r cs hcs => ?_⟩
          rw [hfront, List.nil_append, hreplace r cs hcs]
      · refine .inl fun r cs hcs => ?_
        rw [hfront, replaceWord_exponent hold hd hempty hx hcs]
        simp

/-! ## What is read in the place of a numeral -/

/-- What may stand in the place of a name: another name, or zero. -/
def IsReplacement (r : List Char) : Prop := isName r = true ∨ r = ['0']

/-- The text prolongs digits and a point to a numeral. -/
def Completes (r : List Char) : Prop :=
  r = ['0'] ∨ ∃ e d, r = e :: d ∧ IsExponentLetter e ∧ d ≠ [] ∧ AllDigits d

/-- The digits, the point and what follows it. -/
lemma takeNumeral?_point {w rest : List Char} (hw : AllDigits w) (hne : w ≠ [])
    (hrest : EndsDigits rest) :
    takeNumeral? (w ++ '.' :: rest) =
      some (w ++ '.' :: (takeExponent rest).1, (takeExponent rest).2) := by
  have hpoint : EndsDigits ('.' :: rest) := by
    intro c hc
    obtain rfl : '.' = c := by simpa using hc
    exact isDigit_point
  unfold takeNumeral? takeMantissa?
  simp [hw.take hpoint, takeDigits_of_endsDigits hrest, hne]

lemma Completes.isNumeral {w : List Char} (h : Completes r) (hw : AllDigits w) (hne : w ≠ []) :
    IsNumeral (w ++ '.' :: r) := by
  rcases h with rfl | ⟨e, d, rfl, he, hd, hdigits⟩
  · have hzero : AllDigits ['0'] := by simp only [AllDigits, List.forall_mem_singleton]; decide
    exact ⟨w ++ ['.', '0'], [], by simp, .point hw hzero (.inl hne), .none⟩
  · exact ⟨w ++ ['.'], e :: ([] ++ d), by simp, .point hw .nil (.inl hne),
      .some he (.inl rfl) hd hdigits⟩

lemma startsWord_of_isNameStart {c : Char} {rest : List Char} (h : isNameStart c = true) :
    startsWord (c :: rest) = true := by
  rcases isLetter_of_isNameStart h with h | rfl
  · simp [startsWord, h]
  · simp [startsWord]

/-- An exponent that runs into a word leaves the word, or is no exponent and leaves its letter. -/
lemma startsWord_takeExponent {c x : Char} {d : List Char} (hletter : IsExponentLetter c)
    (hc : isNameStart c = true) (hd : AllDigits d) (hx : isNameStart x = true) (rest : List Char) :
    startsWord (takeExponent (c :: (d ++ x :: rest))).2 = true := by
  have hends : EndsDigits (x :: rest) := by
    intro y hy
    obtain rfl : x = y := by simpa using hy
    exact isDigit_of_isNameStart hx
  have hsign : ¬ StartsSign (d ++ x :: rest) := by
    cases d with
    | nil =>
        rintro ⟨y, hy, hsign⟩
        obtain rfl : x = y := by simpa using hy
        rcases hsign with rfl | rfl <;> exact absurd hx (by decide)
    | cons d ds => exact EndsDigits.not_startsSign (by simp) hd _
  have htake := takeExponent_letter (s := []) hletter (.inl rfl) fun _ => hsign
  rw [hd.take hends, List.nil_append] at htake
  rw [htake]
  split
  · exact startsWord_of_isNameStart hc
  · exact startsWord_of_isNameStart hx

/-- A replacement completes a numeral, is the letter of an exponent, or makes a number run into a
word. -/
lemma IsReplacement.forms (h : IsReplacement r) :
    Completes r ∨ (∃ e, r = [e] ∧ IsExponentLetter e) ∨
      (EndsDigits r ∧ r ≠ [] ∧ ∀ rest, startsWord (takeExponent (r ++ rest)).2 = true) := by
  rcases h with hname | rfl
  · obtain ⟨c, v, rfl⟩ : ∃ c v, r = c :: v := by
      cases r with
      | nil => cases hname
      | cons c v => exact ⟨c, v, rfl⟩
    have hends := isDigit_head_of_isName hname
    simp only [isName, Bool.and_eq_true, List.all_eq_true] at hname
    obtain ⟨hc, hv⟩ := hname
    by_cases hletter : IsExponentLetter c
    · rcases hdigits : takeDigits v with ⟨d, v'⟩
      obtain ⟨rfl, hd, hend⟩ := takeDigits_eq hdigits
      cases v' with
      | nil =>
          rw [List.append_nil]
          cases d with
          | nil => exact .inr (.inl ⟨c, rfl, hletter⟩)
          | cons d ds => exact .inl (.inr ⟨c, d :: ds, rfl, hletter, by simp, hd⟩)
      | cons x v' =>
          have hx : isNameStart x = true := by
            refine (isNameStart_or_isDigit (hv x (by simp))).resolve_right ?_
            rw [hend x (by simp)]
            exact Bool.false_ne_true
          refine .inr (.inr ⟨hends, by simp, fun rest => ?_⟩)
          simpa using startsWord_takeExponent hletter hc hd hx (v' ++ rest)
    · refine .inr (.inr ⟨hends, by simp, fun rest => ?_⟩)
      rw [takeExponent_other (by simpa using hletter)]
      exact startsWord_of_isNameStart hc
  · exact .inl (.inl rfl)

end CausalEquations
