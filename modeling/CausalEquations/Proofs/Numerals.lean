import CausalEquations.Proofs.Characters
import Mathlib.Data.List.TakeWhile

/-!
# Numerals

The form of a numeral, said without reading one: a mantissa with at most one point, and an exponent
that is complete or absent. What is read off the front of a text has this form, and a numeral is read
as a whole whenever the text behind it does not prolong it.

* `AllDigits`, `IsMantissa`, `IsExponent`, `IsNumeral` — the form.
* `takeNumeral?_eq_some` — what is read is a numeral.
* `IsNumeral.take` — a numeral is read as a whole.
-/

namespace CausalEquations

/-! ## Form -/

/-- There are digits only. -/
def AllDigits (cs : List Char) : Prop := ∀ c ∈ cs, isDigit c = true

lemma AllDigits.nil : AllDigits [] := List.forall_mem_nil _

/-- The text does not go on with a digit. -/
def EndsDigits (cs : List Char) : Prop := ∀ c ∈ cs.head?, isDigit c = false

/-- Digits with at most one point among them, and not a lone point. -/
inductive IsMantissa : List Char → Prop where
  | whole {w : List Char} : w ≠ [] → AllDigits w → IsMantissa w
  | point {w d : List Char} : AllDigits w → AllDigits d → w ≠ [] ∨ d ≠ [] →
      IsMantissa (w ++ '.' :: d)

/-- The sign of an exponent, if it has one. -/
def IsSign (s : List Char) : Prop := s = [] ∨ s = ['+'] ∨ s = ['-']

/-- The letter of an exponent. -/
def IsExponentLetter (e : Char) : Prop := e = 'e' ∨ e = 'E'

/-- No exponent, or one that is complete. -/
inductive IsExponent : List Char → Prop where
  | none : IsExponent []
  | some {e : Char} {s d : List Char} : IsExponentLetter e → IsSign s → d ≠ [] → AllDigits d →
      IsExponent (e :: (s ++ d))

/-- A mantissa and its exponent. -/
def IsNumeral (n : List Char) : Prop := ∃ m x, n = m ++ x ∧ IsMantissa m ∧ IsExponent x

/-- The text does not prolong a numeral in front of it. -/
def EndsNumeral (cs : List Char) : Prop :=
  ∀ c ∈ cs.head?, isDigit c = false ∧ c ≠ '.' ∧ ¬ IsExponentLetter c

lemma EndsNumeral.endsDigits {cs : List Char} (h : EndsNumeral cs) : EndsDigits cs :=
  fun c hc => (h c hc).1

lemma isSign_iff {s : List Char} : IsSign s ↔ s = [] ∨ ∃ c, s = [c] ∧ (c = '+' ∨ c = '-') := by
  constructor
  · rintro (rfl | rfl | rfl)
    · exact .inl rfl
    · exact .inr ⟨'+', rfl, .inl rfl⟩
    · exact .inr ⟨'-', rfl, .inr rfl⟩
  · rintro (rfl | ⟨c, rfl, rfl | rfl⟩)
    · exact .inl rfl
    · exact .inr (.inl rfl)
    · exact .inr (.inr rfl)

lemma isSign_singleton {c : Char} (h : c = '+' ∨ c = '-') : IsSign [c] :=
  isSign_iff.mpr (.inr ⟨c, rfl, h⟩)

lemma isDigit_sign {s : Char} (h : s = '+' ∨ s = '-') : isDigit s = false := by
  rcases h with rfl | rfl <;> decide

lemma isDigit_letter {e : Char} (h : IsExponentLetter e) : isDigit e = false := by
  rcases h with rfl | rfl <;> decide

lemma isDigit_point : isDigit '.' = false := by decide

/-! ## Digits -/

lemma AllDigits.take {w rest : List Char} (hw : AllDigits w) (hrest : EndsDigits rest) :
    takeDigits (w ++ rest) = (w, rest) := by
  unfold takeDigits
  rw [takeWhile_append_of_head hw hrest, dropWhile_append_of_head hw hrest]

lemma takeDigits_of_endsDigits {rest : List Char} (hrest : EndsDigits rest) :
    takeDigits rest = ([], rest) :=
  AllDigits.take .nil hrest

lemma takeDigits_eq {cs w rest : List Char} (h : takeDigits cs = (w, rest)) :
    cs = w ++ rest ∧ AllDigits w ∧ EndsDigits rest := by
  cases h
  refine ⟨List.takeWhile_append_dropWhile.symm, fun c hc => List.mem_takeWhile_imp hc,
    fun c hc => ?_⟩
  have hnot := List.head?_dropWhile_not isDigit cs
  rw [Option.mem_def] at hc
  rw [hc] at hnot
  simpa using hnot

/-! ## Exponents -/

/-- The text starts with a sign. -/
def StartsSign (cs : List Char) : Prop := ∃ c ∈ cs.head?, c = '+' ∨ c = '-'

lemma EndsDigits.not_startsSign {cs : List Char} (hne : cs ≠ []) (h : AllDigits cs)
    (rest : List Char) : ¬ StartsSign (cs ++ rest) := by
  obtain ⟨c, tail, rfl⟩ := List.exists_cons_of_ne_nil hne
  rintro ⟨c', hc', hsign⟩
  obtain rfl : c = c' := by simpa using hc'
  have hdigit := h c (by simp)
  rw [isDigit_sign hsign] at hdigit
  cases hdigit

/-- What follows the letter of an exponent: a sign as far as there is one, and then digits. -/
lemma takeExponent_letter {e : Char} {s after : List Char} (he : IsExponentLetter e) (hs : IsSign s)
    (hafter : s = [] → ¬ StartsSign after) :
    takeExponent (e :: (s ++ after)) =
      if (takeDigits after).1.isEmpty then ([], e :: (s ++ after))
      else (e :: (s ++ (takeDigits after).1), (takeDigits after).2) := by
  have hletter : e = 'e' ∨ e = 'E' := he
  rcases hs with rfl | rfl | rfl
  · cases after with
    | nil => simp only [takeExponent, hletter, if_true, List.append_nil]; rfl
    | cons c after =>
        have hc : ¬ (c = '+' ∨ c = '-') := fun h => hafter rfl ⟨c, by simp, h⟩
        simp only [takeExponent, hletter, if_true, List.nil_append, hc, if_false, List.length_nil,
          List.drop_zero]
        rfl
  · simp only [takeExponent, hletter, if_true, List.cons_append, List.nil_append, true_or,
      List.length_cons, List.length_nil, List.drop_succ_cons, List.drop_zero]
  · simp only [takeExponent, hletter, if_true, List.cons_append, List.nil_append, or_true,
      List.length_cons, List.length_nil, List.drop_succ_cons, List.drop_zero]

lemma takeExponent_other {cs : List Char} (h : ∀ c ∈ cs.head?, ¬ IsExponentLetter c) :
    takeExponent cs = ([], cs) := by
  cases cs with
  | nil => rfl
  | cons c rest =>
      have hc : ¬ (c = 'e' ∨ c = 'E') := h c (by simp)
      simp only [takeExponent, hc, if_false]

lemma exists_sign (cs : List Char) :
    ∃ s after, cs = s ++ after ∧ IsSign s ∧ (s = [] → ¬ StartsSign after) := by
  by_cases h : StartsSign cs
  · obtain ⟨c, hc, hsign⟩ := h
    obtain ⟨rest, rfl⟩ := List.head?_eq_some_iff.mp hc
    exact ⟨[c], rest, rfl, isSign_singleton hsign, fun h => absurd h (List.cons_ne_nil c [])⟩
  · exact ⟨[], cs, rfl, .inl rfl, fun _ => h⟩

lemma takeExponent_eq {cs x rest : List Char} (h : takeExponent cs = (x, rest)) :
    cs = x ++ rest ∧ IsExponent x := by
  by_cases hletter : ∃ e ∈ cs.head?, IsExponentLetter e
  · obtain ⟨e, he, hletter⟩ := hletter
    obtain ⟨tail, rfl⟩ := List.head?_eq_some_iff.mp he
    obtain ⟨s, after, rfl, hs, hafter⟩ := exists_sign tail
    rw [takeExponent_letter hletter hs hafter] at h
    rcases hdigits : takeDigits after with ⟨d, rest'⟩
    obtain ⟨rfl, hd, -⟩ := takeDigits_eq hdigits
    rw [hdigits] at h
    split at h
    · cases h
      exact ⟨rfl, .none⟩
    · rename_i hempty
      cases h
      exact ⟨by simp, .some hletter hs (by simpa using hempty) hd⟩
  · rw [takeExponent_other fun c hc hcon => hletter ⟨c, hc, hcon⟩] at h
    cases h
    exact ⟨rfl, .none⟩

lemma IsExponent.take {x rest : List Char} (hx : IsExponent x) (hrest : EndsNumeral rest) :
    takeExponent (x ++ rest) = (x, rest) := by
  cases hx with
  | none => exact takeExponent_other fun c hc => (hrest c hc).2.2
  | @some e s d he hs hd hdigits =>
      have hletter := takeExponent_letter he hs fun _ => EndsDigits.not_startsSign hd hdigits rest
      rw [hdigits.take hrest.endsDigits] at hletter
      rw [List.cons_append, List.append_assoc, hletter, if_neg (by simpa using hd)]

/-! ## Numerals -/

lemma takeMantissa?_eq {cs m rest : List Char} (h : takeMantissa? cs = some (m, rest)) :
    cs = m ++ rest ∧ IsMantissa m := by
  unfold takeMantissa? at h
  rcases hwhole : takeDigits cs with ⟨w, after⟩
  obtain ⟨rfl, hw, -⟩ := takeDigits_eq hwhole
  rw [hwhole] at h
  cases after with
  | nil =>
      dsimp only at h
      split at h
      · cases h
      · rename_i hempty
        cases h
        exact ⟨rfl, .whole (by simpa using hempty) hw⟩
  | cons c after =>
      dsimp only at h
      split at h
      · rename_i hpoint
        subst hpoint
        rcases hdecimals : takeDigits after with ⟨d, after'⟩
        obtain ⟨rfl, hd, -⟩ := takeDigits_eq hdecimals
        rw [hdecimals] at h
        dsimp only at h
        split at h
        · cases h
        · rename_i hempty
          cases h
          refine ⟨by simp, .point hw hd ?_⟩
          simpa [Classical.or_iff_not_imp_left] using hempty
      · split at h
        · cases h
        · rename_i hempty
          cases h
          exact ⟨rfl, .whole (by simpa using hempty) hw⟩

lemma IsMantissa.take {m rest : List Char} (hm : IsMantissa m)
    (hrest : ∀ c ∈ rest.head?, isDigit c = false ∧ c ≠ '.') :
    takeMantissa? (m ++ rest) = some (m, rest) := by
  have hends : EndsDigits rest := fun c hc => (hrest c hc).1
  unfold takeMantissa?
  cases hm with
  | whole hne hdigits =>
      rw [hdigits.take hends]
      cases rest with
      | nil => simp [hne]
      | cons c rest =>
          have hpoint : c ≠ '.' := (hrest c (by simp)).2
          simp [hne, hpoint]
  | @point w d hw hd hne =>
      have hpoint : EndsDigits ('.' :: (d ++ rest)) := by
        intro c hc
        simp only [List.head?_cons, Option.mem_some_iff] at hc
        subst hc
        exact isDigit_point
      rw [List.append_assoc, List.cons_append, hw.take hpoint]
      simp only [hd.take hends, if_true]
      rw [if_neg]
      simpa [Classical.or_iff_not_imp_left] using hne

lemma takeNumeral?_eq_some {cs n rest : List Char} (h : takeNumeral? cs = some (n, rest)) :
    cs = n ++ rest ∧ IsNumeral n := by
  unfold takeNumeral? at h
  split at h
  · cases h
  · rename_i m after hmantissa
    cases h
    obtain ⟨rfl, hm⟩ := takeMantissa?_eq hmantissa
    obtain ⟨hsplit, hx⟩ : after = _ ∧ _ := takeExponent_eq rfl
    exact ⟨by rw [List.append_assoc, ← hsplit], _, _, rfl, hm, hx⟩

/-- A numeral is read as a whole. -/
lemma IsNumeral.take {n rest : List Char} (hn : IsNumeral n) (hrest : EndsNumeral rest) :
    takeNumeral? (n ++ rest) = some (n, rest) := by
  obtain ⟨m, x, rfl, hm, hx⟩ := hn
  have hmantissa : takeMantissa? (m ++ (x ++ rest)) = some (m, x ++ rest) := by
    refine hm.take fun c hc => ?_
    cases hx with
    | none => exact ⟨(hrest c hc).1, (hrest c hc).2.1⟩
    | @some e s d he _ _ _ =>
        simp only [List.cons_append, List.head?_cons, Option.mem_some_iff] at hc
        subst hc
        refine ⟨isDigit_letter he, ?_⟩
        rcases he with rfl | rfl <;> decide
  unfold takeNumeral?
  rw [List.append_assoc, hmantissa]
  simp only [hx.take hrest]

/-- A numeral starts with a digit or a point. -/
lemma IsNumeral.head {n : List Char} (hn : IsNumeral n) :
    ∃ c rest, n = c :: rest ∧ (isDigit c = true ∨ c = '.') := by
  obtain ⟨m, x, rfl, hm, -⟩ := hn
  cases hm with
  | whole hne hw =>
      obtain ⟨c, rest, rfl⟩ := List.exists_cons_of_ne_nil hne
      exact ⟨c, _, rfl, .inl (hw c (by simp))⟩
  | @point w d hw _ _ =>
      cases w with
      | nil => exact ⟨'.', _, rfl, .inr rfl⟩
      | cons c w => exact ⟨c, _, rfl, .inl (hw c (by simp))⟩

/-- No numeral is read off a text that starts with another character. -/
lemma takeNumeral?_eq_none {c : Char} {rest : List Char} (hdigit : isDigit c = false)
    (hpoint : c ≠ '.') : takeNumeral? (c :: rest) = none := by
  cases h : takeNumeral? (c :: rest) with
  | none => rfl
  | some r =>
      obtain ⟨hsplit, hn⟩ := takeNumeral?_eq_some h
      obtain ⟨c', tail, hn', hc'⟩ := hn.head
      rw [hn'] at hsplit
      obtain ⟨rfl, -⟩ : c = c' ∧ _ := List.cons.inj hsplit
      rcases hc' with hc' | hc'
      · rw [hdigit] at hc'
        cases hc'
      · exact absurd hc' hpoint

end CausalEquations
