import CausalEquations.Proofs.Substitution

/-!
# Replacing a name inside numerals

Where the name is part of a numeral, the replacement may leave a numeral, make it a sum of two
numbers, join it with the sign and the digits behind it, or break it. In each case but the last the
tokens still lead to where they led before.

* `survives_of_completes` — what completes a numeral does not break it.
* `Carries.number`, `Carries.signed`, `Carries.joined` — the numeral survives.
* `carries` — the replacement in every text of an expression.
-/

namespace CausalEquations

variable {c : Mode × List Frame} {ls ls' : List Lexeme} {old r cs : List Char}

/-! ## Numerals that survive -/

lemma survives_of_take {n n' rest : List Char}
    (h : takeNumeral? (replaceWord old r n ++ cs) = some (n', rest)) :
    survives old r (n, cs) = (!startsWord rest && rest.head? != some '.') := by
  simp only [survives, h]

lemma survives_of_endsNumeral {n n' rest : List Char}
    (h : takeNumeral? (replaceWord old r n ++ cs) = some (n', rest)) (hrest : EndsNumeral rest)
    (hword : startsWord rest = false) : survives old r (n, cs) = true := by
  rw [survives_of_take h, hword]
  cases rest with
  | nil => rfl
  | cons c rest => simp [(hrest c (by simp)).2.1]

/-- A numeral that becomes another numeral. -/
lemma Carries.number {n n' : List Char} (hold : isName old = true) (hn : IsNumeral n)
    (hn' : IsNumeral n') (hcs : Separated cs)
    (hreplace : ∀ cs, EndsWord cs → replaceWord old r (n ++ cs) = n' ++ replaceWord old r cs)
    (h : Carries old r cs ls) : Carries old r (n ++ cs) ((.number, String.ofList n) :: ls) := by
  have hcs' := hcs.replaceWord (r := r) hold
  have halone : replaceWord old r n = n' := by
    have h := hreplace [] .nil
    simpa using h
  refine .cons (lexeme?_number hn hcs.endsNumeral) (hreplace cs hcs.endsWord)
    (lexeme?_number hn' hcs'.endsNumeral) (fun _ => hcs'.startsWord) (fun _ => ?_)
    (fun known ⟨mode, stack⟩ => ?_) (by simp [namesOf]) h
  · exact survives_of_endsNumeral (halone.symm ▸ hn'.take hcs.endsNumeral) hcs.endsNumeral
      hcs.startsWord
  · rw [step_number, step_number]

/-- A sum of two numbers goes through wherever a number does. -/
lemma finishes_signed {known known' : Name → Bool} {a b x op : String}
    (hop : (strength? precedence op).isSome = true)
    (h : ∀ c, Finishes known c ls' ↔ Finishes known' c ls) (c : Mode × List Frame) :
    Finishes known c ((.number, a) :: (.op, op) :: (.number, b) :: ls') ↔
      Finishes known' c ((.number, x) :: ls) := by
  obtain ⟨mode, stack⟩ := c
  have hrest : Finishes known (.after .other, stack) ((.op, op) :: (.number, b) :: ls') ↔
      Finishes known (.after .other, stack) ls' := by
    simp [finishes_cons, step, stepAfter, hop, stepOperand]
  rw [finishes_cons, finishes_cons, step_number, step_number]
  cases mode with
  | after callee => simp
  | operand alone | arguments => simp [hrest, h]

lemma strength?_sign {s : Char} (h : s = '+' ∨ s = '-') :
    (strength? precedence (String.ofList [s])).isSome = true := by
  rcases h with rfl | rfl <;> decide

lemma sign_mem_symbolTokens {s : Char} (h : s = '+' ∨ s = '-') :
    (TokenKind.op, [s]) ∈ symbolTokens := by
  rcases h with rfl | rfl <;> decide

lemma sign_not_longOperator {s : Char} (h : s = '+' ∨ s = '-') (cs : List Char) :
    ([s] ++ cs).take 2 ∉ longOperators := by
  have hall : ∀ op ∈ longOperators, op.head? ≠ some '+' ∧ op.head? ≠ some '-' := by decide
  intro hmem
  have hhead := hall _ hmem
  rcases h with rfl | rfl
  · exact hhead.1 (by cases cs <;> rfl)
  · exact hhead.2 (by cases cs <;> rfl)

lemma endsNumeral_sign {s : Char} (h : s = '+' ∨ s = '-') (cs : List Char) :
    EndsNumeral (s :: cs) := by
  intro c hc
  obtain rfl : s = c := by simpa using hc
  refine ⟨isDigit_sign h, ?_, ?_⟩
  · rcases h with rfl | rfl <;> decide
  · rcases h with rfl | rfl <;> exact fun h => by rcases h with h | h <;> cases h

lemma startsWord_sign {s : Char} (h : s = '+' ∨ s = '-') : startsWord (s :: cs) = false := by
  rcases h with rfl | rfl <;> simp [startsWord] <;> decide

lemma AllDigits.isNumeral {d : List Char} (h : AllDigits d) (hne : d ≠ []) : IsNumeral d :=
  ⟨d, [], by simp, .whole hne h, .none⟩

/-- A replacement that completes numerals breaks none. -/
lemma survives_of_completes {n : List Char} (hold : isName old = true)
    (hr : Completes r) (hn : IsNumeral n) (hcs : Separated cs) :
    survives old r (n, cs) = true := by
  rcases replaceWord_numeral hold hn with hsame | ⟨w, t, -, hne, hw, ht, hreplace⟩
  · have halone : replaceWord old r n = n := by
      simpa using hsame r [] .nil
    exact survives_of_endsNumeral (halone.symm ▸ hn.take hcs.endsNumeral) hcs.endsNumeral
      hcs.startsWord
  · have halone : replaceWord old r n = w ++ '.' :: (r ++ t) := by
      simpa using hreplace r [] .nil
    have hn' := hr.isNumeral hw hne
    cases ht with
    | unsigned _ _ _ =>
        rw [List.append_nil] at halone
        exact survives_of_endsNumeral (halone.symm ▸ hn'.take hcs.endsNumeral) hcs.endsNumeral
          hcs.startsWord
    | @signed e s d _ hs _ _ =>
        have htake : takeNumeral? (replaceWord [e] r n ++ cs) =
            some (w ++ '.' :: r, s :: (d ++ cs)) := by
          rw [halone, ← hn'.take (endsNumeral_sign hs (d ++ cs))]
          simp
        exact survives_of_endsNumeral htake (endsNumeral_sign hs _) (startsWord_sign hs)

/-- A signed exponent that loses its letter becomes a sum of two numbers. -/
lemma Carries.signed {n w d : List Char} {s : Char} (hold : isName old = true) (hn : IsNumeral n)
    (hw : AllDigits w) (hne : w ≠ []) (hr : Completes r) (hs : s = '+' ∨ s = '-')
    (hd : AllDigits d) (hdne : d ≠ []) (hcs : Separated cs)
    (hreplace : ∀ cs, EndsWord cs →
      replaceWord old r (n ++ cs) = (w ++ '.' :: r) ++ ([s] ++ (d ++ replaceWord old r cs)))
    (h : Carries old r cs ls) : Carries old r (n ++ cs) ((.number, String.ofList n) :: ls) := by
  have hcs' := hcs.replaceWord (r := r) hold
  have hn' := hr.isNumeral hw hne
  have hd' := hd.isNumeral hdne
  have hlex := lexeme?_number hn hcs.endsNumeral
  have hlexd := lexeme?_number hd' hcs'.endsNumeral
  have hlexs := lexeme?_symbol (sign_mem_symbolTokens hs)
    fun _ => sign_not_longOperator hs (d ++ replaceWord old r cs)
  have hlexn : lexeme? ((w ++ '.' :: r) ++ ([s] ++ (d ++ replaceWord old r cs))) =
      some (.number, w ++ '.' :: r) := lexeme?_number hn' (endsNumeral_sign hs _)
  have hsurvives := survives_of_completes hold hr hn hcs
  have hnumerals : NumeralsSurvive old r (n ++ cs) ↔ NumeralsSurvive old r cs := by
    unfold NumeralsSurvive
    rw [numeralsFrom_lexeme hlex, if_pos rfl]
    simp only [List.forall_mem_cons, hsurvives, true_and]
  refine ⟨fun hkept => ?_, fun hlost ls' hlayout => ?_⟩
  · obtain ⟨ls', hlayout, hfinishes, hnames⟩ := h.kept (hnumerals.mp hkept)
    rw [hreplace cs hcs.endsWord]
    have hlayout' := Layout.lexeme hlexn (fun _ => startsWord_sign hs)
      (.lexeme hlexs (fun h => absurd h (by decide))
        (.lexeme hlexd (fun _ => hcs'.startsWord) hlayout))
    refine ⟨_, hlayout', fun known c => ?_, ?_⟩
    · exact finishes_signed (strength?_sign hs) (hfinishes known) c
    · simpa [namesOf] using hnames
  · rw [hreplace cs hcs.endsWord] at hlayout
    obtain ⟨rest, rfl, hlayout, -⟩ := hlayout.cut hlexn
    obtain ⟨rest, rfl, hlayout, -⟩ := hlayout.cut hlexs
    obtain ⟨rest, rfl, hlayout, -⟩ := hlayout.cut hlexd
    exact fun hfollows => h.lost (mt hnumerals.mpr hlost) rest hlayout hfollows.tail.tail.tail

/-! ## Numerals that break -/

/-- A text in which a number runs into a word has no tokens. -/
lemma not_layout_of_take {n rest : List Char} (h : takeNumeral? cs = some (n, rest))
    (hword : startsWord rest = true) : ¬ Layout cs ls := by
  intro hlayout
  obtain ⟨rfl, -⟩ := takeNumeral?_eq_some h
  have hlex : lexeme? (n ++ rest) = some (.number, n) := by
    unfold lexeme?
    rw [h]
  obtain ⟨-, -, -, hnot⟩ := hlayout.cut hlex
  rw [hnot rfl] at hword
  cases hword

/-- A numeral that breaks. -/
lemma Carries.broken {n : List Char} (hlex : lexeme? (n ++ cs) = some (.number, n))
    (hbreaks : survives old r (n, cs) = false)
    (hlost : ∀ ls', Layout (replaceWord old r (n ++ cs)) ls' → ¬ Follows ls') :
    Carries old r (n ++ cs) ls := by
  refine ⟨fun hkept => ?_, fun _ => hlost⟩
  have hmem : (n, cs) ∈ numeralsFrom 0 (n ++ cs) := by
    rw [numeralsFrom_lexeme hlex, if_pos rfl]
    exact List.mem_cons_self
  rw [hkept _ hmem] at hbreaks
  cases hbreaks

/-- Neither is a numeral in front of a point the end of an operand. -/
lemma not_follows_of_point {n rest : List Char}
    (h : takeNumeral? cs = some (n, '.' :: rest)) (hlayout : Layout cs ls) : ¬ Follows ls := by
  obtain ⟨rfl, -⟩ := takeNumeral?_eq_some h
  have hlex : lexeme? (n ++ '.' :: rest) = some (.number, n) := by
    unfold lexeme?
    rw [h]
  obtain ⟨ls, rfl, hlayout, -⟩ := hlayout.cut hlex
  intro hfollows
  have hseparated := hfollows.separated_number hlayout
  exact absurd (hseparated '.' rfl) (by decide)

/-! ## Numerals that keep the letter of the exponent only -/

/-- The letter is no exponent without digits behind it. -/
lemma takeExponent_lone {e : Char} {s after : List Char} (he : IsExponentLetter e) (hs : IsSign s)
    (hsign : s = [] → ¬ StartsSign after) (hafter : EndsDigits after) :
    takeExponent (e :: (s ++ after)) = ([], e :: (s ++ after)) := by
  rw [takeExponent_letter he hs hsign, takeDigits_of_endsDigits hafter]
  rfl

lemma startsWord_letter {e : Char} (he : IsExponentLetter e) : startsWord (e :: cs) = true := by
  rcases he with rfl | rfl <;> exact startsWord_of_isNameStart (by decide)

lemma endsDigits_letter {e : Char} (he : IsExponentLetter e) : EndsDigits (e :: cs) := by
  intro c hc
  obtain rfl : e = c := by simpa using hc
  exact isDigit_letter he

lemma endsNumeral_of_endsDigits (hdigits : EndsDigits cs) (hword : startsWord cs = false)
    (hpoint : cs.head? ≠ some '.') : EndsNumeral cs := by
  intro c hc
  refine ⟨hdigits c hc, ?_, fun hletter => ?_⟩
  · rintro rfl
    exact hpoint hc
  · obtain ⟨rest, rfl⟩ := List.head?_eq_some_iff.mp hc
    rw [startsWord_letter hletter] at hword
    cases hword

section Letter

variable {n w : List Char} {e : Char}

/-- What is read where only the letter of the exponent is left. -/
lemma takeNumeral?_letter (hw : AllDigits w) (hne : w ≠ []) (he : IsExponentLetter e) :
    takeNumeral? (w ++ '.' :: e :: cs) =
      some (w ++ '.' :: (takeExponent (e :: cs)).1, (takeExponent (e :: cs)).2) :=
  takeNumeral?_point hw hne (endsDigits_letter he)

/-- Without a sign and digits behind it the numeral breaks. -/
lemma Carries.lone (hold : isName old = true) (hn : IsNumeral n) (hw : AllDigits w) (hne : w ≠ [])
    (he : IsExponentLetter e) (hcs : Separated cs) {s after : List Char} (hsplit : cs = s ++ after)
    (hs : IsSign s) (hsign : s = [] → ¬ StartsSign after) (hafter : EndsDigits after)
    (hreplace : ∀ cs, EndsWord cs →
      replaceWord old [e] (n ++ cs) = w ++ '.' :: e :: replaceWord old [e] cs) :
    Carries old [e] (n ++ cs) ls := by
  have hword := isWord_of_isName hold
  have hends : EndsDigits (replaceWord old [e] after) := by
    intro c hc
    rcases head_replaceWord hword (by simp : [e] ≠ []) after with hhead | ⟨hhead, -⟩
    · exact hafter c (hhead ▸ hc)
    · rw [hhead] at hc
      obtain rfl := Option.some.inj hc
      exact isDigit_letter he
  have hresult : ∃ s' after', replaceWord old [e] cs = s' ++ after' ∧ IsSign s' ∧
      (s' = [] → ¬ StartsSign after') ∧ EndsDigits after' := by
    rcases isSign_iff.mp hs with rfl | ⟨c, rfl, hc⟩
    · refine ⟨[], replaceWord old [e] after, by rw [hsplit]; rfl, .inl rfl, fun _ => ?_, hends⟩
      rintro ⟨c, hc, hsign'⟩
      cases after with
      | nil => cases hc
      | cons d after =>
          rw [replaceWord_other hword (hcs.endsWord d (by simp [hsplit]))] at hc
          obtain rfl := Option.some.inj hc
          exact hsign rfl ⟨d, by simp, hsign'⟩
    · refine ⟨[c], replaceWord old [e] after, ?_, hs, fun h => (by cases h), hends⟩
      rw [hsplit, List.singleton_append, replaceWord_other hword (isWordChar_sign hc)]
      rfl
  have halone : replaceWord old [e] n = w ++ '.' :: [e] := by
    simpa using hreplace [] .nil
  refine .broken (lexeme?_number hn hcs.endsNumeral) ?_ fun ls' hlayout => ?_
  · have htake : takeNumeral? (replaceWord old [e] n ++ cs) = some (w ++ '.' :: [], e :: cs) := by
      rw [halone, List.append_assoc, List.cons_append, List.singleton_append,
        takeNumeral?_letter hw hne he, hsplit, takeExponent_lone he hs hsign hafter]
    rw [survives_of_take htake, startsWord_letter he]
    rfl
  · obtain ⟨s', after', heq, hs', hsign', hafter'⟩ := hresult
    rw [hreplace cs hcs.endsWord] at hlayout
    have htake : takeNumeral? (w ++ '.' :: e :: replaceWord old [e] cs) = _ :=
      takeNumeral?_letter hw hne he
    rw [heq, takeExponent_lone he hs' hsign' hafter', ← heq] at htake
    exact absurd hlayout (not_layout_of_take htake (startsWord_letter he))

variable {d cs' : List Char} {s : Char}

/-- With a sign and digits behind it the letter has an exponent again. -/
lemma isNumeral_joined (hw : AllDigits w) (hne : w ≠ []) (he : IsExponentLetter e)
    (hs : s = '+' ∨ s = '-') (hd : AllDigits d) (hdne : d ≠ []) :
    IsNumeral (w ++ '.' :: e :: s :: d) :=
  ⟨w ++ ['.'], e :: ([s] ++ d), by simp, .point hw .nil (.inl hne),
    .some he (isSign_singleton hs) hdne hd⟩

lemma takeNumeral?_joined (hw : AllDigits w) (hne : w ≠ []) (he : IsExponentLetter e)
    (hs : s = '+' ∨ s = '-') (hd : AllDigits d) (hdne : d ≠ []) (hends : EndsDigits cs) :
    takeNumeral? (w ++ '.' :: e :: s :: (d ++ cs)) = some (w ++ '.' :: e :: s :: d, cs) := by
  have htake : takeExponent (e :: ([s] ++ (d ++ cs))) = _ :=
    takeExponent_letter he (isSign_singleton hs) fun h => (by cases h)
  rw [hd.take hends, if_neg (by simpa using hdne)] at htake
  rw [takeNumeral?_letter hw hne he]
  simp only [List.singleton_append] at htake
  rw [htake]

/-- Neither the numeral that joins with a sign and an integer behind it nor the integer breaks. -/
lemma numeralsSurvive_joined (hold : isName old = true) (hn : IsNumeral n) (hw : AllDigits w)
    (hne : w ≠ []) (he : IsExponentLetter e) (hs : s = '+' ∨ s = '-') (hd : AllDigits d)
    (hdne : d ≠ []) (hends : EndsNumeral cs') (hnot : startsWord cs' = false)
    (hreplace : ∀ cs, EndsWord cs →
      replaceWord old [e] (n ++ cs) = w ++ '.' :: e :: replaceWord old [e] cs) :
    NumeralsSurvive old [e] (n ++ s :: (d ++ cs')) ↔ NumeralsSurvive old [e] cs' := by
  have hd' := hd.isNumeral hdne
  have hlex : lexeme? (n ++ s :: (d ++ cs')) = some (.number, n) :=
    lexeme?_number hn (endsNumeral_sign hs _)
  have hlexs : lexeme? ([s] ++ (d ++ cs')) = some (.op, [s]) :=
    lexeme?_symbol (sign_mem_symbolTokens hs) fun _ => sign_not_longOperator hs _
  have hlexd := lexeme?_number hd' hends
  have hlater : numeralsFrom 0 (s :: (d ++ cs')) = (d, cs') :: numeralsFrom 0 cs' := by
    have h := numeralsFrom_lexeme hlexs
    rw [if_neg (by decide), numeralsFrom_lexeme hlexd, if_pos rfl] at h
    exact h
  have hsurvives : survives old [e] (n, s :: (d ++ cs')) = true := by
    have halone : replaceWord old [e] n = w ++ '.' :: [e] := by
      simpa using hreplace [] .nil
    have htake : takeNumeral? (replaceWord old [e] n ++ s :: (d ++ cs')) =
        some (w ++ '.' :: e :: s :: d, cs') := by
      rw [halone]
      simpa using takeNumeral?_joined hw hne he hs hd hdne hends.endsDigits
    exact survives_of_endsNumeral htake hends hnot
  have hsurvives' : survives old [e] (d, cs') = true := by
    have halone : replaceWord old [e] (d ++ []) = d ++ replaceWord old [e] [] :=
      replaceWord_allDigits hold hd .nil
    simp only [replaceWord_nil, List.append_nil] at halone
    exact survives_of_endsNumeral (halone.symm ▸ hd'.take hends) hends hnot
  unfold NumeralsSurvive
  rw [numeralsFrom_lexeme hlex, if_pos rfl, hlater]
  simp only [List.forall_mem_cons, hsurvives, hsurvives', true_and]

/-- The numeral joins with a sign and an integer behind it. -/
lemma Carries.joined (hold : isName old = true) (hn : IsNumeral n) (hw : AllDigits w) (hne : w ≠ [])
    (he : IsExponentLetter e) (hs : s = '+' ∨ s = '-') (hd : AllDigits d) (hdne : d ≠ [])
    (hends : EndsNumeral cs') (hlayout : Layout (s :: (d ++ cs')) ls)
    (hfollows : Follows ((.number, String.ofList n) :: ls))
    (hreplace : ∀ cs, EndsWord cs →
      replaceWord old [e] (n ++ cs) = w ++ '.' :: e :: replaceWord old [e] cs)
    (hrest : ∀ ls, Layout cs' ls → Follows ls → Carries old [e] cs' ls) :
    Carries old [e] (n ++ s :: (d ++ cs')) ((.number, String.ofList n) :: ls) := by
  have hcs := hfollows.separated_number hlayout
  have hlexs : lexeme? ([s] ++ (d ++ cs')) = some (.op, [s]) :=
    lexeme?_symbol (sign_mem_symbolTokens hs) fun _ => sign_not_longOperator hs _
  rw [← List.singleton_append] at hlayout
  obtain ⟨ls, rfl, hlayout, -⟩ := hlayout.cut hlexs
  obtain ⟨ls, rfl, hlayout, hnot⟩ := hlayout.cut (lexeme?_number (hd.isNumeral hdne) hends)
  have hfollows' := hfollows.tail.tail
  have hcs' := hfollows'.separated_number hlayout
  have hresult := hcs'.replaceWord (r := [e]) hold
  have hfront : replaceWord old [e] (n ++ s :: (d ++ cs')) =
      (w ++ '.' :: e :: s :: d) ++ replaceWord old [e] cs' := by
    rw [hreplace _ hcs.endsWord, replaceWord_other (isWord_of_isName hold) (isWordChar_sign hs),
      replaceWord_allDigits hold hd hcs'.endsWord]
    simp
  have hlex := lexeme?_number (isNumeral_joined hw hne he hs hd hdne) hresult.endsNumeral
  have hnumerals :=
    numeralsSurvive_joined hold hn hw hne he hs hd hdne hends (hnot rfl) hreplace
  have h := hrest ls hlayout hfollows'.tail
  refine ⟨fun hkept => ?_, fun hlost ls' hlayout' => ?_⟩
  · obtain ⟨ls', hlayout', hfinishes, hnames⟩ := h.kept (hnumerals.mp hkept)
    rw [hfront]
    refine ⟨_, .lexeme hlex (fun _ => hresult.startsWord) hlayout', fun known c => ?_, ?_⟩
    · exact (finishes_signed (strength?_sign hs) (fun c => (hfinishes known c).symm) c).symm
    · simpa [namesOf] using hnames
  · rw [hfront] at hlayout'
    obtain ⟨rest, rfl, hlayout', -⟩ := hlayout'.cut hlex
    exact fun hfollows => h.lost (mt hnumerals.mpr hlost) rest hlayout' hfollows.tail

/-- Where the digits behind the sign are not all of a numeral, the numeral breaks. -/
lemma Carries.overlapping (hold : isName old = true) (hn : IsNumeral n) (hw : AllDigits w)
    (hne : w ≠ []) (he : IsExponentLetter e) (hs : s = '+' ∨ s = '-') (hd : AllDigits d)
    (hdne : d ≠ []) (hends : EndsDigits cs')
    (hgoes : startsWord cs' = true ∨ cs'.head? = some '.')
    (hreplace : ∀ cs, EndsWord cs →
      replaceWord old [e] (n ++ cs) = w ++ '.' :: e :: replaceWord old [e] cs) :
    Carries old [e] (n ++ s :: (d ++ cs')) ls := by
  have hword := isWord_of_isName hold
  have halone : replaceWord old [e] n = w ++ '.' :: [e] := by
    simpa using hreplace [] .nil
  have hfront : replaceWord old [e] (n ++ s :: (d ++ cs')) =
      w ++ '.' :: e :: s :: replaceWord old [e] (d ++ cs') := by
    rw [hreplace _ (endsWord_cons (isWordChar_sign hs)),
      replaceWord_other hword (isWordChar_sign hs)]
  refine .broken (lexeme?_number hn (endsNumeral_sign hs _)) ?_ fun ls' hlayout => ?_
  · have htake : takeNumeral? (replaceWord old [e] n ++ s :: (d ++ cs')) =
        some (w ++ '.' :: e :: s :: d, cs') := by
      rw [halone]
      simpa using takeNumeral?_joined hw hne he hs hd hdne hends
    rw [survives_of_take htake]
    rcases hgoes with hgoes | hgoes <;> simp [hgoes]
  · rw [hfront] at hlayout
    rcases hgoes with hgoes | hgoes
    · -- the digits and the letters behind them are one run, which no replacement takes apart
      obtain ⟨u, v, rfl, hu, hv⟩ := exists_run cs'
      obtain ⟨z, u, rfl⟩ : ∃ z u', u = z :: u' := by
        cases u with
        | nil =>
            rw [List.nil_append, hv.startsWord] at hgoes
            cases hgoes
        | cons z u => exact ⟨z, u, rfl⟩
      rw [replaceWord_digits hold hd hu (.inl hdne) hv] at hlayout
      have hends' : EndsDigits (z :: u ++ replaceWord old [e] v) := hends
      have htake := takeNumeral?_joined hw hne he hs hd hdne hends'
      exact absurd hlayout (not_layout_of_take htake hgoes)
    · obtain ⟨rest, rfl⟩ := List.head?_eq_some_iff.mp hgoes
      have hpoint : isWordChar '.' = false := by decide +kernel
      rw [replaceWord_allDigits hold hd (endsWord_cons hpoint), replaceWord_other hword hpoint]
        at hlayout
      have hends' : EndsDigits ('.' :: replaceWord old [e] rest) := hends
      exact not_follows_of_point (takeNumeral?_joined hw hne he hs hd hdne hends') hlayout

end Letter

/-! ## Every text of an expression -/

/-- What becomes of a numeral of which only the letter of the exponent is replaced. -/
lemma carries_letter {n w : List Char} {e : Char} (hold : isName old = true) (hn : IsNumeral n)
    (hw : AllDigits w) (hne : w ≠ []) (he : IsExponentLetter e) (hlayout : Layout cs ls)
    (hfollows : Follows ((.number, String.ofList n) :: ls))
    (hreplace : ∀ cs, EndsWord cs →
      replaceWord old [e] (n ++ cs) = w ++ '.' :: e :: replaceWord old [e] cs)
    (hrest : ∀ cs' ls', cs'.length ≤ cs.length → Layout cs' ls' → Follows ls' →
      Carries old [e] cs' ls') :
    Carries old [e] (n ++ cs) ((.number, String.ofList n) :: ls) := by
  have hcs := hfollows.separated_number hlayout
  obtain ⟨s, after, hsplit, hs, hsign⟩ := exists_sign cs
  by_cases hafter : EndsDigits after
  · exact .lone hold hn hw hne he hcs hsplit hs hsign hafter hreplace
  · rcases hdigits : takeDigits after with ⟨d, cs'⟩
    obtain ⟨rfl, hd, hends⟩ := takeDigits_eq hdigits
    have hdne : d ≠ [] := by
      rintro rfl
      exact hafter hends
    have hsigned : s ≠ [] := by
      rintro rfl
      rw [hsplit] at hcs
      exact hafter hcs.endsNumeral.endsDigits
    obtain ⟨c, rfl, hc⟩ := (isSign_iff.mp hs).resolve_left hsigned
    obtain rfl : cs = c :: (d ++ cs') := hsplit
    by_cases hgoes : startsWord cs' = true ∨ cs'.head? = some '.'
    · exact .overlapping hold hn hw hne he hc hd hdne hends hgoes hreplace
    · rw [not_or, Bool.not_eq_true] at hgoes
      exact .joined hold hn hw hne he hc hd hdne (endsNumeral_of_endsDigits hends hgoes.1 hgoes.2)
        hlayout hfollows hreplace fun ls h hf => hrest cs' ls (by simp; omega) h hf

/-- A replacement that makes every number run into a word breaks the numeral. -/
lemma Carries.runningOn {n w t : List Char} (hn : IsNumeral n) (hw : AllDigits w) (hne : w ≠ [])
    (hcs : Separated cs) (hends : EndsDigits r) (hnil : r ≠ [])
    (hbreaks : ∀ rest, startsWord (takeExponent (r ++ rest)).2 = true)
    (hreplace : ∀ cs, EndsWord cs →
      replaceWord old r (n ++ cs) = w ++ '.' :: (r ++ (t ++ replaceWord old r cs))) :
    Carries old r (n ++ cs) ls := by
  have htake : ∀ rest, ∃ n', takeNumeral? (w ++ '.' :: (r ++ rest)) =
      some (n', (takeExponent (r ++ rest)).2) :=
    fun rest => ⟨_, takeNumeral?_point hw hne (hends.append hnil)⟩
  refine .broken (lexeme?_number hn hcs.endsNumeral) ?_ fun ls' hlayout => ?_
  · have halone : replaceWord old r n = w ++ '.' :: (r ++ t) := by
      simpa using hreplace [] .nil
    obtain ⟨n', htake⟩ := htake (t ++ cs)
    have htake' : takeNumeral? (replaceWord old r n ++ cs) =
        some (n', (takeExponent (r ++ (t ++ cs))).2) := by
      rw [halone]
      simpa using htake
    rw [survives_of_take htake', hbreaks]
    rfl
  · rw [hreplace cs hcs.endsWord] at hlayout
    obtain ⟨n', htake⟩ := htake (t ++ replaceWord old r cs)
    exact absurd hlayout (not_layout_of_take htake (hbreaks _))

/-- What becomes of a numeral. -/
lemma carries_number {n : List Char} (hold : isName old = true) (hr : IsReplacement r)
    (hn : IsNumeral n) (hlayout : Layout cs ls)
    (hfollows : Follows ((.number, String.ofList n) :: ls))
    (hrest : ∀ cs' ls', cs'.length ≤ cs.length → Layout cs' ls' → Follows ls' →
      Carries old r cs' ls') :
    Carries old r (n ++ cs) ((.number, String.ofList n) :: ls) := by
  have hcs := hfollows.separated_number hlayout
  have h := hrest cs ls le_rfl hlayout hfollows.tail
  rcases replaceWord_numeral hold hn with hsame | ⟨w, t, hsplit, hne, hw, ht, hreplace⟩
  · exact .number hold hn hn hcs (hsame r) h
  · rcases hr.forms with hcomplete | ⟨e, rfl, he⟩ | ⟨hends, hnil, hbreaks⟩
    · cases ht with
      | unsigned _ _ _ =>
          refine .number hold hn (hcomplete.isNumeral hw hne) hcs (fun cs hcs => ?_) h
          rw [hreplace r cs hcs]
          simp
      | signed _ hs hd hdigits =>
          refine .signed hold hn hw hne hcomplete hs hdigits hd hcs (fun cs hcs => ?_) h
          rw [hreplace r cs hcs]
          simp
    · cases ht with
      | unsigned _ _ _ =>
          refine carries_letter hold hn hw hne he hlayout hfollows (fun cs hcs => ?_) hrest
          rw [hreplace [e] cs hcs]
          rfl
      | signed _ hs hd hdigits =>
          refine .number hold hn (isNumeral_joined hw hne he hs hdigits hd) hcs (fun cs hcs => ?_) h
          rw [hreplace [e] cs hcs]
          simp
    · exact .runningOn hn hw hne hcs hends hnil hbreaks (hreplace r)

/-- **The replacement acts token by token on every text of an expression.** The induction is on the
length of the text, since a numeral can join with the two tokens behind it. -/
theorem carries (hold : isName old = true) (hr : IsReplacement r) (h : Layout cs ls)
    (hfollows : Follows ls) : Carries old r cs ls := by
  induction hlength : cs.length using Nat.strong_induction_on generalizing cs ls with
  | _ k ih =>
      subst hlength
      cases h with
      | nil => exact .nil
      | blank hblank h => exact .blank hold hblank (ih _ (by simp) h hfollows rfl)
      | @lexeme kind text cs ls hlex _ h =>
          have hlonger : cs.length < (text ++ cs).length := by
            obtain ⟨c, tail, _, rfl, -, -⟩ := (isLexeme_of_lexeme? hlex).split
            simp only [List.length_append, List.length_cons]
            omega
          cases isLexeme_of_lexeme? hlex with
          | number hnumeral =>
              obtain ⟨-, hn⟩ := takeNumeral?_eq_some hnumeral
              exact carries_number hold hr hn h hfollows fun cs' ls' hle h' hfollows' =>
                ih _ (lt_of_le_of_lt hle hlonger) h' hfollows' rfl
          | @name c rest heq hstart =>
              have hname := isName_of_isLexeme (.name heq hstart)
              exact .name hold hr hname (hfollows.separated_name h)
                (ih _ hlonger h hfollows.tail rfl)
          | symbol hmem _ hlong =>
              exact .symbol hold hr hmem hlong (ih _ hlonger h hfollows.tail rfl)

end CausalEquations
