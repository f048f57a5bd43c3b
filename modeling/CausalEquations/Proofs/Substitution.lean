import CausalEquations.Proofs.Respelling

/-!
# Replacing a name in an equation

Replacing a name as a whole word is done on the text and knows nothing of tokens. In the text of an
expression it nevertheless acts token by token: every name stands apart from other words, so it is
replaced as a whole. What can go wrong is a numeral that contains the name, and the name of a
function, whose calls are then calls of something else.

* `numeralsFrom`, `survives` — the numerals of a text, and whether one is still a numeral.
* `Carries` — what the replacement makes of a text and of its tokens.
* `Carries.symbol`, `Carries.name` — it acts on symbols and names token by token.
-/

namespace CausalEquations

/-! ## Numerals of a text -/

/-- The numerals of a text, each with what stands behind it. The first `skip` characters belong to a
token that has been passed already. -/
def numeralsFrom (skip : ℕ) : List Char → List (List Char × List Char)
  | [] => []
  | c :: rest =>
    match skip with
    | skip + 1 => numeralsFrom skip rest
    | 0 =>
      if isBlank c then numeralsFrom 0 rest
      else
        match lexeme? (c :: rest) with
        | none => []
        | some (kind, text) =>
          if kind = .number then
            (text, rest.drop (text.length - 1)) :: numeralsFrom (text.length - 1) rest
          else numeralsFrom (text.length - 1) rest

/-- Whether a numeral is still one after the replacement: what stands in its place starts with a
numeral that runs neither into a word nor into a point. -/
def survives (old r : List Char) (numeral : List Char × List Char) : Bool :=
  match takeNumeral? (replaceWord old r numeral.1 ++ numeral.2) with
  | some (_, rest) => !startsWord rest && rest.head? != some '.'
  | none => false

/-- Every numeral of the text survives the replacement. -/
def NumeralsSurvive (old r cs : List Char) : Prop :=
  ∀ numeral ∈ numeralsFrom 0 cs, survives old r numeral = true

lemma numeralsFrom_length (xs cs : List Char) :
    numeralsFrom xs.length (xs ++ cs) = numeralsFrom 0 cs := by
  induction xs with
  | nil => rfl
  | cons x xs ih => exact ih

lemma numeralsFrom_blank {c : Char} {cs : List Char} (h : isBlank c = true) :
    numeralsFrom 0 (c :: cs) = numeralsFrom 0 cs := by
  simp only [numeralsFrom, h, if_true]

lemma numeralsFrom_lexeme {kind : TokenKind} {text cs : List Char}
    (h : lexeme? (text ++ cs) = some (kind, text)) :
    numeralsFrom 0 (text ++ cs) =
      if kind = .number then (text, cs) :: numeralsFrom 0 cs else numeralsFrom 0 cs := by
  obtain ⟨c, tail, rest, rfl, -, hc⟩ := (isLexeme_of_lexeme? h).split
  rw [List.cons_append] at h ⊢
  simp only [numeralsFrom, hc, Bool.false_eq_true, if_false, h, List.length_cons,
    Nat.add_sub_cancel, List.drop_left, numeralsFrom_length]

/-! ## Tokens that follow each other -/

variable {known : Name → Bool} {c : Mode × List Frame} {l : Lexeme} {ls ls' : List Lexeme}

lemma finishes_cons : Finishes known c (l :: ls) ↔
    ∃ c', step known c l = some c' ∧ Finishes known c' ls := by
  refine ⟨Finishes.cons, ?_⟩
  rintro ⟨c', hstep, callee, hrun⟩
  exact ⟨callee, by rw [run_cons, hstep, Option.bind_some, hrun]⟩

/-- The tokens are the end of some expression. -/
def Follows (ls : List Lexeme) : Prop := ∃ known c, Finishes known c ls

lemma Follows.tail (h : Follows (l :: ls)) : Follows ls := by
  obtain ⟨known, c, h⟩ := h
  obtain ⟨c', -, h⟩ := h.cons
  exact ⟨known, c', h⟩

/-- A number leads from wherever an operand is due to the end of that operand. -/
lemma step_number (known : Name → Bool) (mode : Mode) (stack : List Frame) (text : String) :
    step known (mode, stack) (.number, text) =
      match mode with
      | .after _ => none
      | _ => some (.after .other, stack) := by
  cases mode with
  | operand alone => rfl
  | arguments =>
      cases stack with
      | nil => rfl
      | cons frame stack => cases frame <;> rfl
  | after callee => rfl

/-- A name leads from wherever an operand is due to the end of that operand. -/
lemma step_name (known : Name → Bool) (mode : Mode) (stack : List Frame) (x : String) :
    step known (mode, stack) (.name, x) =
      match mode with
      | .operand alone => some (.after (if known x then .ofAlone alone else .other), stack)
      | .arguments => some (.after (if known x then .direct else .other), stack)
      | .after _ => none := by
  cases mode with
  | operand alone => rfl
  | arguments =>
      cases stack with
      | nil => rfl
      | cons frame stack => cases frame <;> rfl
  | after callee => rfl

/-- Only names make a difference between what is known. -/
lemma step_of_ne_name (known known' : Name → Bool) {l : Lexeme} (h : l.1 ≠ .name)
    (c : Mode × List Frame) : step known c l = step known' c l := by
  obtain ⟨mode, stack⟩ := c
  obtain ⟨kind, x⟩ := l
  have hoperand : ∀ alone, stepOperand known alone stack (kind, x) =
      stepOperand known' alone stack (kind, x) := by
    intro alone
    cases kind with
    | name => exact absurd rfl h
    | _ => rfl
  cases mode with
  | operand alone => exact hoperand alone
  | arguments =>
      cases stack with
      | nil => exact hoperand false
      | cons frame stack =>
          cases frame with
          | call => simp only [step, hoperand]
          | _ => exact hoperand false
  | after callee => rfl

/-- Behind an operand the text is at its end or goes on with a blank or a symbol. -/
lemma Layout.separated {cs : List Char} {callee : Callee} {stack : List Frame}
    (h : Layout cs ls) (hfinishes : Finishes known (.after callee, stack) ls) : Separated cs := by
  cases h with
  | nil => simp [Separated]
  | blank hblank _ =>
      intro d hd
      obtain rfl := Option.some.inj hd
      exact .inl hblank
  | lexeme hlex _ _ =>
      obtain ⟨c', hstep, -⟩ := hfinishes.cons
      cases isLexeme_of_lexeme? hlex with
      | number _ => cases hstep
      | name _ _ => cases hstep
      | symbol hmem _ _ =>
          obtain ⟨d, tail, rfl, hd, -⟩ := head_mem_symbols hmem
          intro d' hd'
          obtain rfl := Option.some.inj hd'
          exact .inr hd

lemma Follows.separated_number {cs : List Char} {text : String} (h : Layout cs ls)
    (hfollows : Follows ((.number, text) :: ls)) : Separated cs := by
  obtain ⟨known, ⟨mode, stack⟩, hfinishes⟩ := hfollows
  obtain ⟨c', hstep, hfinishes⟩ := hfinishes.cons
  rw [step_number] at hstep
  cases mode with
  | after callee => cases hstep
  | operand alone | arguments =>
      cases hstep
      exact h.separated hfinishes

lemma Follows.separated_name {cs : List Char} {x : String} (h : Layout cs ls)
    (hfollows : Follows ((.name, x) :: ls)) : Separated cs := by
  obtain ⟨known, ⟨mode, stack⟩, hfinishes⟩ := hfollows
  obtain ⟨c', hstep, hfinishes⟩ := hfinishes.cons
  rw [step_name] at hstep
  cases mode with
  | after callee => cases hstep
  | operand alone | arguments =>
      cases hstep
      exact h.separated hfinishes

/-! ## The tokens of the result -/

/-- The names among the tokens. -/
def namesOf (ls : List Lexeme) : List Name :=
  ls.filterMap fun l => if l.1 = .name then some l.2 else none

lemma namesOf_cons (l : Lexeme) (ls : List Lexeme) : namesOf (l :: ls) = namesOf [l] ++ namesOf ls :=
  List.filterMap_append (l := [l])

/-- A name after the replacement. -/
def renamed (old new x : Name) : Name := if x = old then new else x

/-- What becomes of a name: nothing is left of the replaced one if no name takes its place. -/
def respelled (old r : List Char) (x : Name) : List Name :=
  if x = String.ofList old then if isName r then [String.ofList r] else [] else [x]

/-- The names that were known before the replacement if those of `known` are known after it. -/
def knownBefore (old r : List Char) (known : Name → Bool) (x : Name) : Bool :=
  if x = String.ofList old then isName r && known (String.ofList r) else known x

/-- What the replacement makes of a text with the tokens `ls`. If every numeral survives, the machine
goes from the same places to the end as before, and otherwise from nowhere. -/
structure Carries (old r cs : List Char) (ls : List Lexeme) : Prop where
  kept : NumeralsSurvive old r cs → ∃ ls', Layout (replaceWord old r cs) ls' ∧
    (∀ known c, Finishes known c ls' ↔ Finishes (knownBefore old r known) c ls) ∧
    namesOf ls' = (namesOf ls).flatMap (respelled old r)
  lost : ¬ NumeralsSurvive old r cs → ∀ ls', Layout (replaceWord old r cs) ls' → ¬ Follows ls'

variable {old r cs : List Char}

lemma IsReplacement.ne_nil (h : IsReplacement r) : r ≠ [] := by
  rintro rfl
  rcases h with h | h <;> cases h

lemma IsReplacement.isWord (h : IsReplacement r) : IsWord r := by
  refine ⟨h.ne_nil, ?_⟩
  rcases h with h | rfl
  · exact (isWord_of_isName h).2
  · simp only [List.forall_mem_singleton]
    decide +kernel

lemma IsReplacement.isWordChar_head (h : IsReplacement r) :
    ∀ d ∈ r.head?, isWordChar d = true :=
  fun d hd => h.isWord.2 d (List.mem_of_head? hd)

lemma Separated.replaceWord (h : Separated cs) (hold : isName old = true) :
    Separated (replaceWord old r cs) := by
  cases cs with
  | nil => exact h
  | cons c cs =>
      rw [replaceWord_other (isWord_of_isName hold) (h.endsWord c (by simp))]
      exact h

lemma Carries.nil : Carries old r [] [] where
  kept _ := ⟨[], .nil, fun _ _ => Iff.rfl, rfl⟩
  lost h := absurd (List.forall_mem_nil _) h

lemma Carries.blank {b : Char} (hold : isName old = true) (hb : isBlank b = true)
    (h : Carries old r cs ls) : Carries old r (b :: cs) ls := by
  have hreplace : CausalEquations.replaceWord old r (b :: cs) = b :: replaceWord old r cs :=
    replaceWord_other (isWord_of_isName hold) (isWordChar_of_isBlank hb)
  have hnumerals : NumeralsSurvive old r (b :: cs) ↔ NumeralsSurvive old r cs := by
    unfold NumeralsSurvive
    rw [numeralsFrom_blank hb]
  refine ⟨fun hkept => ?_, fun hlost ls' hlayout => ?_⟩
  · obtain ⟨ls', hlayout, hfinishes, hnames⟩ := h.kept (hnumerals.mp hkept)
    rw [hreplace]
    exact ⟨ls', .blank hb hlayout, hfinishes, hnames⟩
  · rw [hreplace] at hlayout
    exact h.lost (mt hnumerals.mpr hlost) ls' (hlayout.of_blank hb)

/-- A token in front that the replacement turns into one other token. -/
lemma Carries.cons {kind kind' : TokenKind} {text text' : List Char}
    (hlex : lexeme? (text ++ cs) = some (kind, text))
    (hreplace : replaceWord old r (text ++ cs) = text' ++ replaceWord old r cs)
    (hlex' : lexeme? (text' ++ replaceWord old r cs) = some (kind', text'))
    (hword : kind' = .number → startsWord (replaceWord old r cs) = false)
    (hsurvives : kind = .number → survives old r (text, cs) = true)
    (hstep : ∀ known c, step known c (kind', String.ofList text') =
      step (knownBefore old r known) c (kind, String.ofList text))
    (hnames : namesOf [(kind', String.ofList text')] =
      (namesOf [(kind, String.ofList text)]).flatMap (respelled old r))
    (h : Carries old r cs ls) : Carries old r (text ++ cs) ((kind, String.ofList text) :: ls) := by
  have hnumerals : NumeralsSurvive old r (text ++ cs) ↔ NumeralsSurvive old r cs := by
    unfold NumeralsSurvive
    rw [numeralsFrom_lexeme hlex]
    split
    · rename_i hkind
      simp only [List.forall_mem_cons, hsurvives hkind, true_and]
    · rfl
  refine ⟨fun hkept => ?_, fun hlost ls' hlayout => ?_⟩
  · obtain ⟨ls', hlayout, hfinishes, htail⟩ := h.kept (hnumerals.mp hkept)
    rw [hreplace]
    refine ⟨_, .lexeme hlex' hword hlayout, fun known c => ?_, ?_⟩
    · simp only [finishes_cons, hstep, hfinishes]
    · rw [namesOf_cons, hnames, htail, namesOf_cons _ ls, List.flatMap_append]
  · rw [hreplace] at hlayout
    obtain ⟨rest, rfl, hrest, -⟩ := hlayout.cut hlex'
    exact fun hfollows => h.lost (mt hnumerals.mpr hlost) rest hrest hfollows.tail

/-! ### Symbols and names -/

/-- No operator of two characters comes about: a word at the front of the text stays a word. -/
lemma not_longOperator_replaceWord (hold : IsWord old) (hr : IsReplacement r) {text : List Char}
    (hone : text.length = 1) (h : (text ++ cs).take 2 ∉ longOperators) :
    (text ++ replaceWord old r cs).take 2 ∉ longOperators := by
  obtain ⟨d, rfl⟩ := List.length_eq_one_iff.mp hone
  have htake : ∀ xs : List Char, ([d] ++ xs).take 2 = d :: xs.head?.toList := by
    intro xs
    cases xs <;> rfl
  rw [htake] at h ⊢
  rcases head_replaceWord hold hr.ne_nil cs with hhead | ⟨hhead, -⟩
  · rwa [hhead]
  · obtain ⟨x, r', rfl⟩ := List.exists_cons_of_ne_nil hr.ne_nil
    rw [hhead]
    intro hmem
    have hx := isWordChar_of_mem_symbols (mem_symbols_of_mem_longOperators hmem (c := x) (by simp))
    rw [hr.isWordChar_head x rfl] at hx
    cases hx

/-- Symbols stay. -/
lemma replaceWord_symbols (hold : IsWord old) {text : List Char} (h : ∀ c ∈ text, c ∈ symbols) :
    replaceWord old r (text ++ cs) = text ++ replaceWord old r cs := by
  induction text with
  | nil => rfl
  | cons c text ih =>
      obtain ⟨hc, htext⟩ := List.forall_mem_cons.mp h
      rw [List.cons_append, replaceWord_other hold (isWordChar_of_mem_symbols hc), ih htext]
      rfl

lemma Carries.symbol {kind : TokenKind} {text : List Char} (hold : isName old = true)
    (hr : IsReplacement r) (ht : (kind, text) ∈ symbolTokens)
    (hlong : text.length = 1 → (text ++ cs).take 2 ∉ longOperators) (h : Carries old r cs ls) :
    Carries old r (text ++ cs) ((kind, String.ofList text) :: ls) := by
  have hword := isWord_of_isName hold
  have hkind : kind ≠ .number ∧ kind ≠ .name := by
    rcases mem_symbolTokens.mp ht with ⟨rfl, -⟩ | ⟨rfl, -⟩ | ⟨rfl, -⟩ <;> decide
  have hreplace : replaceWord old r (text ++ cs) = text ++ replaceWord old r cs := by
    obtain ⟨d, tail, rfl, hd, htail⟩ := head_mem_symbols ht
    exact replaceWord_symbols hword (List.forall_mem_cons.mpr ⟨hd, htail⟩)
  refine .cons (lexeme?_symbol ht hlong) hreplace
    (lexeme?_symbol ht fun hone => not_longOperator_replaceWord hword hr hone (hlong hone))
    (fun h => absurd h hkind.1) (fun h => absurd h hkind.1)
    (fun _ c => step_of_ne_name _ _ hkind.2 c) ?_ h
  simp [namesOf, hkind.2]

lemma isReplacement_lexeme (hr : IsReplacement r) (hcs : Separated cs) :
    lexeme? (r ++ cs) = some (if isName r then .name else .number, r) := by
  rcases hr with hr | rfl
  · rw [if_pos hr]
    exact lexeme?_name hr hcs.endsName
  · have hzero : IsNumeral ['0'] := by
      refine ⟨['0'], [], rfl, .whole (by simp) ?_, .none⟩
      simp only [AllDigits, List.forall_mem_singleton]
      decide
    exact lexeme?_number hzero hcs.endsNumeral

lemma Carries.name {text : List Char} (hold : isName old = true) (hr : IsReplacement r)
    (htext : isName text = true) (hcs : Separated cs) (h : Carries old r cs ls) :
    Carries old r (text ++ cs) ((.name, String.ofList text) :: ls) := by
  have hword := isWord_of_isName hold
  have hcs' := hcs.replaceWord (r := r) hold
  have hreplace : replaceWord old r (text ++ cs) = _ :=
    replaceWord_run hword (isWord_of_isName htext).2 hcs.endsWord
  by_cases heq : text = old
  · subst heq
    rw [if_pos rfl] at hreplace
    refine .cons (lexeme?_name htext hcs.endsName) hreplace (isReplacement_lexeme hr hcs')
      (fun _ => hcs'.startsWord) (fun h => absurd h (by decide)) (fun known c => ?_)
      ?_ h
    · obtain ⟨mode, stack⟩ := c
      rw [step_name, knownBefore, if_pos rfl]
      by_cases hname : isName r = true
      · rw [if_pos hname, step_name, hname, Bool.true_and]
      · rw [if_neg hname, step_number, Bool.eq_false_iff.mpr hname, Bool.false_and]
        cases mode <;> rfl
    · by_cases hname : isName r = true <;> simp [namesOf, hname, respelled]
  · rw [if_neg heq] at hreplace
    have hne : String.ofList text ≠ String.ofList old := fun h => heq (String.ofList_injective h)
    refine .cons (lexeme?_name htext hcs.endsName) hreplace (lexeme?_name htext hcs'.endsName)
      (fun h => absurd h (by decide)) (fun h => absurd h (by decide)) (fun known c => ?_)
      ?_ h
    · obtain ⟨mode, stack⟩ := c
      rw [step_name, step_name, knownBefore, if_neg hne]
    · simp [namesOf, respelled, hne]

end CausalEquations
