import CausalEquations.Proofs.Scanning

/-!
# Tokens as slices of a text

Cutting a text into tokens loses nothing but blanks: the tokens are slices of the text, one behind
the other, and outside of them there are blanks only. A token is found again when the others are
moved away from it, since a blank ends every number, name and symbol. So the tokens are the same
after the text has been spaced anew.

* `Slices`, `Placed.slices` — where the tokens of a text stand, and what is outside of them.
* `IsNumberText`, `IsNumeral.isNumberText` — number tokens are numbers in decimal notation.
* `Layout.respaced` — tokens that are joined by single spaces are found again.
* `Token.scan_slices` — all of this for the tokens that are found.
-/

namespace CausalEquations

/-! ## Slices -/

/-- The character at a place of the text belongs to the token. -/
def Token.Covers (t : Token) (place : ℕ) : Prop :=
  t.position ≤ place ∧ place < t.position + t.text.length

/-- The tokens are slices of the text, one behind the other, with blanks outside of them. -/
structure Slices (text : List Char) (body : List Token) : Prop where
  nonempty : ∀ t ∈ body, t.text ≠ ""
  inside : ∀ t ∈ body, t.position + t.text.length ≤ text.length
  ordered : body.Pairwise fun s t =>
    s.position < t.position ∧ s.position + s.text.length ≤ t.position
  slice : ∀ t ∈ body, t.text.toList = (text.drop t.position).take t.text.length
  blank : ∀ place c, text[place]? = some c → (∀ t ∈ body, ¬ t.Covers place) → isBlank c = true

section

variable {position : ℕ} {cs : List Char} {body : List Token}

lemma lexeme?_ne_nil {kind : TokenKind} {text : List Char} (h : lexeme? cs = some (kind, text)) :
    text ≠ [] := by
  obtain ⟨c, tail, -, rfl, -, -⟩ := (isLexeme_of_lexeme? h).split
  exact List.cons_ne_nil c tail

/-- The tokens stand within the part of the text that they are found in. -/
lemma Placed.bounds (h : Placed position cs body) : ∀ t ∈ body,
    0 < t.text.length ∧ position ≤ t.position ∧
      t.position + t.text.length ≤ position + cs.length := by
  induction h with
  | nil => simp
  | blank _ _ ih =>
      intro t ht
      obtain ⟨hpos, hlow, hhigh⟩ := ih t ht
      rw [List.length_cons]
      omega
  | @token position kind text cs body hlex _ _ ih =>
      have htext := List.length_pos_of_ne_nil (lexeme?_ne_nil hlex)
      rw [List.length_append]
      refine List.forall_mem_cons.mpr ⟨?_, fun t ht => ?_⟩
      · simp only [String.length_ofList]
        omega
      · obtain ⟨hpos, hlow, hhigh⟩ := ih t ht
        omega

lemma Placed.ordered (h : Placed position cs body) : body.Pairwise fun s t =>
    s.position < t.position ∧ s.position + s.text.length ≤ t.position := by
  induction h with
  | nil => exact .nil
  | blank _ _ ih => exact ih
  | token hlex _ hrest ih =>
      have htext := List.length_pos_of_ne_nil (lexeme?_ne_nil hlex)
      refine List.pairwise_cons.mpr ⟨fun t ht => ?_, ih⟩
      obtain ⟨-, hlow, -⟩ := hrest.bounds t ht
      simp only [String.length_ofList]
      omega

lemma Placed.slice (h : Placed position cs body) : ∀ t ∈ body,
    t.text.toList = (cs.drop (t.position - position)).take t.text.length := by
  induction h with
  | nil => simp
  | @blank position c cs body _ hrest ih =>
      intro t ht
      obtain ⟨-, hlow, -⟩ := hrest.bounds t ht
      obtain ⟨k, hk⟩ := Nat.exists_eq_add_of_le hlow
      rw [ih t ht, show t.position - (position + 1) = k by omega,
        show t.position - position = k + 1 by omega, List.drop_succ_cons]
  | @token position kind text cs body _ _ hrest ih =>
      refine List.forall_mem_cons.mpr ⟨by simp, fun t ht => ?_⟩
      obtain ⟨-, hlow, -⟩ := hrest.bounds t ht
      obtain ⟨k, hk⟩ := Nat.exists_eq_add_of_le hlow
      rw [ih t ht, show t.position - (position + text.length) = k by omega,
        show t.position - position = text.length + k by omega, List.drop_length_add_append]

/-- Outside of the tokens there are blanks. -/
lemma Placed.isBlank_of_not_covers (h : Placed position cs body) : ∀ place c,
    cs[place]? = some c → (∀ t ∈ body, ¬ t.Covers (position + place)) → isBlank c = true := by
  induction h with
  | nil => simp
  | @blank position c cs body hblank _ ih =>
      intro place d hd houtside
      cases place with
      | zero =>
          obtain rfl : c = d := by simpa using hd
          exact hblank
      | succ place =>
          refine ih place d (by simpa using hd) fun t ht => ?_
          rw [show position + 1 + place = position + (place + 1) by omega]
          exact houtside t ht
  | @token position kind text cs body _ _ _ ih =>
      intro place d hd houtside
      obtain ⟨hfirst, hrest⟩ := List.forall_mem_cons.mp houtside
      -- A place within the first token is covered by it.
      have hbehind : text.length ≤ place := by
        by_contra! hwithin
        refine hfirst ⟨Nat.le_add_right _ _, ?_⟩
        simp only [String.length_ofList]
        omega
      obtain ⟨k, rfl⟩ := Nat.exists_eq_add_of_le hbehind
      rw [List.getElem?_append_right hbehind, Nat.add_sub_cancel_left] at hd
      refine ih k d hd fun t ht => ?_
      rw [Nat.add_assoc]
      exact hrest t ht

/-- **The tokens of a text are slices of it.** -/
theorem Placed.slices (h : Placed 0 cs body) : Slices cs body where
  nonempty t ht := by
    have hpos := (h.bounds t ht).1
    rintro hempty
    rw [hempty] at hpos
    cases hpos
  inside t ht := by simpa using (h.bounds t ht).2.2
  ordered := h.ordered
  slice t ht := h.slice t ht
  blank place c hc houtside := h.isBlank_of_not_covers place c hc (by simpa using houtside)

end

/-! ## Numbers -/

/-- Digits, between which single underscores may stand. -/
inductive IsDigitGroup : List Char → Prop where
  | last {c : Char} : isDigit c = true → IsDigitGroup [c]
  | digit {c : Char} {cs : List Char} : isDigit c = true → IsDigitGroup cs → IsDigitGroup (c :: cs)
  | grouped {c : Char} {cs : List Char} : isDigit c = true → IsDigitGroup cs →
      IsDigitGroup (c :: '_' :: cs)

/-- Digits without a point, or with one before, among or behind them. -/
inductive IsPointNumber : List Char → Prop where
  | whole {w : List Char} : IsDigitGroup w → IsPointNumber w
  | behind {w : List Char} : IsDigitGroup w → IsPointNumber (w ++ ['.'])
  | point {w d : List Char} : w = [] ∨ IsDigitGroup w → IsDigitGroup d →
      IsPointNumber (w ++ '.' :: d)

/-- The magnitude of a number: digits with an exponent or none, or a word for what is no rational
number, in small or capital letters. -/
inductive IsMagnitude : List Char → Prop where
  | plain {m : List Char} : IsPointNumber m → IsMagnitude m
  | scaled {m s d : List Char} {e : Char} : IsPointNumber m → IsExponentLetter e → IsSign s →
      IsDigitGroup d → IsMagnitude (m ++ e :: (s ++ d))
  | word {w : List Char} : String.ofList (w.map Char.toLower) ∈ ["inf", "infinity", "nan"] →
      IsMagnitude w

/-- What a number can be read from: a magnitude with a sign or none, between blanks or not. -/
def IsNumberText (cs : List Char) : Prop :=
  ∃ before sign magnitude behind, cs = before ++ (sign ++ (magnitude ++ behind)) ∧
    (∀ c ∈ before, isBlank c = true) ∧ IsSign sign ∧ IsMagnitude magnitude ∧
    ∀ c ∈ behind, isBlank c = true

lemma AllDigits.isDigitGroup {cs : List Char} (h : AllDigits cs) (hne : cs ≠ []) :
    IsDigitGroup cs := by
  induction cs with
  | nil => exact absurd rfl hne
  | cons c rest ih =>
      obtain ⟨hc, hrest⟩ := List.forall_mem_cons.mp h
      rcases eq_or_ne rest [] with rfl | hrest'
      · exact .last hc
      · exact .digit hc (ih hrest hrest')

lemma IsMantissa.isPointNumber {m : List Char} (h : IsMantissa m) : IsPointNumber m := by
  cases h with
  | whole hne hw => exact .whole (hw.isDigitGroup hne)
  | @point w d hw hd hne =>
      rcases eq_or_ne d [] with rfl | hd'
      · exact .behind (hw.isDigitGroup (hne.resolve_right fun h => h rfl))
      · refine .point ?_ (hd.isDigitGroup hd')
        exact (eq_or_ne w []).imp_right fun hw' => hw.isDigitGroup hw'

/-- **A number can be read from every numeral.** -/
lemma IsNumeral.isNumberText {n : List Char} (h : IsNumeral n) : IsNumberText n := by
  have hmagnitude : IsMagnitude n := by
    obtain ⟨m, x, rfl, hm, hx⟩ := h
    cases hx with
    | none =>
        rw [List.append_nil]
        exact .plain hm.isPointNumber
    | some he hs hne hd => exact .scaled hm.isPointNumber he hs (hd.isDigitGroup hne)
  exact ⟨[], [], n, [], by simp, by simp, .inl rfl, hmagnitude, by simp⟩

/-! ## Respacing -/

/-- The text is at its end or goes on with a blank. -/
def BlankNext (cs : List Char) : Prop := ∀ c ∈ cs.head?, isBlank c = true

lemma BlankNext.separated {cs : List Char} (h : BlankNext cs) : Separated cs :=
  fun c hc => .inl (h c hc)

/-- A token is the same in front of another text that goes on with a blank. -/
lemma IsLexeme.lexeme?_of_blankNext {cs rest text : List Char} {kind : TokenKind}
    (h : IsLexeme cs kind text) (hrest : BlankNext rest) :
    lexeme? (text ++ rest) = some (kind, text) := by
  have hname : kind = .name → isName text = true := by
    rintro rfl
    exact isName_of_isLexeme h
  cases h with
  | number hnumeral =>
      exact lexeme?_number (takeNumeral?_eq_some hnumeral).2 hrest.separated.endsNumeral
  | name _ _ => exact lexeme?_name (hname rfl) hrest.separated.endsName
  | symbol hmem _ _ =>
      refine lexeme?_symbol hmem fun hone hlong => ?_
      -- An operator of two characters has no blank in it.
      obtain ⟨c, rfl⟩ := List.length_eq_one_iff.mp hone
      cases rest with
      | nil => exact absurd (length_of_mem_longOperators _ hlong) (by simp)
      | cons d rest =>
          have hd : isBlank d = true := hrest d rfl
          have hsymbol := mem_symbols_of_mem_longOperators hlong (c := d) (by simp)
          rw [isBlank_of_mem_symbols hsymbol] at hd
          cases hd

/-- **Tokens joined by single spaces are found again.** -/
theorem Layout.respaced {cs : List Char} {ls : List Lexeme} (h : Layout cs ls) :
    Layout ([' '].intercalate (ls.map fun l => l.2.toList)) ls := by
  induction h with
  | nil => exact .nil
  | blank _ _ ih => exact ih
  | @lexeme kind text cs ls hlex _ _ ih =>
      have hfront (rest : List Char) (hrest : BlankNext rest) (hlayout : Layout rest ls) :
          Layout (text ++ rest) ((kind, String.ofList text) :: ls) :=
        .lexeme ((isLexeme_of_lexeme? hlex).lexeme?_of_blankNext hrest)
          (fun _ => hrest.separated.startsWord) hlayout
      cases ls with
      | nil => simpa using hfront [] (by simp [BlankNext]) .nil
      | cons l ls =>
          have hspace : isBlank ' ' = true := by decide
          have hnext : BlankNext (' ' :: [' '].intercalate ((l :: ls).map fun l => l.2.toList)) := by
            simpa [BlankNext] using hspace
          simpa [List.intercalate_cons_cons] using hfront _ hnext (.blank hspace ih)

/-! ## The tokens of a text -/

/-- **The tokens of a text**, but for the one that marks its end, are slices of it with blanks
outside of them. Its number tokens can be read as numbers. Joined by single spaces the tokens give a
text with the same tokens. -/
theorem Token.scan_slices {text : String} {tokens : List Token} (h : Token.scan text = .ok tokens) :
    ∃ body, tokens = body ++ [⟨.finish, "", text.length⟩] ∧ Slices text.toList body ∧
      (∀ t ∈ body, t.kind = .number → IsNumberText t.text.toList) ∧
      ∃ respaced, Token.scan (" ".intercalate (body.map Token.text)) = .ok respaced ∧
        respaced.map Token.lexeme = tokens.map Token.lexeme := by
  obtain ⟨body, rfl, hplaced⟩ := exists_placed h
  refine ⟨body, rfl, hplaced.slices, fun t ht hkind => ?_, ?_⟩
  · exact (hplaced.layout.isNumeral_of_mem t.lexeme (List.mem_map_of_mem ht) hkind).isNumberText
  · have hlayout : Layout (" ".intercalate (body.map Token.text)).toList (body.map Token.lexeme) := by
      have hjoined : (" ".intercalate (body.map Token.text)).toList =
          [' '].intercalate ((body.map Token.lexeme).map fun l => l.2.toList) := by
        rw [String.toList_intercalate, List.map_map, List.map_map]
        rfl
      rw [hjoined]
      exact hplaced.layout.respaced
    obtain ⟨respaced, ⟨fin, hscan, -⟩, hmap⟩ := hlayout.exists_scans
    obtain ⟨respaced', heq, -⟩ := exists_placed hscan
    obtain ⟨rfl, hfin⟩ := List.append_inj' heq rfl
    obtain rfl := List.singleton_inj.mp hfin
    refine ⟨_, hscan, ?_⟩
    rw [List.map_append, List.map_append, hmap]
    rfl

/-- A name, numbers in two scripts and an operator that touch each other. -/
theorem Token.scan_slices_touching :
    Token.scan " x٣<=.5e1.5" = .ok [⟨.name, "x", 1⟩, ⟨.number, "٣", 2⟩, ⟨.op, "<=", 3⟩,
      ⟨.number, ".5e1", 5⟩, ⟨.number, ".5", 9⟩, ⟨.finish, "", 11⟩] ∧
    ∃ body, [⟨.name, "x", 1⟩, ⟨.number, "٣", 2⟩, ⟨.op, "<=", 3⟩, ⟨.number, ".5e1", 5⟩,
        ⟨.number, ".5", 9⟩, ⟨.finish, "", 11⟩] = body ++ [⟨.finish, "", 11⟩] ∧
      Slices " x٣<=.5e1.5".toList body ∧
      (∀ t ∈ body, t.kind = .number → IsNumberText t.text.toList) ∧
      ∃ respaced, Token.scan (" ".intercalate (body.map Token.text)) = .ok respaced ∧
        respaced.map Token.lexeme = [(.name, "x"), (.number, "٣"), (.op, "<="), (.number, ".5e1"),
          (.number, ".5"), (.finish, "")] := by
  have hscan : Token.scan " x٣<=.5e1.5" = .ok [⟨.name, "x", 1⟩, ⟨.number, "٣", 2⟩, ⟨.op, "<=", 3⟩,
      ⟨.number, ".5e1", 5⟩, ⟨.number, ".5", 9⟩, ⟨.finish, "", 11⟩] := by decide +kernel
  exact ⟨hscan, Token.scan_slices hscan⟩

end CausalEquations
