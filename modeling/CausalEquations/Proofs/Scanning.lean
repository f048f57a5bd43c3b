import CausalEquations.Edit
import CausalEquations.Proofs.Acceptance
import CausalEquations.Proofs.Numerals
import CausalEquations.Proofs.Words

/-!
# Where the tokens of a text stand

Cutting a text into tokens is said by a relation that builds the text from the back. Each token is
judged with the characters behind it present, since they decide how far it reaches.

* `Layout`, `Placed` — the text consists of these tokens with blanks between them.
* `Layout.number`, `Layout.name`, `Layout.symbol`, `Layout.cut` — a token put in front or cut off.
* `Scans`, `Scans.layout`, `Layout.exists_scans` — these are the tokens that are found.
* `reads_iff` — a text is read if the machine accepts its tokens.
-/

namespace CausalEquations

/-- The text consists of these tokens with blanks before, between and behind them. -/
inductive Layout : List Char → List Lexeme → Prop where
  | nil : Layout [] []
  | blank {c : Char} {cs : List Char} {ls : List Lexeme} : isBlank c = true → Layout cs ls →
      Layout (c :: cs) ls
  | lexeme {kind : TokenKind} {text cs : List Char} {ls : List Lexeme} :
      lexeme? (text ++ cs) = some (kind, text) → (kind = .number → startsWord cs = false) →
      Layout cs ls → Layout (text ++ cs) ((kind, String.ofList text) :: ls)

/-! ## Tokens at the front of a text -/

/-- The tokens of the kinds `op` and `punct`. -/
def symbolTokens : List (TokenKind × List Char) :=
  longOperators.map (fun op => (.op, op)) ++
    (shortOperators.map (fun c => (.op, [c])) ++ punctuation.map fun c => (.punct, [c]))

/-- The forms of a token at the front of a text. A symbol of one character must not be the start of
an operator of two. -/
inductive IsLexeme (cs : List Char) : TokenKind → List Char → Prop where
  | number {n rest : List Char} : takeNumeral? cs = some (n, rest) → IsLexeme cs .number n
  | name {c : Char} {rest : List Char} : cs = c :: rest → isNameStart c = true →
      IsLexeme cs .name (c :: rest.takeWhile isNameChar)
  | symbol {kind : TokenKind} {text rest : List Char} : (kind, text) ∈ symbolTokens →
      cs = text ++ rest → (text.length = 1 → cs.take 2 ∉ longOperators) → IsLexeme cs kind text

lemma mem_symbolTokens {kind : TokenKind} {text : List Char} :
    (kind, text) ∈ symbolTokens ↔
      (kind = .op ∧ text ∈ longOperators) ∨ (kind = .op ∧ ∃ c ∈ shortOperators, text = [c]) ∨
        (kind = .punct ∧ ∃ c ∈ punctuation, text = [c]) := by
  simp only [symbolTokens, List.mem_append, List.mem_map, Prod.mk.injEq]
  constructor
  · rintro (⟨op, hop, rfl, rfl⟩ | ⟨c, hc, rfl, rfl⟩ | ⟨c, hc, rfl, rfl⟩)
    · exact .inl ⟨rfl, hop⟩
    · exact .inr (.inl ⟨rfl, c, hc, rfl⟩)
    · exact .inr (.inr ⟨rfl, c, hc, rfl⟩)
  · rintro (⟨rfl, hop⟩ | ⟨rfl, c, hc, rfl⟩ | ⟨rfl, c, hc, rfl⟩)
    · exact .inl ⟨text, hop, rfl, rfl⟩
    · exact .inr (.inl ⟨c, hc, rfl, rfl⟩)
    · exact .inr (.inr ⟨c, hc, rfl, rfl⟩)

lemma length_of_mem_longOperators : ∀ op ∈ longOperators, op.length = 2 := by decide

lemma mem_symbols_of_mem_longOperators {op : List Char} (hop : op ∈ longOperators) {c : Char}
    (hc : c ∈ op) : c ∈ symbols := by
  simp only [symbols, List.mem_append, List.mem_flatten]
  exact .inl (.inl ⟨op, hop, hc⟩)

lemma head_mem_symbols {kind : TokenKind} {text : List Char} (h : (kind, text) ∈ symbolTokens) :
    ∃ c tail, text = c :: tail ∧ c ∈ symbols ∧ ∀ d ∈ tail, d ∈ symbols := by
  rcases mem_symbolTokens.mp h with ⟨-, hop⟩ | ⟨-, c, hc, rfl⟩ | ⟨-, c, hc, rfl⟩
  · have hne : text ≠ [] := by
      rintro rfl
      cases length_of_mem_longOperators [] hop
    obtain ⟨c, tail, rfl⟩ := List.exists_cons_of_ne_nil hne
    exact ⟨c, tail, rfl, mem_symbols_of_mem_longOperators hop List.mem_cons_self,
      fun d hd => mem_symbols_of_mem_longOperators hop (List.mem_cons_of_mem _ hd)⟩
  · exact ⟨c, [], rfl, by simp [symbols, hc], by simp⟩
  · exact ⟨c, [], rfl, by simp [symbols, hc], by simp⟩

lemma isName_of_isLexeme {cs text : List Char} (h : IsLexeme cs .name text) :
    isName text = true := by
  cases h with
  | @name c rest _ hstart =>
      simp only [isName, hstart, Bool.true_and, List.all_eq_true]
      exact fun d hd => List.mem_takeWhile_imp hd
  | symbol hmem _ _ => rcases mem_symbolTokens.mp hmem with ⟨h, -⟩ | ⟨h, -⟩ | ⟨h, -⟩ <;> cases h

lemma isLexeme_of_lexeme? {cs text : List Char} {kind : TokenKind}
    (h : lexeme? cs = some (kind, text)) : IsLexeme cs kind text := by
  unfold lexeme? at h
  split at h
  · rename_i rest hnumeral
    cases h
    exact .number hnumeral
  · cases cs with
    | nil => cases h
    | cons c rest =>
        dsimp only at h
        split at h
        · rename_i hstart
          cases h
          exact .name rfl hstart
        · split at h
          · rename_i hlong
            cases h
            have hmem : (c :: rest).take 2 ∈ longOperators := by simpa using hlong
            have hsplit : c :: rest = (c :: rest).take 2 ++ (c :: rest).drop 2 :=
              (List.take_append_drop 2 _).symm
            refine .symbol (mem_symbolTokens.mpr (.inl ⟨rfl, hmem⟩)) hsplit fun hone => ?_
            rw [length_of_mem_longOperators _ hmem] at hone
            cases hone
          · rename_i hlong
            have hlong : (c :: rest).take 2 ∉ longOperators := by simpa using hlong
            split at h
            · rename_i hshort
              cases h
              have hmem : c ∈ shortOperators := by simpa using hshort
              exact .symbol (mem_symbolTokens.mpr (.inr (.inl ⟨rfl, c, hmem, rfl⟩))) rfl
                fun _ => hlong
            · split at h
              · rename_i hpunct
                cases h
                have hmem : c ∈ punctuation := by simpa using hpunct
                exact .symbol (mem_symbolTokens.mpr (.inr (.inr ⟨rfl, c, hmem, rfl⟩))) rfl
                  fun _ => hlong
              · cases h

/-- The token is a prefix of the text, and its first character is no blank. -/
lemma IsLexeme.split {cs text : List Char} {kind : TokenKind} (h : IsLexeme cs kind text) :
    ∃ c tail rest, text = c :: tail ∧ cs = text ++ rest ∧ isBlank c = false := by
  cases h with
  | number hnumeral =>
      obtain ⟨rfl, hn⟩ := takeNumeral?_eq_some hnumeral
      obtain ⟨c, tail, rfl, hc⟩ := hn.head
      refine ⟨c, tail, _, rfl, rfl, ?_⟩
      rcases hc with hc | rfl
      · exact isBlank_of_isWordChar (isWordChar_of_isDigit hc)
      · decide
  | @name c rest heq hstart =>
      refine ⟨c, _, rest.dropWhile isNameChar, rfl, ?_,
        isBlank_of_isWordChar (isWordChar_of_isNameStart hstart)⟩
      rw [heq, List.cons_append, List.takeWhile_append_dropWhile]
  | symbol hmem heq _ =>
      obtain ⟨c, tail, rfl, hc, -⟩ := head_mem_symbols hmem
      exact ⟨c, tail, _, rfl, heq, isBlank_of_mem_symbols hc⟩

/-! ## Tokens and what is behind them -/

/-- The text is at its end or goes on with a blank or a symbol. -/
def Separated (cs : List Char) : Prop := ∀ c ∈ cs.head?, isBlank c = true ∨ c ∈ symbols

section Separated

variable {cs : List Char}

lemma Separated.endsWord (h : Separated cs) : EndsWord cs :=
  fun c hc => (h c hc).elim isWordChar_of_isBlank isWordChar_of_mem_symbols

lemma Separated.endsName (h : Separated cs) : ∀ c ∈ cs.head?, isNameChar c = false := by
  intro c hc
  rw [Bool.eq_false_iff]
  intro hname
  have hword := h.endsWord c hc
  rw [isWordChar_of_isNameChar hname] at hword
  cases hword

/-- A word that a number could run into starts with a word character. -/
lemma EndsWord.startsWord (h : EndsWord cs) : startsWord cs = false := by
  cases cs with
  | nil => rfl
  | cons c rest =>
      have hword := h c (by simp)
      simp only [isWordChar, Bool.or_eq_false_iff] at hword
      simp [CausalEquations.startsWord, hword.1.1, hword.2]

lemma Separated.startsWord (h : Separated cs) : startsWord cs = false := h.endsWord.startsWord

lemma Separated.endsNumeral (h : Separated cs) : EndsNumeral cs := by
  intro c hc
  have hword := h.endsWord c hc
  refine ⟨?_, ?_, ?_⟩
  · rw [Bool.eq_false_iff]
    intro hdigit
    rw [isWordChar_of_isDigit hdigit] at hword
    cases hword
  · rintro rfl
    exact absurd (h '.' hc) (by decide)
  · rintro (rfl | rfl) <;> exact absurd hword (by decide)

end Separated

lemma lexeme?_number {n cs : List Char} (hn : IsNumeral n) (hcs : EndsNumeral cs) :
    lexeme? (n ++ cs) = some (.number, n) := by
  unfold lexeme?
  rw [hn.take hcs]

lemma lexeme?_name {n cs : List Char} (hn : isName n = true)
    (hcs : ∀ c ∈ cs.head?, isNameChar c = false) : lexeme? (n ++ cs) = some (.name, n) := by
  cases n with
  | nil => cases hn
  | cons c n =>
      simp only [isName, Bool.and_eq_true, List.all_eq_true] at hn
      obtain ⟨hc, hn⟩ := hn
      have hpoint : c ≠ '.' := by
        rintro rfl
        exact absurd hc (by decide)
      rw [List.cons_append]
      unfold lexeme?
      rw [takeNumeral?_eq_none (isDigit_of_isNameStart hc) hpoint]
      simp only [hc, if_true]
      rw [takeWhile_append_of_head hn hcs]

lemma lexeme?_symbol {kind : TokenKind} {text cs : List Char} (h : (kind, text) ∈ symbolTokens)
    (hlong : text.length = 1 → (text ++ cs).take 2 ∉ longOperators) :
    lexeme? (text ++ cs) = some (kind, text) := by
  obtain ⟨c, tail, rfl, hc, -⟩ := head_mem_symbols h
  have hnumeral : takeNumeral? (c :: (tail ++ cs)) = none := by
    refine takeNumeral?_eq_none ?_ ?_
    · rw [Bool.eq_false_iff]
      intro hdigit
      have hword := isWordChar_of_mem_symbols hc
      rw [isWordChar_of_isDigit hdigit] at hword
      cases hword
    · rintro rfl
      exact absurd hc (by decide)
  have hstart : isNameStart c = false := by
    rw [Bool.eq_false_iff]
    intro hstart
    have hword := isWordChar_of_mem_symbols hc
    rw [isWordChar_of_isNameStart hstart] at hword
    cases hword
  rw [List.cons_append]
  unfold lexeme?
  rw [hnumeral]
  simp only [hstart, Bool.false_eq_true, if_false]
  rcases mem_symbolTokens.mp h with ⟨rfl, hop⟩ | ⟨rfl, d, hd, heq⟩ | ⟨rfl, d, hd, heq⟩
  · have htail : tail.length = 1 := by simpa using length_of_mem_longOperators _ hop
    obtain ⟨b, rfl⟩ := List.length_eq_one_iff.mp htail
    rw [if_pos (by simpa using hop)]
    rfl
  · cases heq
    rw [if_neg (by simpa using hlong rfl), if_pos (by simpa using hd)]
  · cases heq
    have hshort : punctuation.any (shortOperators.contains ·) = false := by decide
    rw [if_neg (by simpa using hlong rfl), if_neg (List.any_eq_false.mp hshort c hd),
      if_pos (by simpa using hd)]

section Front

variable {cs : List Char} {ls : List Lexeme}

lemma Layout.number {n : List Char} (hn : IsNumeral n) (hcs : EndsNumeral cs)
    (hword : startsWord cs = false) (h : Layout cs ls) :
    Layout (n ++ cs) ((.number, String.ofList n) :: ls) :=
  .lexeme (lexeme?_number hn hcs) (fun _ => hword) h

lemma Layout.name {n : List Char} (hn : isName n = true) (hcs : Separated cs) (h : Layout cs ls) :
    Layout (n ++ cs) ((.name, String.ofList n) :: ls) :=
  .lexeme (lexeme?_name hn hcs.endsName) (fun h => absurd h (by decide)) h

lemma symbolTokens_ne_number {kind : TokenKind} {text : List Char}
    (h : (kind, text) ∈ symbolTokens) : kind ≠ .number := by
  rcases mem_symbolTokens.mp h with ⟨rfl, -⟩ | ⟨rfl, -⟩ | ⟨rfl, -⟩ <;> decide

lemma Layout.symbol {kind : TokenKind} {text : List Char} (ht : (kind, text) ∈ symbolTokens)
    (hlong : text.length = 1 → (text ++ cs).take 2 ∉ longOperators) (h : Layout cs ls) :
    Layout (text ++ cs) ((kind, String.ofList text) :: ls) :=
  .lexeme (lexeme?_symbol ht hlong) (fun h => absurd h (symbolTokens_ne_number ht)) h

/-- Blanks at the front do not count. -/
lemma Layout.of_blank {c : Char} (h : Layout (c :: cs) ls) (hc : isBlank c = true) :
    Layout cs ls := by
  generalize hcs : c :: cs = cs' at h
  cases h with
  | nil => cases hcs
  | blank _ h =>
      cases hcs
      exact h
  | lexeme hlex _ _ =>
      obtain ⟨c', tail, rest, rfl, -, hc'⟩ := (isLexeme_of_lexeme? hlex).split
      obtain ⟨rfl, -⟩ : c = c' ∧ _ := List.cons.inj hcs
      rw [hc'] at hc
      cases hc

/-- The token at the front is the first of the text. -/
lemma Layout.cut {kind : TokenKind} {text : List Char} (h : Layout (text ++ cs) ls)
    (hlex : lexeme? (text ++ cs) = some (kind, text)) :
    ∃ rest, ls = (kind, String.ofList text) :: rest ∧ Layout cs rest ∧
      (kind = .number → startsWord cs = false) := by
  obtain ⟨c, tail, rest, rfl, -, hc⟩ := (isLexeme_of_lexeme? hlex).split
  generalize hcs : c :: tail ++ cs = cs' at h hlex
  cases h with
  | nil => cases hcs
  | blank hblank _ =>
      cases hcs
      rw [hc] at hblank
      cases hblank
  | lexeme hlex' hword h =>
      rw [hlex', Option.some.injEq, Prod.mk.injEq] at hlex
      obtain ⟨rfl, rfl⟩ := hlex
      obtain rfl := List.append_cancel_left hcs
      exact ⟨_, rfl, h, hword⟩

/-- The number tokens are numerals. -/
lemma Layout.isNumeral_of_mem (h : Layout cs ls) :
    ∀ l ∈ ls, l.1 = .number → IsNumeral l.2.toList := by
  induction h with
  | nil => simp
  | blank _ _ ih => exact ih
  | @lexeme kind text cs ls hlex _ _ ih =>
      refine List.forall_mem_cons.mpr ⟨?_, ih⟩
      rintro rfl
      rw [String.toList_ofList]
      cases isLexeme_of_lexeme? hlex with
      | number hnumeral => exact (takeNumeral?_eq_some hnumeral).2
      | symbol hmem _ _ => exact absurd rfl (symbolTokens_ne_number hmem)

end Front

/-! ## Scanning -/

/-- The text from a position on consists of these tokens, each at its position, with blanks before,
between and behind them. -/
inductive Placed : ℕ → List Char → List Token → Prop where
  | nil {position : ℕ} : Placed position [] []
  | blank {position : ℕ} {c : Char} {cs : List Char} {body : List Token} : isBlank c = true →
      Placed (position + 1) cs body → Placed position (c :: cs) body
  | token {position : ℕ} {kind : TokenKind} {text cs : List Char} {body : List Token} :
      lexeme? (text ++ cs) = some (kind, text) → (kind = .number → startsWord cs = false) →
      Placed (position + text.length) cs body →
      Placed position (text ++ cs) (⟨kind, String.ofList text, position⟩ :: body)

lemma Placed.layout {position : ℕ} {cs : List Char} {body : List Token}
    (h : Placed position cs body) : Layout cs (body.map Token.lexeme) := by
  induction h with
  | nil => exact .nil
  | blank hblank _ ih => exact .blank hblank ih
  | token hlex hword _ ih => exact .lexeme hlex hword ih

/-- The tokens that are found stand where they are said to, and the last one at the end. -/
lemma placed_of_scanFrom {cs : List Char} {position skip : ℕ} {tokens : List Token}
    (h : scanFrom position skip cs = .ok tokens) (hskip : skip ≤ cs.length) :
    ∃ body, tokens = body ++ [⟨.finish, "", position + cs.length⟩] ∧
      Placed (position + skip) (cs.drop skip) body := by
  induction cs generalizing position skip tokens with
  | nil =>
      cases h
      exact ⟨[], rfl, by simpa using Placed.nil⟩
  | cons c rest ih =>
      have hend : position + 1 + rest.length = position + (c :: rest).length := by
        simp only [List.length_cons]
        omega
      cases skip with
      | succ skip =>
          obtain ⟨body, rfl, hplaced⟩ := ih h (by simpa using hskip)
          rw [Nat.add_assoc, Nat.add_comm 1] at hplaced
          exact ⟨body, by rw [hend], hplaced⟩
      | zero =>
          simp only [scanFrom] at h
          split at h
          · rename_i hblank
            obtain ⟨body, rfl, hplaced⟩ := ih h (Nat.zero_le _)
            exact ⟨body, by rw [hend], .blank hblank hplaced⟩
          · split at h
            · cases h
            · rename_i kind text hlex
              obtain ⟨c', tail, after, rfl, hsplit, -⟩ := (isLexeme_of_lexeme? hlex).split
              obtain ⟨rfl, rfl⟩ : c = c' ∧ rest = tail ++ after := by simpa using hsplit
              simp only [List.length_cons, Nat.add_sub_cancel] at h
              split at h
              · cases h
              · rename_i hword
                split at h
                · cases h
                · rename_i tokens' hrest
                  cases h
                  obtain ⟨body, rfl, hplaced⟩ := ih hrest (by simp)
                  rw [List.drop_left] at hword hplaced
                  refine ⟨⟨kind, String.ofList (c :: tail), position⟩ :: body, ?_, ?_⟩
                  · rw [hend, List.cons_append]
                  have hafter : kind = .number → startsWord after = false := fun hkind => by
                    rw [Bool.eq_false_iff]
                    exact fun h => hword ⟨hkind, h⟩
                  rw [Nat.add_assoc, Nat.add_comm 1] at hplaced
                  rw [← List.cons_append] at hlex
                  exact .token hlex hafter hplaced

lemma scanFrom_of_layout {cs : List Char} (position skip : ℕ) {ls : List Lexeme}
    (h : Layout (cs.drop skip) ls) (hskip : skip ≤ cs.length) :
    ∃ body fin, scanFrom position skip cs = .ok (body ++ [fin]) ∧ fin.kind = .finish ∧
      body.map Token.lexeme = ls := by
  induction cs generalizing position skip ls with
  | nil =>
      obtain rfl : skip = 0 := by simpa using hskip
      generalize hcs : List.drop 0 ([] : List Char) = cs at h
      cases h with
      | nil => exact ⟨[], _, rfl, rfl, rfl⟩
      | blank _ _ => cases hcs
      | lexeme hlex _ _ =>
          obtain ⟨c, tail, rest, rfl, -, -⟩ := (isLexeme_of_lexeme? hlex).split
          cases hcs
  | cons c rest ih =>
      cases skip with
      | succ skip => exact ih _ _ h (by simpa using hskip)
      | zero =>
          generalize hcs : List.drop 0 (c :: rest) = cs at h
          cases h with
          | nil => cases hcs
          | blank hblank h =>
              cases hcs
              simp only [scanFrom, hblank, if_true]
              exact ih _ _ h (Nat.zero_le _)
          | @lexeme kind text after ls hlex hword h =>
              obtain ⟨c', tail, rest', rfl, -, hblank⟩ := (isLexeme_of_lexeme? hlex).split
              obtain ⟨rfl, rfl⟩ : c = c' ∧ rest = tail ++ after := by simpa using hcs
              obtain ⟨body, fin, hscan, hfin, hmap⟩ :=
                ih (position + 1) tail.length (by rwa [List.drop_left]) (by simp)
              rw [List.cons_append] at hlex
              refine ⟨⟨kind, String.ofList (c :: tail), position⟩ :: body, fin, ?_, hfin, ?_⟩
              · have hnot : ¬ (kind = .number ∧ startsWord after = true) := fun hcon => by
                  rw [hword hcon.1] at hcon
                  exact absurd hcon.2 (by decide)
                simp only [scanFrom, hblank, Bool.false_eq_true, if_false, hlex, List.length_cons,
                  Nat.add_sub_cancel, List.drop_left, hnot, hscan]
                rfl
              · simp only [List.map_cons, hmap]
                rfl

/-- The tokens of a text, without the one that marks its end. -/
def Scans (text : String) (body : List Token) : Prop :=
  ∃ fin, Token.scan text = .ok (body ++ [fin]) ∧ fin.kind = .finish

/-- What is found in a text stands in it, and is closed by the token that marks its end. -/
lemma exists_placed {text : String} {tokens : List Token} (h : Token.scan text = .ok tokens) :
    ∃ body, tokens = body ++ [⟨.finish, "", text.length⟩] ∧ Placed 0 text.toList body := by
  obtain ⟨body, rfl, hplaced⟩ := placed_of_scanFrom h (Nat.zero_le _)
  exact ⟨body, by rw [Nat.zero_add, String.length_toList], hplaced⟩

lemma Scans.layout {text : String} {body : List Token} (h : Scans text body) :
    Layout text.toList (body.map Token.lexeme) := by
  obtain ⟨fin, hscan, -⟩ := h
  obtain ⟨body', heq, hplaced⟩ := exists_placed hscan
  obtain ⟨rfl, -⟩ := List.append_inj' heq rfl
  exact hplaced.layout

lemma Layout.exists_scans {text : String} {ls : List Lexeme} (h : Layout text.toList ls) :
    ∃ body, Scans text body ∧ body.map Token.lexeme = ls := by
  obtain ⟨body, fin, hscan, hfin, hmap⟩ :=
    scanFrom_of_layout 0 0 h (Nat.zero_le _)
  exact ⟨body, ⟨fin, hscan, hfin⟩, hmap⟩

lemma Scans.unique {text : String} {body body' : List Token} (h : Scans text body)
    (h' : Scans text body') : body = body' := by
  obtain ⟨fin, hscan, -⟩ := h
  obtain ⟨fin', hscan', -⟩ := h'
  rw [hscan, Except.ok.injEq] at hscan'
  exact (List.append_inj' hscan' rfl).1

/-- A text consists of one list of tokens only. -/
lemma Layout.unique {cs : List Char} {ls ls' : List Lexeme} (h : Layout cs ls)
    (h' : Layout cs ls') : ls = ls' := by
  have hcs : cs = (String.ofList cs).toList := by simp
  rw [hcs] at h h'
  obtain ⟨body, hscans, rfl⟩ := h.exists_scans
  obtain ⟨body', hscans', rfl⟩ := h'.exists_scans
  rw [hscans.unique hscans']

/-! ## Reading -/

variable {α : Type} [Scalar α]

/-- The tree of a text is the tree of its tokens. -/
lemma parse_eq_ok {text : String} {e : Expr α} :
    Expr.parse text = .ok e ↔ ∃ body, Scans text body ∧ Derives precedence .full body e := by
  rw [Expr.parse, parseWith_eq_ok]
  constructor
  · rintro ⟨body, fin, hscan, hfin, d⟩
    exact ⟨body, ⟨fin, hscan, hfin⟩, d⟩
  · rintro ⟨body, ⟨fin, hscan, hfin⟩, d⟩
    exact ⟨body, fin, hscan, hfin, d⟩

lemma read_eq_ok {text : String} {e : Expr α} :
    Expr.read text = .ok e ↔ ∃ body, Scans text body ∧ Forms Expr.isFunction body e := by
  rw [Expr.read_eq_ok, parse_eq_ok]
  constructor
  · rintro ⟨⟨body, hscans, d⟩, hcalls⟩
    exact ⟨body, hscans, d, hcalls⟩
  · rintro ⟨body, hscans, d, hcalls⟩
    exact ⟨⟨body, hscans, d⟩, hcalls⟩

/-- The text has a tree that calls known functions only. -/
def Reads (α : Type) [Scalar α] (text : String) : Prop := ∃ e : Expr α, Expr.read text = .ok e

/-- A text is read if the machine accepts its tokens. -/
lemma reads_iff {text : String} :
    Reads α text ↔ ∃ ls, Layout text.toList ls ∧ Accepts Expr.isFunction ls := by
  constructor
  · rintro ⟨e, he⟩
    obtain ⟨body, hscans, he⟩ := read_eq_ok.mp he
    refine ⟨_, hscans.layout, ?_⟩
    exact (accepts_iff Expr.isFunction_true Expr.isFunction_false).mpr ⟨e, he⟩
  · rintro ⟨ls, hlayout, haccepts⟩
    obtain ⟨body, hscans, rfl⟩ := hlayout.exists_scans
    obtain ⟨e, he⟩ :=
      (accepts_iff (α := α) Expr.isFunction_true Expr.isFunction_false).mp haccepts
    exact ⟨e, read_eq_ok.mpr ⟨body, hscans, he⟩⟩

end CausalEquations
