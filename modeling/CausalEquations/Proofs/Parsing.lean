import CausalEquations.Proofs.ParserCompleteness
import CausalEquations.Proofs.ParserStability

/-!
# Reading an expression decides the grammar

A text is read if and only if it can be cut into tokens that form a full expression, and the tree is
the one that the grammar gives. Every other text is an error: the depth of recursion suffices and
the parser stays in front of the token that marks the end.

* `EndsOnce`, `endsOnce_of_scan` — the tokens of a text are closed by one end.
* `parseWith_eq_ok` — the trees of a text.
* `Derives.unique` — tokens have at most one tree.
* `parsing_decides_grammar` — all of this for every table of binary operators.
-/

namespace CausalEquations

variable {α : Type} [Scalar α] {table : List (String × Int)}

/-! ## The tokens of a text -/

/-- The last token marks the end of the text, and no other token does. -/
def EndsOnce (tokens : List Token) : Prop :=
  ∃ body fin, tokens = body ++ [fin] ∧ fin.kind = .finish ∧ ∀ t ∈ body, t.Inner

lemma EndsOnce.cons {t : Token} {tokens : List Token} (ht : t.Inner) (h : EndsOnce tokens) :
    EndsOnce (t :: tokens) := by
  obtain ⟨body, fin, rfl, hfin, hbody⟩ := h
  exact ⟨t :: body, fin, rfl, hfin, List.forall_mem_cons.mpr ⟨ht, hbody⟩⟩

lemma lexeme?_inner {cs text : List Char} {kind : TokenKind} (h : lexeme? cs = some (kind, text)) :
    kind ≠ .finish := by
  unfold lexeme? at h
  split at h
  · cases h
    decide
  · split at h
    · cases h
    · repeat' split at h
      all_goals cases h
      all_goals decide

lemma endsOnce_scanFrom {cs : List Char} {position skip : ℕ} {tokens : List Token}
    (h : scanFrom position skip cs = .ok tokens) : EndsOnce tokens := by
  induction cs generalizing position skip tokens with
  | nil =>
      cases h
      exact ⟨[], _, rfl, rfl, by simp⟩
  | cons c rest ih =>
      cases skip with
      | succ skip => exact ih h
      | zero =>
          simp only [scanFrom] at h
          split at h
          · exact ih h
          · split at h
            · cases h
            · rename_i kind text hlex
              split at h
              · cases h
              · split at h
                · cases h
                · rename_i tail htail
                  cases h
                  exact (ih htail).cons (lexeme?_inner hlex)

lemma endsOnce_of_scan {text : String} {tokens : List Token} (h : Token.scan text = .ok tokens) :
    EndsOnce tokens :=
  endsOnce_scanFrom h

/-! ## Trees of tokens -/

/-- What is left behind a phrase, if it starts with the end, is the end alone. -/
lemma rest_eq_finish {used rest body : List Token} {fin : Token} (heq : used ++ rest = body ++ [fin])
    (hused : ∀ t ∈ used, t.Inner) (hbody : ∀ t ∈ body, t.Inner) (hfin : fin.kind = .finish)
    (hrest : (current rest).kind = .finish) : used = body ∧ rest = [fin] := by
  rcases List.append_eq_append_iff.mp heq with ⟨as, rfl, htail⟩ | ⟨as, rfl, htail⟩
  · cases as with
    | nil => exact ⟨(List.append_nil used).symm, htail⟩
    | cons a as =>
        subst htail
        exact absurd hrest (hbody a (by simp))
  · cases as with
    | nil => exact ⟨List.append_nil body, htail.symm⟩
    | cons a as =>
        obtain ⟨rfl, -⟩ : fin = a ∧ [] = as ++ rest := by simpa using htail
        exact absurd hfin (hused fin (by simp))

lemma endsFull_of_finish {fin : Token} (h : fin.kind = .finish) : EndsFull table [fin] := by
  refine ⟨fun t rest s heq ht => ?_, ?_, ?_⟩
  · cases heq
    exact absurd h ht.inner
  · simp [startsWithMark, current, h]
  · simp [startsWithMark, current, h]

lemma endsFull_nil : EndsFull table [] :=
  ⟨fun _ _ _ heq => absurd heq (by simp), rfl, rfl⟩

/-- Any depth above the bound gives the same outcome. -/
lemma parseChoice_fuel {tokens : List Token} {fuel : ℕ} (h : depthBound tokens ≤ fuel) :
    parseChoice (α := α) table fuel tokens = parseChoice table (depthBound tokens) tokens := by
  have hsame : parseChoice (α := α) table fuel (tokens ++ []) =
      appended [] (parseChoice table (depthBound tokens) tokens) :=
    (stableAt _).choice (.inl rfl) (by unfold depthBound; omega) (by unfold depthBound at h; omega)
  rw [List.append_nil] at hsame
  rw [hsame]
  cases parseChoice (α := α) table (depthBound tokens) tokens with
  | error e => rfl
  | ok x => simp [appended, Except.map]

/-- The trees of tokens with one end are those of the grammar. -/
lemma ofTokens_eq_ok {body : List Token} {fin : Token} {tree : Expr α} (hfin : fin.kind = .finish)
    (hbody : ∀ t ∈ body, t.Inner) :
    Expr.ofTokens table (body ++ [fin]) = .ok tree ↔ Derives table .full body tree := by
  unfold Expr.ofTokens
  constructor
  · intro h
    split at h
    · cases h
    · obtain ⟨⟨tree', rest⟩, hparse, h⟩ := bind_eq_ok.mp h
      dsimp only at h
      split at h
      · rename_i hrest
        cases h
        obtain ⟨used, heq, d⟩ := (soundAt _).choice hparse
        obtain ⟨rfl, -⟩ := rest_eq_finish heq.symm d.noFinish hbody hfin hrest
        exact d
      · cases h
  · intro d
    obtain ⟨t, ts, rfl⟩ : ∃ t ts, body = t :: ts := List.exists_cons_of_ne_nil d.ne_nil
    have hopens : (current (t :: ts ++ [fin])).kind ≠ .finish := hbody t (by simp)
    obtain ⟨n, hn⟩ := d.complete [fin] (endsFull_of_finish hfin)
    have hparse : parseChoice (α := α) table (max n (depthBound (t :: ts ++ [fin])))
        (t :: ts ++ [fin]) = .ok (tree, [fin]) := hn _ (by omega)
    rw [parseChoice_fuel (by omega)] at hparse
    rw [if_neg hopens, hparse, ok_bind]
    exact if_pos hfin

/-- Tokens behind the end change nothing. -/
lemma ofTokens_append {body extra : List Token} {fin : Token} (hfin : fin.kind = .finish) :
    Expr.ofTokens (α := α) table (body ++ fin :: extra) = Expr.ofTokens table (body ++ [fin]) := by
  have hclosed : Closed (body ++ [fin]) extra := .inr ⟨fin, by simp, by simp [Token.Inner, hfin]⟩
  have hsplit : body ++ fin :: extra = (body ++ [fin]) ++ extra := by simp
  have hparse : parseChoice (α := α) table (depthBound (body ++ fin :: extra))
      (body ++ [fin] ++ extra) =
        appended extra (parseChoice table (depthBound (body ++ [fin])) (body ++ [fin])) :=
    (stableAt _).choice hclosed (by unfold depthBound; omega)
      (by unfold depthBound; simp only [List.length_append, List.length_cons, List.length_nil]; omega)
  unfold Expr.ofTokens
  rw [hsplit] at hparse ⊢
  rw [hclosed.current_append, hparse]
  split
  · rfl
  · cases hres : parseChoice (α := α) table (depthBound (body ++ [fin])) (body ++ [fin]) with
    | error e => rfl
    | ok x =>
        obtain ⟨used, heq, d⟩ := (soundAt _).choice hres
        rw [heq] at hclosed
        show (if (current (x.2 ++ extra)).kind = .finish then _ else _) = _
        rw [(hclosed.of_append d.noFinish).current_append]
        rfl

/-! ## Trees of a text -/

lemma parseWith_eq_ok {text : String} {tree : Expr α} :
    Expr.parseWith table text = .ok tree ↔
      ∃ body fin, Token.scan text = .ok (body ++ [fin]) ∧ fin.kind = .finish ∧
        Derives table .full body tree := by
  unfold Expr.parseWith
  rw [bind_eq_ok]
  constructor
  · rintro ⟨tokens, hscan, h⟩
    obtain ⟨body, fin, rfl, hfin, hbody⟩ := endsOnce_of_scan hscan
    exact ⟨body, fin, hscan, hfin, (ofTokens_eq_ok hfin hbody).mp h⟩
  · rintro ⟨body, fin, hscan, hfin, d⟩
    exact ⟨_, hscan, (ofTokens_eq_ok hfin d.noFinish).mpr d⟩

/-- Tokens have at most one tree. -/
lemma Derives.unique {ts : List Token} {tree tree' : Expr α} (d : Derives table .full ts tree)
    (d' : Derives table .full ts tree') : tree = tree' := by
  obtain ⟨n, hn⟩ := d.complete [] endsFull_nil
  obtain ⟨m, hm⟩ := d'.complete [] endsFull_nil
  have heq := (hn (max n m) (by omega)).symm.trans (hm (max n m) (by omega))
  cases heq
  rfl

/-- **Parsing decides the grammar**, for every table of binary operators. A text has a tree exactly
if its tokens derive it, and every other text is refused with an error. The outcome depends on no
token behind the end and on no bound of the recursion. No tokens derive two trees. -/
theorem parsing_decides_grammar (table : List (String × Int)) :
    (∀ (text : String) (tree : Expr α), Expr.parseWith table text = .ok tree ↔
      ∃ body fin, Token.scan text = .ok (body ++ [fin]) ∧ fin.kind = .finish ∧
        Derives table .full body tree) ∧
    (∀ text : String, (¬ ∃ (tree : Expr α) (body : List Token) (fin : Token),
        Token.scan text = .ok (body ++ [fin]) ∧ fin.kind = .finish ∧
          Derives table .full body tree) →
      ∃ e, Expr.parseWith (α := α) table text = .error e) ∧
    (∀ (body extra : List Token) (fin : Token), fin.kind = .finish →
      Expr.ofTokens (α := α) table (body ++ fin :: extra) = Expr.ofTokens table (body ++ [fin])) ∧
    (∀ (tokens : List Token) (fuel : ℕ), depthBound tokens ≤ fuel →
      parseChoice (α := α) table fuel tokens = parseChoice table (depthBound tokens) tokens) ∧
    (∀ (ts : List Token) (tree tree' : Expr α), Derives table .full ts tree →
      Derives table .full ts tree' → tree = tree') := by
  refine ⟨fun text tree => parseWith_eq_ok, fun text hnone => ?_,
    fun body extra fin hfin => ofTokens_append hfin, fun tokens fuel hfuel => parseChoice_fuel hfuel,
    fun ts tree tree' d d' => d.unique d'⟩
  cases h : Expr.parseWith (α := α) table text with
  | error e => exact ⟨e, rfl⟩
  | ok tree => exact absurd ⟨tree, parseWith_eq_ok.mp h⟩ hnone

end CausalEquations
