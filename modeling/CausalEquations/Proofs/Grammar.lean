import CausalEquations.Expr.Parser
import Mathlib.Data.List.Basic

/-!
# The grammar of expressions

Which tokens form an expression, said without a parser. From loose to tight the phrases are a full
expression, a binary expression of some level, an operand with prefix operators, something that is
called, and a primary. The level of a binary expression bounds the strength of its outermost
operator from below; a left operand may have the strength of its operator, a right operand must be
stronger, so equal operators group to the left.

* `Phrase`, `Derives`, `DerivesArguments` — the grammar.
* `Derives.opens`, `Derives.noFinish` — the first token of a phrase, and that the end of the text is
  none of its tokens.
* `Derives.weaken` — what stands at a level stands at every lower level.
-/

namespace CausalEquations

/-! ## Tokens of the grammar -/

/-- The token is this punctuation mark. -/
def Token.IsMark (t : Token) (mark : String) : Prop := t.kind = .punct ∧ t.text = mark

/-- How strongly a symbol binds two operands, if the table has it. -/
def strength? (table : List (String × Int)) (symbol : String) : Option Int :=
  (table.find? fun entry => entry.1 == symbol).map Prod.snd

/-- The token is a binary operator of this strength. -/
def Token.IsBinary (table : List (String × Int)) (t : Token) (s : Int) : Prop :=
  t.kind = .op ∧ strength? table t.text = some s

/-- The token is a prefix operator. -/
def Token.IsUnary (t : Token) : Prop := t.kind = .op ∧ (UnaryOp.ofSymbol? t.text).isSome = true

/-! ## Derivations -/

/-- The kinds of phrases, from loose to tight. -/
inductive Phrase where
  /-- A choice, or a binary expression of the lowest level. -/
  | full
  /-- Operands joined by operators that bind at least as strongly as `level`. -/
  | binary (level : Int)
  /-- Prefix operators before something that may be called. -/
  | operand
  /-- A primary and any number of argument lists. -/
  | applied
  /-- A number, a name or a full expression in parentheses. -/
  | primary

variable {α : Type} [Scalar α] (table : List (String × Int))

mutual

/-- The tokens form a phrase of this kind with this tree. -/
inductive Derives : Phrase → List Token → Expr α → Prop where
  | choice {ts us vs : List Token} {q c : Token} {test a b : Expr α} :
      Derives (.binary 1) ts test → q.IsMark "?" → Derives .full us a → c.IsMark ":" →
      Derives .full vs b → Derives .full (ts ++ q :: (us ++ c :: vs)) (.choice test a b)
  | ofBinary {ts : List Token} {e : Expr α} : Derives (.binary 1) ts e → Derives .full ts e
  | binary {level s : Int} {ls rs : List Token} {t : Token} {l r : Expr α} :
      Derives (.binary s) ls l → t.IsBinary table s → level ≤ s → Derives (.binary (s + 1)) rs r →
      Derives (.binary level) (ls ++ t :: rs) (.binary t.text l r)
  | ofOperand {level : Int} {ts : List Token} {e : Expr α} :
      Derives .operand ts e → Derives (.binary level) ts e
  | unary {t : Token} {ts : List Token} {e : Expr α} :
      t.IsUnary → Derives .operand ts e → Derives .operand (t :: ts) (.unary t.text e)
  | ofApplied {ts : List Token} {e : Expr α} : Derives .applied ts e → Derives .operand ts e
  | call {ts us : List Token} {o c : Token} {f : Expr α} {args : List (Expr α)} :
      Derives .applied ts f → o.IsMark "(" → DerivesArguments us args → c.IsMark ")" →
      Derives .applied (ts ++ o :: (us ++ [c])) (.call f args)
  | callEmpty {ts : List Token} {o c : Token} {f : Expr α} :
      Derives .applied ts f → o.IsMark "(" → c.IsMark ")" →
      Derives .applied (ts ++ [o, c]) (.call f [])
  | ofPrimary {ts : List Token} {e : Expr α} : Derives .primary ts e → Derives .applied ts e
  | number {t : Token} : t.kind = .number →
      Derives .primary [t] (.literal (readNumeral t.text.toList) t.text)
  | name {t : Token} : t.kind = .name → Derives .primary [t] (Expr.ofName t.text)
  | group {ts : List Token} {o c : Token} {e : Expr α} :
      o.IsMark "(" → Derives .full ts e → c.IsMark ")" → Derives .primary (o :: (ts ++ [c])) e

/-- The tokens form one or more full expressions with commas between them. -/
inductive DerivesArguments : List Token → List (Expr α) → Prop where
  | last {ts : List Token} {e : Expr α} : Derives .full ts e → DerivesArguments ts [e]
  | more {ts us : List Token} {t : Token} {e : Expr α} {es : List (Expr α)} :
      Derives .full ts e → t.IsMark "," → DerivesArguments us es →
      DerivesArguments (ts ++ t :: us) (e :: es)

end

variable {table}

/-- The token can be the first of a phrase. -/
def Token.Opens (t : Token) : Prop :=
  t.kind = .number ∨ t.kind = .name ∨ t.IsUnary ∨ t.IsMark "("

lemma Token.Opens.not_mark {t : Token} (h : t.Opens) {mark : String} (hne : mark ≠ "(") :
    ¬ t.IsMark mark := by
  rintro ⟨hkind, htext⟩
  rcases h with h | h | h | h
  · exact absurd (hkind.symm.trans h) (by decide)
  · exact absurd (hkind.symm.trans h) (by decide)
  · exact absurd (hkind.symm.trans h.1) (by decide)
  · exact hne (htext.symm.trans h.2)

/-- Every phrase has a first token. -/
lemma Derives.opens {phrase : Phrase} {ts : List Token} {e : Expr α} :
    Derives table phrase ts e → ∃ t rest, ts = t :: rest ∧ t.Opens
  | .choice htest _ _ _ _ => by
      obtain ⟨t, rest, rfl, ht⟩ := htest.opens
      exact ⟨t, _, List.cons_append, ht⟩
  | .ofBinary h => h.opens
  | .binary hl _ _ _ => by
      obtain ⟨t, rest, rfl, ht⟩ := hl.opens
      exact ⟨t, _, List.cons_append, ht⟩
  | .ofOperand h => h.opens
  | .unary ht _ => ⟨_, _, rfl, Or.inr (Or.inr (Or.inl ht))⟩
  | .ofApplied h => h.opens
  | .call hf _ _ _ => by
      obtain ⟨t, rest, rfl, ht⟩ := hf.opens
      exact ⟨t, _, List.cons_append, ht⟩
  | .callEmpty hf _ _ => by
      obtain ⟨t, rest, rfl, ht⟩ := hf.opens
      exact ⟨t, _, List.cons_append, ht⟩
  | .ofPrimary h => h.opens
  | .number ht => ⟨_, _, rfl, Or.inl ht⟩
  | .name ht => ⟨_, _, rfl, Or.inr (Or.inl ht)⟩
  | .group ho _ _ => ⟨_, _, rfl, Or.inr (Or.inr (Or.inr ho))⟩

/-- No phrase is empty. -/
lemma Derives.ne_nil {phrase : Phrase} {ts : List Token} {e : Expr α}
    (h : Derives table phrase ts e) : ts ≠ [] := by
  obtain ⟨t, rest, rfl, -⟩ := h.opens
  exact List.cons_ne_nil t rest

/-- What stands at a level stands at every lower level. -/
lemma Derives.weaken {level level' : Int} {ts : List Token} {e : Expr α}
    (h : Derives table (.binary level) ts e) (hle : level' ≤ level) :
    Derives table (.binary level') ts e := by
  cases h with
  | binary hl ht hs hr => exact .binary hl ht (Int.le_trans hle hs) hr
  | ofOperand h => exact .ofOperand h

/-- The token is not the end of the text. -/
def Token.Inner (t : Token) : Prop := t.kind ≠ .finish

lemma Token.IsMark.inner {t : Token} {mark : String} (h : t.IsMark mark) : t.Inner := by
  simp [Token.Inner, h.1]

lemma Token.IsBinary.inner {t : Token} {strength : Int} (h : t.IsBinary table strength) :
    t.Inner := by
  simp [Token.Inner, h.1]

lemma Token.IsUnary.inner {t : Token} (h : t.IsUnary) : t.Inner := by
  simp [Token.Inner, h.1]

mutual

/-- The end of the text is part of no phrase. -/
lemma Derives.noFinish {phrase : Phrase} {ts : List Token} {e : Expr α} :
    Derives table phrase ts e → ∀ t ∈ ts, t.Inner
  | .choice htest hq ha hc hb => by
      simp only [List.forall_mem_append, List.forall_mem_cons]
      exact ⟨htest.noFinish, hq.inner, ha.noFinish, hc.inner, hb.noFinish⟩
  | .ofBinary h => h.noFinish
  | .binary hl ht _ hr => by
      simp only [List.forall_mem_append, List.forall_mem_cons]
      exact ⟨hl.noFinish, ht.inner, hr.noFinish⟩
  | .ofOperand h => h.noFinish
  | .unary ht h => by
      simp only [List.forall_mem_cons]
      exact ⟨ht.inner, h.noFinish⟩
  | .ofApplied h => h.noFinish
  | .call hf ho hargs hc => by
      simp only [List.forall_mem_append, List.forall_mem_cons]
      exact ⟨hf.noFinish, ho.inner, hargs.noFinish, hc.inner, by simp⟩
  | .callEmpty hf ho hc => by
      simp only [List.forall_mem_append, List.forall_mem_cons]
      exact ⟨hf.noFinish, ho.inner, hc.inner, by simp⟩
  | .ofPrimary h => h.noFinish
  | .number ht => by simp [Token.Inner, ht]
  | .name ht => by simp [Token.Inner, ht]
  | .group ho h hc => by
      simp only [List.forall_mem_append, List.forall_mem_cons]
      exact ⟨ho.inner, h.noFinish, hc.inner, by simp⟩

lemma DerivesArguments.noFinish {ts : List Token} {es : List (Expr α)} :
    DerivesArguments table ts es → ∀ t ∈ ts, t.Inner
  | .last h => h.noFinish
  | .more h ht hrest => by
      simp only [List.forall_mem_append, List.forall_mem_cons]
      exact ⟨h.noFinish, ht.inner, hrest.noFinish⟩

end

end CausalEquations
