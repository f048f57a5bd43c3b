import CausalEquations.Proofs.Rereading
import Mathlib.Data.List.Chain

/-!
# Words in the leaves of a tree

The numbers and names of an expression are the leaves of its tree, with the text that they have been
written as. A word occurs in a text that has a tree exactly if it occurs in a leaf: blanks and
symbols have no part in words, and no word reaches from one leaf into the next.

* `Expr.leaves`, `Derives.leaves_eq` — the leaves of a tree are the numbers and names among the
  tokens.
* `Spaced`, `Derives.spaced`, `Layout.separated_of_spaced` — no leaf stands right behind another.
* `Layout.hasWord_iff`, `mentions_iff_leaves` — where a word occurs.
* `substitute_zero_changes` — putting zero for a word that occurs changes the tree.
-/

namespace CausalEquations

variable {α : Type}

/-! ## Leaves -/

namespace Expr

mutual

/-- The texts of the numbers and names, from left to right, called functions included. -/
def leaves : Expr α → List String
  | literal _ raw => [raw]
  | identifier name => [name]
  | unary _ a => a.leaves
  | binary _ a b => a.leaves ++ b.leaves
  | choice t a b => t.leaves ++ (a.leaves ++ b.leaves)
  | call f args => f.leaves ++ leavesOfList args

/-- The leaves of a list of arguments. -/
def leavesOfList : List (Expr α) → List String
  | [] => []
  | a :: rest => a.leaves ++ leavesOfList rest

end

end Expr

/-- The token is a number or a name. -/
def IsLeaf (l : Lexeme) : Prop := l.1 = .number ∨ l.1 = .name

lemma Token.IsMark.not_isLeaf {t : Token} {mark : String} (h : t.IsMark mark) :
    ¬ IsLeaf t.lexeme := by
  simp [IsLeaf, Token.lexeme, h.1]

lemma Token.IsBinary.not_isLeaf {table : List (String × Int)} {t : Token} {s : Int}
    (h : t.IsBinary table s) : ¬ IsLeaf t.lexeme := by
  simp [IsLeaf, Token.lexeme, h.1]

lemma Token.IsUnary.not_isLeaf {t : Token} (h : t.IsUnary) : ¬ IsLeaf t.lexeme := by
  simp [IsLeaf, Token.lexeme, h.1]

/-- The text of a token that is a number or a name. -/
def leafText? (l : Lexeme) : Option String :=
  if l.1 = .number ∨ l.1 = .name then some l.2 else none

/-- The numbers and names among the tokens. -/
def leafTexts (ls : List Lexeme) : List String := ls.filterMap leafText?

@[simp] lemma leafTexts_nil : leafTexts [] = [] := rfl

@[simp] lemma leafTexts_append (ls ls' : List Lexeme) :
    leafTexts (ls ++ ls') = leafTexts ls ++ leafTexts ls' := List.filterMap_append

lemma leafTexts_cons_leaf {l : Lexeme} (h : IsLeaf l) (ls : List Lexeme) :
    leafTexts (l :: ls) = l.2 :: leafTexts ls :=
  List.filterMap_cons_some (if_pos h)

lemma leafTexts_cons_other {l : Lexeme} (h : ¬ IsLeaf l) (ls : List Lexeme) :
    leafTexts (l :: ls) = leafTexts ls :=
  List.filterMap_cons_none (if_neg h)

lemma Token.IsMark.leafTexts_cons {t : Token} {mark : String} (h : t.IsMark mark) (ls : List Lexeme) :
    leafTexts (t.lexeme :: ls) = leafTexts ls := leafTexts_cons_other h.not_isLeaf ls

lemma Token.IsBinary.leafTexts_cons {table : List (String × Int)} {t : Token} {s : Int}
    (h : t.IsBinary table s) (ls : List Lexeme) :
    leafTexts (t.lexeme :: ls) = leafTexts ls := leafTexts_cons_other h.not_isLeaf ls

lemma Token.IsUnary.leafTexts_cons {t : Token} (h : t.IsUnary) (ls : List Lexeme) :
    leafTexts (t.lexeme :: ls) = leafTexts ls := leafTexts_cons_other h.not_isLeaf ls

variable [Scalar α]

lemma leaves_ofName (x : Name) : (Expr.ofName x : Expr α).leaves = [x] := by
  unfold Expr.ofName
  split
  · rfl
  · split <;> rfl

mutual

/-- The leaves of a tree are the numbers and names among its tokens. -/
lemma Derives.leaves_eq {phrase : Phrase} {ts : List Token} {e : Expr α} :
    Derives precedence phrase ts e → e.leaves = leafTexts (ts.map Token.lexeme)
  | .choice htest hq ha hc hb => by
      simp only [List.map_append, List.map_cons, leafTexts_append, hq.leafTexts_cons,
        hc.leafTexts_cons, Expr.leaves, htest.leaves_eq, ha.leaves_eq, hb.leaves_eq]
  | .ofBinary h => h.leaves_eq
  | .binary hl ht _ hr => by
      simp only [List.map_append, List.map_cons, leafTexts_append, ht.leafTexts_cons, Expr.leaves,
        hl.leaves_eq, hr.leaves_eq]
  | .ofOperand h => h.leaves_eq
  | .unary ht h => by
      simp only [List.map_cons, ht.leafTexts_cons, Expr.leaves, h.leaves_eq]
  | .ofApplied h => h.leaves_eq
  | .call hf ho hargs hc => by
      simp only [List.map_append, List.map_cons, leafTexts_append, ho.leafTexts_cons,
        hc.leafTexts_cons, Expr.leaves, hf.leaves_eq, hargs.leaves_eq, List.map_nil, leafTexts_nil,
        List.append_nil]
  | .callEmpty hf ho hc => by
      simp only [List.map_append, List.map_cons, leafTexts_append, ho.leafTexts_cons,
        hc.leafTexts_cons, Expr.leaves, hf.leaves_eq, Expr.leavesOfList, List.map_nil,
        leafTexts_nil]
  | .ofPrimary h => h.leaves_eq
  | .number ht => by
      simp [Expr.leaves, leafTexts, leafText?, Token.lexeme, ht]
  | .name ht => by
      simp [leaves_ofName, leafTexts, leafText?, Token.lexeme, ht]
  | .group ho h hc => by
      simp only [List.map_append, List.map_cons, leafTexts_append, ho.leafTexts_cons,
        hc.leafTexts_cons, h.leaves_eq, List.map_nil, leafTexts_nil, List.append_nil]

lemma DerivesArguments.leaves_eq {ts : List Token} {es : List (Expr α)} :
    DerivesArguments precedence ts es → Expr.leavesOfList es = leafTexts (ts.map Token.lexeme)
  | .last h => by
      simp only [Expr.leavesOfList, h.leaves_eq, List.append_nil]
  | .more h ht hrest => by
      simp only [List.map_append, List.map_cons, leafTexts_append, ht.leafTexts_cons,
        Expr.leavesOfList, h.leaves_eq, hrest.leaves_eq]

end

/-! ## Leaves are apart -/

/-- No number or name stands right behind another one. -/
def Spaced (ls : List Lexeme) : Prop := ls.IsChain fun l l' => IsLeaf l → ¬ IsLeaf l'

lemma Spaced.nil : Spaced [] := List.IsChain.nil

lemma Spaced.singleton (l : Lexeme) : Spaced [l] := List.IsChain.singleton l

lemma Spaced.tail {l : Lexeme} {ls : List Lexeme} (h : Spaced (l :: ls)) : Spaced ls :=
  (List.isChain_cons.mp h).2

/-- Phrases are joined by operators and marks. -/
lemma Spaced.join {ls ls' : List Lexeme} {l : Lexeme} (h : Spaced ls) (hl : ¬ IsLeaf l)
    (h' : Spaced ls') : Spaced (ls ++ l :: ls') := by
  refine List.isChain_append.mpr ⟨h, List.isChain_cons.mpr ⟨fun _ _ hleaf => absurd hleaf hl, h'⟩, ?_⟩
  intro x _ y hy _
  obtain rfl : l = y := by simpa using hy
  exact hl

mutual

/-- The tokens of a phrase are spaced. -/
lemma Derives.spaced {phrase : Phrase} {ts : List Token} {e : Expr α} :
    Derives precedence phrase ts e → Spaced (ts.map Token.lexeme)
  | .choice htest hq ha hc hb => by
      simp only [List.map_append, List.map_cons]
      exact htest.spaced.join hq.not_isLeaf (ha.spaced.join hc.not_isLeaf hb.spaced)
  | .ofBinary h => h.spaced
  | .binary hl ht _ hr => by
      simp only [List.map_append, List.map_cons]
      exact hl.spaced.join ht.not_isLeaf hr.spaced
  | .ofOperand h => h.spaced
  | .unary ht h => Spaced.nil.join ht.not_isLeaf h.spaced
  | .ofApplied h => h.spaced
  | .call hf ho hargs hc => by
      simp only [List.map_append, List.map_cons]
      exact hf.spaced.join ho.not_isLeaf (hargs.spaced.join hc.not_isLeaf .nil)
  | .callEmpty hf ho hc => by
      simp only [List.map_append, List.map_cons]
      exact hf.spaced.join ho.not_isLeaf (Spaced.nil.join hc.not_isLeaf .nil)
  | .ofPrimary h => h.spaced
  | .number _ => .singleton _
  | .name _ => .singleton _
  | .group ho h hc => by
      simp only [List.map_append, List.map_cons]
      exact Spaced.nil.join ho.not_isLeaf (h.spaced.join hc.not_isLeaf .nil)

lemma DerivesArguments.spaced {ts : List Token} {es : List (Expr α)} :
    DerivesArguments precedence ts es → Spaced (ts.map Token.lexeme)
  | .last h => h.spaced
  | .more h ht hrest => by
      simp only [List.map_append, List.map_cons]
      exact h.spaced.join ht.not_isLeaf hrest.spaced

end

omit [Scalar α] in
/-- Behind a number or a name the text is at its end or goes on with a blank or a symbol. -/
lemma Layout.separated_of_spaced {cs : List Char} {l : Lexeme} {ls : List Lexeme}
    (h : Layout cs ls) (hl : IsLeaf l) (hspaced : Spaced (l :: ls)) : Separated cs := by
  cases h with
  | nil => simp [Separated]
  | blank hblank _ =>
      intro d hd
      obtain rfl := Option.some.inj hd
      exact .inl hblank
  | lexeme hlex _ _ =>
      have hother := (List.isChain_cons.mp hspaced).1 _ rfl hl
      cases isLexeme_of_lexeme? hlex with
      | number _ => exact absurd (.inl rfl) hother
      | name _ _ => exact absurd (.inr rfl) hother
      | symbol hmem _ _ =>
          obtain ⟨d, tail, rfl, hd, -⟩ := head_mem_symbols hmem
          intro d' hd'
          obtain rfl := Option.some.inj hd'
          exact .inr hd

/-! ## Words -/

/-- Symbols have no part in words. -/
lemma hasWord_symbols {word text cs : List Char} (hword : IsWord word)
    (h : ∀ c ∈ text, c ∈ symbols) : hasWord word (text ++ cs) = hasWord word cs := by
  induction text with
  | nil => rfl
  | cons c text ih =>
      obtain ⟨hc, htext⟩ := List.forall_mem_cons.mp h
      rw [List.cons_append, hasWord_other hword (isWordChar_of_mem_symbols hc), ih htext]

lemma not_isLeaf_symbol {kind : TokenKind} {text : List Char} (h : (kind, text) ∈ symbolTokens)
    (raw : String) : ¬ IsLeaf (kind, raw) := by
  rcases mem_symbolTokens.mp h with ⟨rfl, -⟩ | ⟨rfl, -⟩ | ⟨rfl, -⟩ <;> simp [IsLeaf]

/-- **A word occurs in a text exactly if it occurs in one of the numbers and names.** -/
lemma Layout.hasWord_iff {word cs : List Char} {ls : List Lexeme} (hword : IsWord word)
    (h : Layout cs ls) (hspaced : Spaced ls) :
    hasWord word cs = true ↔ ∃ t ∈ leafTexts ls, hasWord word t.toList = true := by
  induction h with
  | nil => simp [leafTexts]
  | blank hblank _ ih =>
      rw [hasWord_other hword (isWordChar_of_isBlank hblank)]
      exact ih hspaced
  | @lexeme kind text cs ls hlex _ h ih =>
      have hrest := ih hspaced.tail
      have hleaf : IsLeaf (kind, String.ofList text) →
          (hasWord word (text ++ cs) = true ↔
            ∃ t ∈ leafTexts ((kind, String.ofList text) :: ls), hasWord word t.toList = true) := by
        intro hl
        rw [leafTexts_cons_leaf hl, hasWord_append hword (h.separated_of_spaced hl hspaced).endsWord,
          Bool.or_eq_true, hrest]
        simp
      cases isLexeme_of_lexeme? hlex with
      | number _ => exact hleaf (.inl rfl)
      | name _ _ => exact hleaf (.inr rfl)
      | symbol hmem _ _ =>
          rw [leafTexts_cons_other (not_isLeaf_symbol hmem _), ← hrest]
          obtain ⟨c, tail, rfl, hc, htail⟩ := head_mem_symbols hmem
          rw [hasWord_symbols hword (List.forall_mem_cons.mpr ⟨hc, htail⟩)]

/-- A name occurs in an equation exactly if it occurs in a leaf of the tree. -/
theorem mentions_iff_leaves {x : Name} {rhs : String} {e : Expr α} (hx : isName x.toList = true)
    (he : Expr.parse rhs = .ok e) :
    mentions x rhs = true ↔ ∃ t ∈ e.leaves, mentions x t = true := by
  obtain ⟨body, hscans, d⟩ := parse_eq_ok.mp he
  rw [d.leaves_eq]
  exact hscans.layout.hasWord_iff (isWord_of_isName hx) d.spaced

/-- A name that has been replaced is gone. -/
lemma not_mentions_substitute {x r : Name} {rhs : String} (hx : isName x.toList = true)
    (hr : IsReplacement r.toList) (hne : r ≠ x) : mentions x (substitute x r rhs) = false := by
  rw [mentions, substitute, String.toList_ofList]
  exact hasWord_replaceWord (isWord_of_isName hx) hr.isWord fun heq => hne (String.toList_inj.mp heq)

lemma not_mentions_substitute_zero {x : Name} {rhs : String} (hx : isName x.toList = true) :
    mentions x (substitute x "0" rhs) = false := by
  refine not_mentions_substitute hx (.inr rfl) ?_
  rintro rfl
  exact absurd hx (by decide)

/-- **Putting zero for a name that occurs changes the tree**, whatever the name stands for: a number
or name of the new tree does not have it as a word. -/
theorem substitute_zero_changes {x : Name} {rhs : String} {e e' : Expr α}
    (hx : isName x.toList = true) (hmentions : mentions x rhs = true) (he : Expr.read rhs = .ok e)
    (he' : Expr.read (substitute x "0" rhs) = .ok e') : e' ≠ e := by
  rintro rfl
  rw [mentions_iff_leaves hx (Expr.read_eq_ok.mp he).1,
    ← mentions_iff_leaves hx (Expr.read_eq_ok.mp he').1, not_mentions_substitute_zero hx] at hmentions
  cases hmentions

end CausalEquations
