import CausalEquations.Proofs.Leaves
import CausalEquations.Proofs.WrittenTrees

/-!
# Replacing a name in a text and in its tree

Replacing a name as a whole word in the text of an expression is meant to replace the leaves of the
tree that are this name. It does so exactly if no number has the name as a word. A number can have
one, since the letter of an exponent may follow a point: `1.e5` contains the word `e5`.

* `Expr.replaceName` — the replacement in a tree.
* `Expr.mem_leaves_replaceName` — the leaves that stay.
* `replacedLexeme`, `Layout.replaceName` — the tokens of the new text.
* `Derives.replaceName` — the tree of these tokens.
* `parse_substitute_iff` — when text and tree agree.
-/

namespace CausalEquations

variable {α : Type}

/-! ## The replacement in a tree -/

namespace Expr

mutual

/-- Puts a leaf in the place of a name, also where it is called. -/
def replaceName (old : Name) (leaf : Expr α) : Expr α → Expr α
  | literal value raw => literal value raw
  | identifier name => if name = old then leaf else identifier name
  | unary op a => unary op (replaceName old leaf a)
  | binary op a b => binary op (replaceName old leaf a) (replaceName old leaf b)
  | choice t a b =>
    choice (replaceName old leaf t) (replaceName old leaf a) (replaceName old leaf b)
  | call f args => call (replaceName old leaf f) (replaceNameInList old leaf args)

/-- Puts a leaf in the place of a name in a list of arguments. -/
def replaceNameInList (old : Name) (leaf : Expr α) : List (Expr α) → List (Expr α)
  | [] => []
  | a :: rest => replaceName old leaf a :: replaceNameInList old leaf rest

end

variable {old : Name} {leaf : Expr α} {t : String}

mutual

/-- Every other leaf stays. -/
lemma mem_leaves_replaceName (ht : t ≠ old) : ∀ e : Expr α, t ∈ e.leaves →
    t ∈ (replaceName old leaf e).leaves
  | literal _ _, h => h
  | identifier name, h => by
      have hname : t = name := by simpa [leaves] using h
      rw [replaceName, if_neg (hname ▸ ht)]
      exact h
  | unary _ a, h => mem_leaves_replaceName ht a h
  | binary _ a b, h => by
      simp only [replaceName, leaves, List.mem_append] at h ⊢
      exact h.imp (mem_leaves_replaceName ht a) (mem_leaves_replaceName ht b)
  | choice c a b, h => by
      simp only [replaceName, leaves, List.mem_append] at h ⊢
      exact h.imp (mem_leaves_replaceName ht c)
        (Or.imp (mem_leaves_replaceName ht a) (mem_leaves_replaceName ht b))
  | call f args, h => by
      simp only [replaceName, leaves, List.mem_append] at h ⊢
      exact h.imp (mem_leaves_replaceName ht f) (mem_leaves_replaceNameInList ht args)

lemma mem_leaves_replaceNameInList (ht : t ≠ old) : ∀ es : List (Expr α), t ∈ leavesOfList es →
    t ∈ leavesOfList (replaceNameInList old leaf es)
  | [], h => h
  | a :: rest, h => by
      simp only [replaceNameInList, leavesOfList, List.mem_append] at h ⊢
      exact h.imp (mem_leaves_replaceName ht a) (mem_leaves_replaceNameInList ht rest)

end

end Expr

variable [Scalar α]

/-- The leaf that a replacement is read as: zero, or another name. -/
inductive IsLeafOf : Name → Expr α → Prop where
  | zero : IsLeafOf "0" (.ofNumeral "0")
  | name {r : Name} : isName r.toList = true → isTruth r = false → IsLeafOf r (.identifier r)

lemma IsLeafOf.isReplacement {r : Name} {leaf : Expr α} (h : IsLeafOf r leaf) :
    IsReplacement r.toList := by
  cases h with
  | zero => exact .inr rfl
  | name hr _ => exact .inl hr

/-! ## The tokens of the new text -/

/-- What becomes of a token. -/
def replacedLexeme (old r : Name) (l : Lexeme) : Lexeme :=
  if l = (.name, old) then (if isName r.toList then .name else .number, r) else l

omit [Scalar α] in
lemma replacedLexeme_of_ne {old r : Name} {l : Lexeme} (h : l.1 ≠ .name) :
    replacedLexeme old r l = l := by
  refine if_neg ?_
  rintro rfl
  exact h rfl

/-- **The new text consists of the replaced tokens** if no number has the name as a word. -/
lemma Layout.replaceName {old r : Name} (hold : isName old.toList = true)
    (hr : IsReplacement r.toList) {cs : List Char} {ls : List Lexeme} (h : Layout cs ls)
    (hspaced : Spaced ls)
    (hnumbers : ∀ l ∈ ls, l.1 = .number → hasWord old.toList l.2.toList = false) :
    Layout (replaceWord old.toList r.toList cs) (ls.map (replacedLexeme old r)) := by
  have hword := isWord_of_isName hold
  induction h with
  | nil => exact .nil
  | blank hblank _ ih =>
      rw [replaceWord_other hword (isWordChar_of_isBlank hblank)]
      exact .blank hblank (ih hspaced hnumbers)
  | @lexeme kind text cs ls hlex _ h ih =>
      obtain ⟨hnumber, hnumbers⟩ := List.forall_mem_cons.mp hnumbers
      have hrest := ih hspaced.tail hnumbers
      rw [List.map_cons]
      cases isLexeme_of_lexeme? hlex with
      | number hnumeral =>
          have hcs := h.separated_of_spaced (.inl rfl) hspaced
          have hcs' := hcs.replaceWord (r := r.toList) hold
          have hsame : hasWord old.toList text = false := by simpa using hnumber rfl
          rw [replacedLexeme_of_ne (by simp), replaceWord_append hword hcs.endsWord,
            replaceWord_of_hasWord hsame]
          exact .number (takeNumeral?_eq_some hnumeral).2 hcs'.endsNumeral hcs'.startsWord hrest
      | name _ _ =>
          have hcs := h.separated_of_spaced (.inr rfl) hspaced
          have hcs' := hcs.replaceWord (r := r.toList) hold
          have hname := isName_of_isLexeme (isLexeme_of_lexeme? hlex)
          rw [replaceWord_run hword (isWord_of_isName hname).2 hcs.endsWord]
          split
          · rename_i heq
            have hreplaced := Layout.lexeme (isReplacement_lexeme hr hcs')
              (fun _ => hcs'.startsWord) hrest
            rw [heq, String.ofList_toList, replacedLexeme, if_pos rfl]
            rwa [String.ofList_toList] at hreplaced
          · rename_i hne
            have hother : (TokenKind.name, String.ofList (_ :: _)) ≠ (.name, old) := fun heq =>
              hne (by rw [← (Prod.mk.inj heq).2, String.toList_ofList])
            rw [replacedLexeme, if_neg hother]
            exact .name hname hcs' hrest
      | symbol hmem _ hlong =>
          have hkind : kind ≠ .name := fun hkind => not_isLeaf_symbol hmem "" (.inr hkind)
          have hreplace : replaceWord old.toList r.toList (text ++ cs) =
              text ++ replaceWord old.toList r.toList cs := by
            obtain ⟨d, tail, rfl, hd, htail⟩ := head_mem_symbols hmem
            exact replaceWord_symbols hword (List.forall_mem_cons.mpr ⟨hd, htail⟩)
          rw [replacedLexeme_of_ne hkind, hreplace]
          exact .symbol hmem (fun hone => not_longOperator_replaceWord hword hr hone (hlong hone))
            hrest

/-! ## The tree of the new tokens -/

section

variable {old r : Name} {leaf : Expr α}

/-- The tokens `us` are the tokens `ts` after the replacement, wherever they stand. -/
def Replaced (old r : Name) (ts us : List Token) : Prop :=
  us.map Token.lexeme = (ts.map Token.lexeme).map (replacedLexeme old r)

omit [Scalar α] in
lemma Replaced.nil {us : List Token} (h : Replaced old r [] us) : us = [] :=
  List.map_eq_nil_iff.mp h

omit [Scalar α] in
lemma Replaced.cons {ts us : List Token} {t : Token} (h : Replaced old r (t :: ts) us) :
    ∃ t' us', us = t' :: us' ∧ t'.lexeme = replacedLexeme old r t.lexeme ∧
      Replaced old r ts us' :=
  let ⟨t', us', heq, ht', hus'⟩ := List.map_eq_cons_iff.mp h
  ⟨t', us', heq, ht', hus'⟩

omit [Scalar α] in
/-- A token that is no name stays. -/
lemma Replaced.other {ts us : List Token} {t : Token} (ht : t.kind ≠ .name)
    (h : Replaced old r (t :: ts) us) :
    ∃ t' us', us = t' :: us' ∧ t'.lexeme = t.lexeme ∧ Replaced old r ts us' := by
  obtain ⟨t', us', rfl, ht', hus'⟩ := h.cons
  rw [replacedLexeme_of_ne ht] at ht'
  exact ⟨t', us', rfl, ht', hus'⟩

omit [Scalar α] in
/-- So does an operator or a mark between two phrases. -/
lemma Replaced.join {ts ts' us : List Token} {t : Token} (ht : t.kind ≠ .name)
    (h : Replaced old r (ts ++ t :: ts') us) : ∃ us₁ t' us₂, us = us₁ ++ t' :: us₂ ∧
      Replaced old r ts us₁ ∧ t'.lexeme = t.lexeme ∧ Replaced old r ts' us₂ := by
  rw [Replaced, List.map_append, List.map_append] at h
  obtain ⟨us₁, rest, rfl, hus₁, hrest⟩ := List.map_eq_append_iff.mp h
  obtain ⟨t', us₂, rfl, ht', hus₂⟩ := Replaced.other ht hrest
  exact ⟨us₁, t', us₂, rfl, hus₁, ht', hus₂⟩

omit [Scalar α] in
lemma Token.IsMark.congr {t t' : Token} {mark : String} (h : t.IsMark mark)
    (heq : t'.lexeme = t.lexeme) : t'.IsMark mark :=
  ⟨(congrArg Prod.fst heq).trans h.1, (congrArg Prod.snd heq).trans h.2⟩

omit [Scalar α] in
lemma Token.IsBinary.congr {table : List (String × Int)} {t t' : Token} {s : Int}
    (h : t.IsBinary table s) (heq : t'.lexeme = t.lexeme) : t'.IsBinary table s :=
  ⟨(congrArg Prod.fst heq).trans h.1,
    (congrArg (fun l : Lexeme => strength? table l.2) heq).trans h.2⟩

omit [Scalar α] in
lemma Token.IsUnary.congr {t t' : Token} (h : t.IsUnary) (heq : t'.lexeme = t.lexeme) :
    t'.IsUnary :=
  ⟨(congrArg Prod.fst heq).trans h.1,
    (congrArg (fun l : Lexeme => (UnaryOp.ofSymbol? l.2).isSome) heq).trans h.2⟩

lemma replaceName_ofName (htruth : isTruth old = false) (x : Name) :
    (Expr.replaceName old leaf (.ofName x) : Expr α) = if x = old then leaf else .ofName x := by
  simp only [isTruth, Bool.or_eq_false_iff, beq_eq_false_iff_ne] at htruth
  unfold Expr.ofName
  split
  · rename_i htrue
    rw [if_neg (htrue ▸ Ne.symm htruth.1), Expr.replaceName]
  · split
    · rename_i hfalse
      rw [if_neg (hfalse ▸ Ne.symm htruth.2), Expr.replaceName]
    · rw [Expr.replaceName]

/-- The token in the place of the name is the leaf. -/
lemma IsLeafOf.derives (h : IsLeafOf r leaf) {t : Token}
    (hkind : t.kind = if isName r.toList then .name else .number) (htext : t.text = r) :
    Derives precedence .primary [t] leaf := by
  cases h with
  | zero =>
      have hnumber : Derives (α := α) precedence .primary [t] _ := .number hkind
      rwa [htext] at hnumber
  | name hr htruth =>
      rw [if_pos hr] at hkind
      have hname : Derives (α := α) precedence .primary [t] _ := .name hkind
      simp only [isTruth, Bool.or_eq_false_iff, beq_eq_false_iff_ne] at htruth
      rwa [htext, Expr.ofName, if_neg htruth.1, if_neg htruth.2] at hname

/-- A name is still one, unless it gives way to the leaf. -/
lemma Replaced.derives_name (htruth : isTruth old = false) (hleaf : IsLeafOf r leaf) {t : Token}
    {us : List Token} (ht : t.kind = .name) (h : Replaced old r [t] us) :
    Derives precedence .primary us (Expr.replaceName old leaf (.ofName t.text)) := by
  obtain ⟨t', us', rfl, hlexeme, hus'⟩ := h.cons
  obtain rfl := hus'.nil
  rw [replaceName_ofName htruth]
  split
  · rename_i heq
    rw [replacedLexeme, if_pos (Prod.ext ht heq)] at hlexeme
    exact hleaf.derives (congrArg Prod.fst hlexeme) (congrArg Prod.snd hlexeme)
  · rename_i hne
    rw [replacedLexeme, if_neg fun heq => hne (congrArg Prod.snd heq)] at hlexeme
    have htext : t'.text = t.text := congrArg Prod.snd hlexeme
    rw [← htext]
    exact .name ((congrArg Prod.fst hlexeme).trans ht)

mutual

/-- **The replaced tokens have the replaced tree.** -/
lemma Derives.replaceName (htruth : isTruth old = false) (hleaf : IsLeafOf r leaf)
    {phrase : Phrase} {ts us : List Token} {e : Expr α} :
    Derives precedence phrase ts e → Replaced old r ts us →
      Derives precedence phrase us (Expr.replaceName old leaf e)
  | .choice htest hq ha hc hb, h => by
      obtain ⟨us₁, q', rest, rfl, hus₁, hq', hrest⟩ := h.join hq.ne_name
      obtain ⟨us₂, c', us₃, rfl, hus₂, hc', hus₃⟩ := hrest.join hc.ne_name
      exact .choice (htest.replaceName htruth hleaf hus₁) (hq.congr hq')
        (ha.replaceName htruth hleaf hus₂) (hc.congr hc') (hb.replaceName htruth hleaf hus₃)
  | .ofBinary d, h => .ofBinary (d.replaceName htruth hleaf h)
  | .binary hl ht hs hr, h => by
      obtain ⟨us₁, t', us₂, rfl, hus₁, ht', hus₂⟩ := h.join ht.ne_name
      obtain ⟨-, htext⟩ := Prod.mk.inj ht'
      rw [Expr.replaceName, ← htext]
      exact .binary (hl.replaceName htruth hleaf hus₁) (ht.congr ht') hs
        (hr.replaceName htruth hleaf hus₂)
  | .ofOperand d, h => .ofOperand (d.replaceName htruth hleaf h)
  | .unary ht d, h => by
      obtain ⟨t', us', rfl, ht', hus'⟩ := h.other ht.ne_name
      obtain ⟨-, htext⟩ := Prod.mk.inj ht'
      rw [Expr.replaceName, ← htext]
      exact .unary (ht.congr ht') (d.replaceName htruth hleaf hus')
  | .ofApplied d, h => .ofApplied (d.replaceName htruth hleaf h)
  | .call hf ho hargs hc, h => by
      obtain ⟨us₁, o', rest, rfl, hus₁, ho', hrest⟩ := h.join ho.ne_name
      obtain ⟨us₂, c', us₃, rfl, hus₂, hc', hus₃⟩ := hrest.join hc.ne_name
      obtain rfl := hus₃.nil
      exact .call (hf.replaceName htruth hleaf hus₁) (ho.congr ho')
        (hargs.replaceName htruth hleaf hus₂) (hc.congr hc')
  | .callEmpty hf ho hc, h => by
      obtain ⟨us₁, o', rest, rfl, hus₁, ho', hrest⟩ := h.join ho.ne_name
      obtain ⟨c', us₂, rfl, hc', hus₂⟩ := hrest.other hc.ne_name
      obtain rfl := hus₂.nil
      exact .callEmpty (hf.replaceName htruth hleaf hus₁) (ho.congr ho') (hc.congr hc')
  | .ofPrimary d, h => .ofPrimary (d.replaceName htruth hleaf h)
  | .number ht, h => by
      obtain ⟨t', us', rfl, ht', hus'⟩ := h.other (by simp [ht])
      obtain rfl := hus'.nil
      obtain ⟨hkind, htext⟩ := Prod.mk.inj ht'
      rw [Expr.replaceName, ← htext]
      exact .number (hkind.trans ht)
  | .name ht, h => h.derives_name htruth hleaf ht
  | .group ho d hc, h => by
      obtain ⟨o', rest, rfl, ho', hrest⟩ := h.other ho.ne_name
      obtain ⟨us₁, c', us₂, rfl, hus₁, hc', hus₂⟩ := hrest.join hc.ne_name
      obtain rfl := hus₂.nil
      exact .group (ho.congr ho') (d.replaceName htruth hleaf hus₁) (hc.congr hc')

lemma DerivesArguments.replaceName (htruth : isTruth old = false) (hleaf : IsLeafOf r leaf)
    {ts us : List Token} {es : List (Expr α)} :
    DerivesArguments precedence ts es → Replaced old r ts us →
      DerivesArguments precedence us (Expr.replaceNameInList old leaf es)
  | .last d, h => .last (d.replaceName htruth hleaf h)
  | .more d ht hrest, h => by
      obtain ⟨us₁, t', us₂, rfl, hus₁, ht', hus₂⟩ := h.join ht.ne_name
      exact .more (d.replaceName htruth hleaf hus₁) (ht.congr ht')
        (hrest.replaceName htruth hleaf hus₂)

end

end

/-! ## Text and tree -/

section

variable {rhs : String} {e : Expr α}

omit [Scalar α] in
/-- No numeral is a name. -/
lemma IsNumeral.not_isName {n : List Char} (h : IsNumeral n) : isName n = false := by
  obtain ⟨c, rest, rfl, hc⟩ := h.head
  have hstart : isNameStart c = false := by
    rcases hc with hc | rfl
    · exact isNameStart_of_isDigit hc
    · decide
  simp [isName, hstart]

/-- **Text and tree agree exactly if no number has the name as a word**: then the text in which the
name has been replaced is read as the tree in which it has been replaced. -/
theorem parse_substitute_iff {old r : Name} {leaf : Expr α} (he : Expr.parse rhs = .ok e)
    (hold : isName old.toList = true) (htruth : isTruth old = false) (hleaf : IsLeafOf r leaf)
    (hne : r ≠ old) :
    Expr.parse (substitute old r rhs) = .ok (Expr.replaceName old leaf e) ↔
      ∀ t ∈ e.leaves, mentions old t = true → t = old := by
  have hr := hleaf.isReplacement
  obtain ⟨body, hscans, d⟩ := parse_eq_ok.mp he
  constructor
  · -- a leaf that stays with the name in it would be in the new text
    intro hparse t ht hmentions
    by_contra hother
    have hnew := (mentions_iff_leaves hold hparse).mpr
      ⟨t, Expr.mem_leaves_replaceName hother e ht, hmentions⟩
    rw [not_mentions_substitute hold hr hne] at hnew
    cases hnew
  · intro hleaves
    have hnumbers : ∀ l ∈ body.map Token.lexeme, l.1 = .number →
        hasWord old.toList l.2.toList = false := by
      intro l hl hkind
      rw [← Bool.not_eq_true]
      intro hmentions
      have hmem : l.2 ∈ e.leaves := by
        rw [d.leaves_eq]
        exact List.mem_filterMap.mpr ⟨l, hl, if_pos (.inl hkind)⟩
      have hnumeral := hscans.layout.isNumeral_of_mem l hl hkind
      rw [hleaves _ hmem hmentions] at hnumeral
      rw [hnumeral.not_isName] at hold
      cases hold
    have hlayout := hscans.layout.replaceName hold hr d.spaced hnumbers
    have htext : replaceWord old.toList r.toList rhs.toList = (substitute old r rhs).toList := by
      rw [substitute, String.toList_ofList]
    rw [htext] at hlayout
    obtain ⟨body', hscans', hreplaced⟩ := hlayout.exists_scans
    exact parse_eq_ok.mpr ⟨body', hscans', d.replaceName htruth hleaf hreplaced⟩

/-- The exponent of `2e5` has no point in front of it, and `X2` is another word. -/
theorem parse_substitute_iff_whole :
    ∃ e : Expr Rat, Expr.parse "2e5*X2 - sin(e5)/e5" = .ok e ∧
      substitute "e5" "0" "2e5*X2 - sin(e5)/e5" = "2e5*X2 - sin(0)/0" ∧
      Expr.parse "2e5*X2 - sin(0)/0" = .ok (Expr.replaceName "e5" (.ofNumeral "0") e) ∧
      substitute "e5" "foo" "2e5*X2 - sin(e5)/e5" = "2e5*X2 - sin(foo)/foo" ∧
      Expr.parse "2e5*X2 - sin(foo)/foo" =
        .ok (Expr.replaceName "e5" (.identifier "foo") e) := by
  obtain ⟨e, he, hleaves⟩ := exists_of_toOption_map (show
    (Expr.parse "2e5*X2 - sin(e5)/e5" : Except SyntaxError (Expr Rat)).toOption.map Expr.leaves =
      some ["2e5", "X2", "sin", "e5", "e5"] by decide +kernel)
  have hzero : substitute "e5" "0" "2e5*X2 - sin(e5)/e5" = "2e5*X2 - sin(0)/0" := by decide +kernel
  have hfoo : substitute "e5" "foo" "2e5*X2 - sin(e5)/e5" = "2e5*X2 - sin(foo)/foo" := by
    decide +kernel
  have hwhole : ∀ t ∈ e.leaves, mentions "e5" t = true → t = "e5" := by
    rw [hleaves]
    decide +kernel
  have hname : isName "e5".toList = true := by decide +kernel
  have hleaf : IsLeafOf "foo" (.identifier "foo" : Expr Rat) :=
    .name (by decide +kernel) (by decide +kernel)
  refine ⟨e, he, hzero, ?_, hfoo, ?_⟩
  · rw [← hzero]
    exact (parse_substitute_iff he hname (by decide) .zero (by decide)).mpr hwhole
  · rw [← hfoo]
    exact (parse_substitute_iff he hname (by decide) hleaf (by decide)).mpr hwhole

/-- Behind a point the exponent is a word: the number changes, or the text is lost. -/
theorem substitute_breaks_number :
    ∃ e : Expr Rat, Expr.parse "1.e5*sin(e5)" = .ok e ∧ "e5" ∈ e.identifiers ∧
      isReserved "e5" = false ∧ substitute "e5" "0" "1.e5*sin(e5)" = "1.0*sin(0)" ∧
      Expr.parse "1.0*sin(0)" ≠ .ok (Expr.replaceName "e5" (.ofNumeral "0") e) ∧
      substitute "e5" "foo" "1.e5*sin(e5)" = "1.foo*sin(foo)" ∧
      ∀ e' : Expr Rat, Expr.parse "1.foo*sin(foo)" ≠ .ok e' := by
  obtain ⟨e, he, hviews⟩ := exists_of_toOption_map (show
    (Expr.parse "1.e5*sin(e5)" : Except SyntaxError (Expr Rat)).toOption.map
      (fun e => (e.identifiers, (Expr.replaceName "e5" (.ofNumeral "0") e).leaves)) =
        some (["e5"], ["1.e5", "sin", "0"]) by decide +kernel)
  obtain ⟨hnames, hleaves⟩ := Prod.mk.inj hviews
  have hnew : (Expr.parse "1.0*sin(0)" : Except SyntaxError (Expr Rat)).toOption.map Expr.leaves =
      some ["1.0", "sin", "0"] := by decide +kernel
  have hlost : (Expr.parse "1.foo*sin(foo)" : Except SyntaxError (Expr Rat)).toOption.map
      Expr.leaves = none := by decide +kernel
  refine ⟨e, he, by simp [hnames], by decide +kernel, by decide +kernel, fun hparse => ?_,
    by decide +kernel, fun e' hparse => ?_⟩
  · rw [hparse] at hnew
    have hsame := hleaves.symm.trans (Option.some.inj hnew)
    exact absurd hsame (by decide)
  · rw [hparse] at hlost
    cases hlost

end

end CausalEquations
