import CausalEquations.Proofs.WrittenForms

/-!
# The tree of a written affine form

An affine form is written as a sum of pieces with a sign each. The text is read as the sum of their
trees, grouped to the left, with one peculiarity: a minus sign at the front belongs to the number or
the name that follows it, so that a negative product starts with a negated number.

* `Piece`, `Piece.tree` — a number, a name or their product, as text, as tokens and as a tree.
* `sumTree`, `read_joinPieces` — what a sum of pieces is read as.
* `Affine.tree`, `Affine.read_render` — what a written affine form is read as.
* `Affine.dependencies_tree` — it reads the variables of the terms that are written.
-/

namespace CausalEquations

/-! ## Pieces -/

/-- A piece of a sum. -/
inductive Piece where
  | number (numeral : String)
  | name (x : Name)
  | product (numeral : String) (x : Name)

namespace Piece

def text : Piece → String
  | number numeral => numeral
  | name x => x
  | product numeral x => numeral ++ "*" ++ x

def lexemes : Piece → List Lexeme
  | number numeral => [(.number, numeral)]
  | name x => [(.name, x)]
  | product numeral x => [(.number, numeral), (.op, "*"), (.name, x)]

def names : Piece → List Name
  | number _ => []
  | name x => [x]
  | product _ x => [x]

/-- The parts of the piece have the form of numbers and names. -/
def WellFormed : Piece → Prop
  | number numeral => IsNumeral numeral.toList
  | name x => isName x.toList = true
  | product numeral x => IsNumeral numeral.toList ∧ isName x.toList = true

lemma layout {p : Piece} {cs : List Char} {ls : List Lexeme} (hp : p.WellFormed)
    (hcs : Separated cs) (h : Layout cs ls) : Layout (p.text.toList ++ cs) (p.lexemes ++ ls) := by
  cases p with
  | number numeral =>
      have hlayout := Layout.number hp hcs.endsNumeral hcs.startsWord h
      rwa [String.ofList_toList] at hlayout
  | name x =>
      have hlayout := Layout.name hp hcs h
      rwa [String.ofList_toList] at hlayout
  | product numeral x =>
      have hlayout := Layout.product hp.1 hp.2 hcs h
      rw [String.ofList_toList, String.ofList_toList] at hlayout
      simpa [text, lexemes] using hlayout

end Piece

variable {α : Type} [Scalar α]

/-- A number as it is written. -/
def Expr.ofNumeral (numeral : String) : Expr α := .literal (readNumeral numeral.toList) numeral

/-- An operand with a minus sign in front of it, or without. -/
def Expr.signed (negative : Bool) (e : Expr α) : Expr α := if negative then .unary "-" e else e

/-- The token of a minus sign, if there is one. -/
def signLexemes (negative : Bool) : List Lexeme := if negative then [(.op, "-")] else []

/-- The tree of a piece. A minus sign binds more tightly than a product. -/
def Piece.tree (negative : Bool) : Piece → Expr α
  | number numeral => .signed negative (.ofNumeral numeral)
  | name x => .signed negative (.ofName x)
  | product numeral x => .binary "*" (.signed negative (.ofNumeral numeral)) (.ofName x)

/-! ### Deriving pieces -/

lemma token_of_map {ts : List Token} {kind : TokenKind} {text : String} {ls : List Lexeme}
    (h : ts.map Token.lexeme = (kind, text) :: ls) :
    ∃ t rest, ts = t :: rest ∧ t.kind = kind ∧ t.text = text ∧ rest.map Token.lexeme = ls := by
  obtain ⟨t, rest, rfl, ht, hrest⟩ := List.map_eq_cons_iff.mp h
  exact ⟨t, rest, rfl, congrArg Prod.fst ht, congrArg Prod.snd ht, hrest⟩

lemma derives_number {t : Token} {numeral : String} (hkind : t.kind = .number)
    (htext : t.text = numeral) : Derives (α := α) precedence .operand [t] (.ofNumeral numeral) := by
  subst htext
  exact .ofApplied (.ofPrimary (.number hkind))

lemma derives_name {t : Token} {x : Name} (hkind : t.kind = .name) (htext : t.text = x) :
    Derives (α := α) precedence .operand [t] (.ofName x) := by
  subst htext
  exact .ofApplied (.ofPrimary (.name hkind))

lemma derives_signed {negative : Bool} {ts us : List Token} {e : Expr α}
    (hus : us.map Token.lexeme = signLexemes negative) (h : Derives precedence .operand ts e) :
    Derives precedence .operand (us ++ ts) (.signed negative e) := by
  cases negative with
  | false =>
      obtain rfl := List.map_eq_nil_iff.mp hus
      exact h
  | true =>
      obtain ⟨t, rest, rfl, hkind, htext, hrest⟩ := token_of_map hus
      obtain rfl := List.map_eq_nil_iff.mp hrest
      have hunary : t.IsUnary := ⟨hkind, by rw [htext]; decide⟩
      simpa [Expr.signed, htext] using Derives.unary hunary h

lemma Piece.derives {p : Piece} {negative : Bool} {ts us : List Token}
    (hus : us.map Token.lexeme = signLexemes negative) (hts : ts.map Token.lexeme = p.lexemes) :
    Derives (α := α) precedence (.binary 10) (us ++ ts) (p.tree negative) := by
  cases p with
  | number numeral =>
      obtain ⟨t, rest, rfl, hkind, htext, hrest⟩ := token_of_map hts
      obtain rfl := List.map_eq_nil_iff.mp hrest
      exact .ofOperand (derives_signed hus (derives_number hkind htext))
  | name x =>
      obtain ⟨t, rest, rfl, hkind, htext, hrest⟩ := token_of_map hts
      obtain rfl := List.map_eq_nil_iff.mp hrest
      exact .ofOperand (derives_signed hus (derives_name hkind htext))
  | product numeral x =>
      obtain ⟨n, rest, rfl, hkind, htext, hrest⟩ := token_of_map hts
      obtain ⟨times, rest, rfl, htimes, htimes', hrest⟩ := token_of_map hrest
      obtain ⟨t, rest, rfl, hkind', htext', hrest⟩ := token_of_map hrest
      obtain rfl := List.map_eq_nil_iff.mp hrest
      have hbinary : times.IsBinary precedence 10 := ⟨htimes, by rw [htimes']; decide⟩
      have hproduct : Derives (α := α) precedence (.binary 10) _ _ :=
        .binary (.ofOperand (derives_signed hus (derives_number hkind htext))) hbinary le_rfl
          (.ofOperand (derives_name hkind' htext'))
      simpa [Piece.tree, htimes'] using hproduct

/-! ## Sums -/

/-- The sign between two pieces. -/
def signText (negative : Bool) : String := if negative then "-" else "+"

/-- The tree of a sum that starts with `e` and goes on with these pieces. -/
def sumTree (e : Expr α) (ps : List (Bool × Piece)) : Expr α :=
  ps.foldl (fun e p => .binary (signText p.1) e (p.2.tree false)) e

/-- The tree of a sum of pieces; without any it is zero. -/
def joinedTree : List (Bool × Piece) → Expr α
  | [] => .ofNumeral "0"
  | p :: rest => sumTree (p.2.tree p.1) rest

/-- The tokens of a sum behind its first piece. -/
def tailLexemes (ps : List (Bool × Piece)) : List Lexeme :=
  ps.flatMap fun p => (.op, signText p.1) :: p.2.lexemes

lemma derives_sumTree {ps : List (Bool × Piece)} {ts us : List Token} {e : Expr α}
    (h : Derives precedence (.binary 9) ts e) (hus : us.map Token.lexeme = tailLexemes ps) :
    Derives precedence (.binary 9) (ts ++ us) (sumTree e ps) := by
  induction ps generalizing ts us e with
  | nil =>
      obtain rfl := List.map_eq_nil_iff.mp hus
      simpa [sumTree] using h
  | cons p rest ih =>
      obtain ⟨sign, us, rfl, hkind, htext, hus⟩ := token_of_map hus
      obtain ⟨vs, ws, rfl, hvs, hws⟩ := List.map_eq_append_iff.mp hus
      have hbinary : sign.IsBinary precedence 9 :=
        ⟨hkind, by rw [htext]; cases p.1 <;> decide⟩
      have hpiece : Derives precedence (.binary 10) vs (p.2.tree false : Expr α) :=
        Piece.derives (show [].map Token.lexeme = signLexemes false from rfl) hvs
      have hsum := ih (.binary h hbinary le_rfl hpiece) hws
      rw [htext] at hsum
      simpa [sumTree] using hsum

/-! ### The text of a sum -/

/-- The pieces as texts. -/
def pieceTexts (ps : List (Bool × Piece)) : List (Bool × String) := ps.map fun p => (p.1, p.2.text)

lemma separated_sumTail (ps : List (Bool × String)) : Separated (sumTail ps) := by
  cases ps with
  | nil => simp [sumTail, Separated]
  | cons p rest =>
      intro c hc
      obtain rfl : ' ' = c := by simpa [sumTail] using hc
      exact .inl (by decide)

lemma layout_sumTail {ps : List (Bool × Piece)} (h : ∀ p ∈ ps, p.2.WellFormed) :
    Layout (sumTail (pieceTexts ps)) (tailLexemes ps) := by
  induction ps with
  | nil => exact .nil
  | cons p rest ih =>
      obtain ⟨hp, hrest⟩ := List.forall_mem_cons.mp h
      have hspace : isBlank ' ' = true := by decide
      have hsign : (if p.1 then '-' else '+') = '+' ∨ (if p.1 then '-' else '+') = '-' := by
        split <;> simp
      have htail := Piece.layout hp (separated_sumTail _) (ih hrest)
      have hlayout := Layout.blank hspace (.sign hsign (.blank hspace htail))
      have htext : String.ofList [if p.1 then '-' else '+'] = signText p.1 := by
        cases p.1 <;> rfl
      rw [htext] at hlayout
      exact hlayout

lemma layout_joinPieces {p : Bool × Piece} {rest : List (Bool × Piece)} (hp : p.2.WellFormed)
    (hrest : ∀ q ∈ rest, q.2.WellFormed) :
    Layout (Affine.joinPieces (pieceTexts (p :: rest))).toList
      (signLexemes p.1 ++ (p.2.lexemes ++ tailLexemes rest)) := by
  have hlayout := Piece.layout hp (separated_sumTail _) (layout_sumTail hrest)
  rw [pieceTexts, List.map_cons, toList_joinPieces]
  cases hsign : p.1 with
  | false => exact hlayout
  | true => exact Layout.sign (.inr rfl) hlayout

/-! ### The names of a sum -/

lemma ofName_names (x : Name) : (Expr.ofName x : Expr α).callees = [] ∧
    (Expr.ofName x : Expr α).identifiers = [x].filter fun x => !isTruth x := by
  unfold Expr.ofName
  split
  · simp_all [Expr.callees, Expr.identifiers, isTruth]
  · split
    · simp_all [Expr.callees, Expr.identifiers, isTruth]
    · simp_all [Expr.callees, Expr.identifiers, isTruth]

omit [Scalar α] in
lemma signed_names (negative : Bool) (e : Expr α) : (e.signed negative).callees = e.callees ∧
    (e.signed negative).identifiers = e.identifiers := by
  cases negative <;> exact ⟨rfl, rfl⟩

lemma Piece.tree_names (negative : Bool) (p : Piece) : (p.tree negative : Expr α).callees = [] ∧
    (p.tree negative : Expr α).identifiers = p.names.filter fun x => !isTruth x := by
  cases p with
  | number numeral => exact signed_names negative _
  | name x =>
      obtain ⟨hcallees, hidentifiers⟩ := signed_names negative (.ofName x : Expr α)
      exact ⟨hcallees.trans (ofName_names x).1, hidentifiers.trans (ofName_names x).2⟩
  | product numeral x =>
      simp [Piece.tree, Expr.callees, Expr.identifiers, signed_names, ofName_names, Piece.names,
        Expr.ofNumeral]

lemma sumTree_names (e : Expr α) (ps : List (Bool × Piece)) :
    (sumTree e ps).callees = e.callees ∧ (sumTree e ps).identifiers =
      e.identifiers ++ (ps.flatMap fun p => p.2.names).filter fun x => !isTruth x := by
  induction ps generalizing e with
  | nil => simp [sumTree]
  | cons p rest ih =>
      obtain ⟨hcallees, hidentifiers⟩ := ih (.binary (signText p.1) e (p.2.tree false))
      refine ⟨hcallees.trans ?_, hidentifiers.trans ?_⟩
      · simp [Expr.callees, Piece.tree_names]
      · simp [Expr.identifiers, Piece.tree_names]

/-- A sum calls nothing and mentions the names of its pieces, except for truth values. -/
lemma joinedTree_names (ps : List (Bool × Piece)) : (joinedTree ps : Expr α).callees = [] ∧
    (joinedTree ps : Expr α).identifiers =
      (ps.flatMap fun p => p.2.names).filter fun x => !isTruth x := by
  cases ps with
  | nil => exact ⟨rfl, rfl⟩
  | cons p rest =>
      obtain ⟨hcallees, hidentifiers⟩ := sumTree_names (p.2.tree p.1 : Expr α) rest
      refine ⟨hcallees.trans (Piece.tree_names p.1 p.2).1, hidentifiers.trans ?_⟩
      simp [Piece.tree_names]

/-- **What a sum of pieces is read as.** -/
theorem read_joinPieces {ps : List (Bool × Piece)} (h : ∀ p ∈ ps, p.2.WellFormed) :
    Expr.read (Affine.joinPieces (pieceTexts ps)) = .ok (joinedTree ps : Expr α) := by
  -- without pieces a zero is written, as for the one piece `0`
  wlog hps : ps ≠ [] generalizing ps with hwlog
  · obtain rfl := not_ne_iff.mp hps
    have hzero : (Piece.number "0").WellFormed := isNumeral_magnitudeText 0 0
    exact @hwlog [(false, .number "0")] (by simpa using hzero) (by simp)
  obtain ⟨p, rest, rfl⟩ := List.exists_cons_of_ne_nil hps
  obtain ⟨hp, hrest⟩ := List.forall_mem_cons.mp h
  obtain ⟨body, hscans, hbody⟩ := (layout_joinPieces hp hrest).exists_scans
  obtain ⟨us, vs, rfl, hus, hvs⟩ := List.map_eq_append_iff.mp hbody
  obtain ⟨ts, ws, rfl, hts, hws⟩ := List.map_eq_append_iff.mp hvs
  have hfirst : Derives precedence (.binary 9) (us ++ ts) (p.2.tree p.1 : Expr α) :=
    (Piece.derives hus hts).weaken (by decide)
  have hsum : Derives precedence (.binary 1) (us ++ ts ++ ws) (joinedTree (p :: rest) : Expr α) :=
    (derives_sumTree hfirst hws).weaken (by decide)
  rw [List.append_assoc] at hsum
  refine read_eq_ok.mpr ⟨_, hscans, .ofBinary hsum, ?_⟩
  simp [Expr.CallsOnly, joinedTree_names]

/-! ## Affine forms -/

namespace Affine

/-- The term of a variable without its sign, as a piece. -/
def termPiece (name : Name) (value : α) : Piece :=
  if Rat.abs (Scalar.toRat value) = 1 then .name name else .product (formatMagnitude value) name

/-- The pieces that are written. -/
def signedPieces (a : Affine α) : List (Bool × Piece) :=
  a.order.map (fun name =>
    (Rat.blt (Scalar.toRat (a.coefficient name)) 0, termPiece name (a.coefficient name))) ++
  if negligible a.constant then []
  else [(Rat.blt (Scalar.toRat a.constant) 0, .number (formatMagnitude a.constant))]

/-- The tree of the written form. -/
def tree (a : Affine α) : Expr α := joinedTree a.normalize.signedPieces

lemma pieces_eq (a : Affine α) : a.pieces = pieceTexts a.signedPieces := by
  have hterm : ∀ name value, termText name value = (termPiece name (value : α)).text := by
    intro name value
    unfold termText termPiece
    split <;> rfl
  unfold pieces pieceTexts signedPieces
  simp only [List.map_append, List.map_map, Function.comp_def, hterm]
  split <;> rfl

@[simp] lemma names_termPiece (name : Name) (value : α) : (termPiece name value).names = [name] := by
  unfold termPiece
  split <;> rfl

lemma names_signedPieces (a : Affine α) :
    (a.signedPieces.flatMap fun p => p.2.names) = a.order := by
  unfold signedPieces
  rw [List.flatMap_append, List.flatMap_map]
  simp only [names_termPiece, List.flatMap_singleton']
  split <;> simp [Piece.names]

lemma wellFormed_signedPieces {a : Affine α} (h : ∀ x ∈ a.order, isName x.toList = true) :
    ∀ p ∈ a.signedPieces, p.2.WellFormed := by
  intro p hp
  rcases List.mem_append.mp hp with hp | hp
  · obtain ⟨name, hname, rfl⟩ := List.mem_map.mp hp
    show (termPiece name (a.coefficient name)).WellFormed
    unfold termPiece
    split
    · exact h name hname
    · exact ⟨isNumeral_formatMagnitude _, h name hname⟩
  · split at hp
    · cases hp
    · rw [List.mem_singleton.mp hp]
      exact isNumeral_formatMagnitude _

/-- **What a written affine form is read as.** -/
theorem read_render {a : Affine α} (h : ∀ x ∈ a.order, isName x.toList = true) :
    Expr.read a.render = .ok a.tree := by
  rw [render, pieces_eq]
  exact read_joinPieces (wellFormed_signedPieces fun x hx => h x (List.mem_filter.mp hx).1)

/-- The written form reads the variables whose terms are written. -/
theorem dependencies_tree (a : Affine α) :
    a.tree.dependencies = (a.normalize.order.filter isVariable).eraseDups := by
  rw [Expr.dependencies, tree, (joinedTree_names _).2, names_signedPieces, List.filter_filter]
  rfl

end Affine

end CausalEquations
