import CausalEquations.Proofs.ReadVariables
import CausalEquations.Proofs.WrittenNumbers

/-!
# Affine forms written and read back

In the rationals, the text of an affine form is read as the affine form with rounded numbers. Every
name stands in the text once, in the order of the terms, also where its coefficient is rounded to
zero; reducing the text then leaves the names whose coefficient is not.

* `Affine.Consists`, `Affine.Consists.combine` — what an affine form consists of.
* `termsOf`, `constantOf`, `reducesTo_joinedTree` — what the pieces of a sum contribute to it.
* `Affine.termsOf_signedPieces` — the terms that are written are the rounded ones.
* `Affine.parse_render` — an affine equation that is written and read back is the rounded one.
-/

namespace CausalEquations

/-! ## What an affine form consists of -/

namespace Affine

/-- The affine form has these terms, in this order, and this constant. -/
structure Consists (a : Affine ℚ) (l : List (Name × ℚ)) (constant : ℚ) : Prop where
  entries_eq : a.terms.entries = l
  order_eq : a.order = l.map Prod.fst
  constant_eq : a.constant = constant

variable {a b : Affine ℚ} {l l' : List (Name × ℚ)} {k k' : ℚ}

lemma consists_ofConstant (k : ℚ) : (ofConstant k).Consists [] k := ⟨rfl, rfl, rfl⟩

lemma consists_ofVariable (x : Name) : (ofVariable x : Affine ℚ).Consists [(x, 1)] 0 :=
  ⟨rfl, rfl, rfl⟩

namespace Consists

lemma scale? (h : a.Consists l k) (factor : ℚ) :
    ∃ b, a.scale? factor = some b ∧
      b.Consists (l.map fun e => (e.1, e.2 * factor)) (k * factor) := by
  obtain ⟨rfl, horder, rfl⟩ := h
  refine ⟨_, rfl, rfl, ?_, rfl⟩
  rw [List.map_map]
  exact horder

/-- Terms with new names go behind those that are there. -/
lemma foldl_combineStep (op : ℚ → ℚ → ℚ) {s : Table ℚ × List Name} (hterms : s.1.entries = l)
    (horder : s.2 = l.map Prod.fst) (hnodup : ((l ++ l').map Prod.fst).Nodup) :
    (l'.foldl (combineStep op) s).1.entries = l ++ l'.map (fun e => (e.1, op 0 e.2)) ∧
      (l'.foldl (combineStep op) s).2 = (l ++ l'.map fun e => (e.1, op 0 e.2)).map Prod.fst := by
  induction l' generalizing s l with
  | nil => simpa using ⟨hterms, horder⟩
  | cons e rest ih =>
      have hnew : e.1 ∉ s.1.keys := by
        rw [List.map_append, List.nodup_append] at hnodup
        rw [Table.keys, hterms]
        exact fun hmem => hnodup.2.2 _ hmem e.1 (by simp) rfl
      have hvalue : s.1.getD e.1 Scalar.zero = 0 := by
        rw [Table.getD, Table.get?_eq_none_iff.mpr hnew]
        rfl
      have hcontains : s.1.contains e.1 = false := by
        rw [← Bool.not_eq_true, Table.contains_iff_mem_keys]
        exact hnew
      have hstep : (combineStep op s e).1.entries = l ++ [(e.1, op 0 e.2)] := by
        rw [← hterms, combineStep, hvalue]
        exact Table.put_of_not_mem _ hnew
      have hstep' : (combineStep op s e).2 = (l ++ [(e.1, op 0 e.2)]).map Prod.fst := by
        simp [combineStep, extendOrder, hcontains, horder]
      have hrest := ih hstep hstep' (by simpa using hnodup)
      simpa using hrest

lemma combine (op : ℚ → ℚ → ℚ) (ha : a.Consists l k) (hb : b.Consists l' k')
    (hnodup : ((l ++ l').map Prod.fst).Nodup) :
    (combine op a b).Consists (l ++ l'.map fun e => (e.1, op 0 e.2)) (op k k') := by
  obtain ⟨rfl, -, rfl⟩ := hb
  obtain ⟨hterms, horder⟩ := foldl_combineStep op (s := (a.terms, a.order)) ha.entries_eq
    ha.order_eq hnodup
  exact ⟨hterms, horder, by rw [← ha.constant_eq]; rfl⟩

end Consists

end Affine

/-! ## What the pieces of a sum contribute -/

open CausalEquations.Affine

/-- The expression has an affine form before negligible terms are dropped, with these terms. -/
def Expr.ReducesTo (e : Expr ℚ) (l : List (Name × ℚ)) (k : ℚ) : Prop :=
  ∃ a, reduce? e = some a ∧ a.Consists l k

/-- The name is neither a truth value nor a constant. -/
structure IsUnknown (x : Name) : Prop where
  not_truth : isTruth x = false
  not_constant : Constant.ofName? x = none

/-- The number in front of the name of a piece, or the piece itself. -/
def Piece.value : Piece → ℚ
  | number numeral => readNumeral numeral.toList
  | name _ => 1
  | product numeral _ => readNumeral numeral.toList

/-- The terms of a piece with its sign. -/
def termsOf (p : Bool × Piece) : List (Name × ℚ) :=
  p.2.names.map fun x => (x, withSign p.1 p.2.value)

/-- What a piece with its sign adds to the constant. -/
def constantOf (p : Bool × Piece) : ℚ := withSign p.1 (if p.2.names = [] then p.2.value else 0)

lemma map_fst_termsOf (p : Bool × Piece) : (termsOf p).map Prod.fst = p.2.names := by
  simp [termsOf, Function.comp_def]

lemma reducesTo_ofNumeral (numeral : String) :
    (Expr.ofNumeral numeral : Expr ℚ).ReducesTo [] (readNumeral numeral.toList) :=
  ⟨_, rfl, consists_ofConstant _⟩

lemma reducesTo_ofName {x : Name} (hx : IsUnknown x) :
    (Expr.ofName x : Expr ℚ).ReducesTo [(x, 1)] 0 := by
  have htruth := hx.not_truth
  simp only [isTruth, Bool.or_eq_false_iff, beq_eq_false_iff_ne] at htruth
  rw [Expr.ofName, if_neg htruth.1, if_neg htruth.2]
  refine ⟨ofVariable x, ?_, consists_ofVariable x⟩
  rw [reduce?, hx.not_constant]

namespace Expr.ReducesTo

variable {e e' : Expr ℚ} {l l' : List (Name × ℚ)} {k k' : ℚ}

lemma signed (h : e.ReducesTo l k) (negative : Bool) :
    (e.signed negative).ReducesTo (l.map fun t => (t.1, withSign negative t.2))
      (withSign negative k) := by
  cases negative with
  | false => simpa [Expr.signed] using h
  | true =>
      obtain ⟨a, ha, hconsists⟩ := h
      obtain ⟨b, hb, hscaled⟩ := hconsists.scale? (-1)
      refine ⟨b, ?_, ?_⟩
      · rw [Expr.signed, if_pos rfl, reduce?, ha]
        exact hb
      · simpa using hscaled

lemma product (h : e.ReducesTo [] k) (h' : e'.ReducesTo l' k') (hl' : l' ≠ []) :
    (Expr.binary "*" e e').ReducesTo (l'.map fun t => (t.1, t.2 * k)) (k' * k) := by
  obtain ⟨a, ha, hconsists⟩ := h
  obtain ⟨b, hb, hconsists'⟩ := h'
  obtain ⟨c, hc, hscaled⟩ := hconsists'.scale? k
  refine ⟨c, ?_, hscaled⟩
  have hnone : a.hasTerms = false := by simp [hasTerms, Table.keys, hconsists.entries_eq]
  have hsome : b.hasTerms = true := by simp [hasTerms, Table.keys, hconsists'.entries_eq, hl']
  rw [reduce?, ha, hb]
  show a.mul? b = some c
  simpa [mul?, hnone, hsome, hconsists.constant_eq] using hc

/-- A further summand with new names. -/
lemma add (h : e.ReducesTo l k) (h' : e'.ReducesTo l' k') (negative : Bool)
    (hnodup : ((l ++ l').map Prod.fst).Nodup) :
    (Expr.binary (signText negative) e e').ReducesTo
      (l ++ l'.map fun t => (t.1, withSign negative t.2)) (k + withSign negative k') := by
  obtain ⟨a, ha, hconsists⟩ := h
  obtain ⟨b, hb, hconsists'⟩ := h'
  cases negative with
  | false =>
      refine ⟨_, by rw [signText, reduce?, ha, hb]; rfl, ?_⟩
      simpa using hconsists.combine (· + ·) hconsists' hnodup
  | true =>
      refine ⟨_, by rw [signText, reduce?, ha, hb]; rfl, ?_⟩
      simpa [sub_eq_add_neg] using hconsists.combine (· - ·) hconsists' hnodup

end Expr.ReducesTo

/-- A piece is reduced to its contributions. -/
lemma Piece.reducesTo_tree (negative : Bool) {p : Piece} (h : ∀ x ∈ p.names, IsUnknown x) :
    (p.tree negative : Expr ℚ).ReducesTo (termsOf (negative, p)) (constantOf (negative, p)) := by
  cases p with
  | number numeral =>
      exact (reducesTo_ofNumeral numeral).signed negative
  | name x =>
      exact (reducesTo_ofName (h x (by simp [names]))).signed negative
  | product numeral x =>
      have hproduct := ((reducesTo_ofNumeral numeral).signed negative).product
        (reducesTo_ofName (h x (by simp [names]))) (by simp)
      simpa [tree, termsOf, constantOf, names, value] using hproduct

/-- Behind a sum go on the contributions of further pieces. -/
lemma reducesTo_sumTree {e : Expr ℚ} {l : List (Name × ℚ)} {k : ℚ} (he : e.ReducesTo l k)
    {ps : List (Bool × Piece)} (h : ∀ p ∈ ps, ∀ x ∈ p.2.names, IsUnknown x)
    (hnodup : ((l ++ ps.flatMap termsOf).map Prod.fst).Nodup) :
    (sumTree e ps).ReducesTo (l ++ ps.flatMap termsOf) (k + (ps.map constantOf).sum) := by
  induction ps generalizing e l k with
  | nil => simpa [sumTree] using he
  | cons p rest ih =>
      obtain ⟨hp, hrest⟩ := List.forall_mem_cons.mp h
      have hpiece : (p.2.tree false : Expr ℚ).ReducesTo (termsOf (false, p.2))
          (constantOf (false, p.2)) := Piece.reducesTo_tree false hp
      have hterms : (termsOf (false, p.2)).map (fun t => (t.1, withSign p.1 t.2)) = termsOf p := by
        simp [termsOf]
      have hconstant : withSign p.1 (constantOf (false, p.2)) = constantOf p := rfl
      rw [List.flatMap_cons, ← List.append_assoc] at hnodup
      have hfirst : ((l ++ termsOf (false, p.2)).map Prod.fst).Nodup := by
        rw [List.map_append] at hnodup
        have hnames := hnodup.of_append_left
        rwa [List.map_append, map_fst_termsOf] at hnames ⊢
      have hsum := he.add hpiece p.1 hfirst
      rw [hterms, hconstant] at hsum
      have htree := ih hsum hrest hnodup
      rw [List.append_assoc, add_assoc] at htree
      exact htree

/-- **A sum is reduced to the contributions of its pieces** if no name occurs twice. -/
theorem reducesTo_joinedTree {ps : List (Bool × Piece)} (h : ∀ p ∈ ps, ∀ x ∈ p.2.names, IsUnknown x)
    (hnodup : (ps.flatMap fun p => p.2.names).Nodup) :
    (joinedTree ps : Expr ℚ).ReducesTo (ps.flatMap termsOf) (ps.map constantOf).sum := by
  cases ps with
  | nil =>
      have hzero : (readNumeral "0".toList : ℚ) = 0 := by decide +kernel
      have h := reducesTo_ofNumeral "0"
      rwa [hzero] at h
  | cons p rest =>
      obtain ⟨hp, hrest⟩ := List.forall_mem_cons.mp h
      have hnames : ((p :: rest).flatMap termsOf).map Prod.fst =
          (p :: rest).flatMap fun p => p.2.names := by
        rw [List.map_flatMap]
        simp only [map_fst_termsOf]
      exact reducesTo_sumTree (Piece.reducesTo_tree p.1 hp) hrest (hnames ▸ hnodup :)

/-! ## Numbers in the rationals -/

@[simp] lemma toRat_rat (q : ℚ) : Scalar.toRat q = q := rfl

lemma abs_eq_abs (q : ℚ) : Rat.abs q = |q| := by
  rcases le_total 0 q with h | h
  · rw [Rat.abs_of_nonneg h, abs_of_nonneg h]
  · rw [Rat.abs_of_nonpos h, abs_of_nonpos h]

lemma negligible_iff {q : ℚ} : negligible q = true ↔ |q| < 1 / 10 ^ 10 := by
  have hepsilon : (Scalar.epsilon : ℚ) = 1 / 10 ^ 10 := by decide +kernel
  have hnegligible : negligible q = Rat.blt (Rat.abs q) Scalar.epsilon := rfl
  rw [hnegligible, abs_eq_abs, hepsilon]
  exact Iff.rfl

/-- A negligible number is rounded to zero. -/
lemma isRounding_of_negligible {q : ℚ} (h : negligible q = true) : IsRounding 4 q 0 := by
  rw [negligible_iff] at h
  refine .of_small ?_
  linarith

/-- A rounded number is not negligible unless it is zero. -/
lemma IsRounding.negligible_iff {q r : ℚ} (h : IsRounding 4 q r) : negligible r = true ↔ r = 0 := by
  rw [CausalEquations.negligible_iff]
  constructor
  · intro hsmall
    by_contra hr
    have hunit := h.unit_le hr
    linarith
  · rintro rfl
    norm_num

/-- What is written for a magnitude is read as the rounded magnitude. -/
lemma isRounding_formatMagnitude (q : ℚ) :
    IsRounding 4 |q| (readNumeral (formatMagnitude q).toList) := by
  have htext : (formatMagnitude q).toList = Fixed.magnitudeText 4 (Fixed.units 4 |q|) := by
    have hformat : formatMagnitude q = String.ofList (Fixed.text 4 (Rat.abs q)) := rfl
    simp [hformat, abs_eq_abs, Fixed.text]
  rw [htext, readNumeral_magnitudeText (by norm_num)]
  simpa using Fixed.isRounding_units 4 |q|

/-! ## The round trip -/

namespace Affine

variable {a : Affine ℚ}

/-- The term of a variable is written with the rounded coefficient. -/
lemma isRounding_termPiece (x : Name) (c : ℚ) :
    IsRounding 4 c (withSign (Rat.blt c 0) (termPiece x c).value) := by
  refine IsRounding.withSign ?_
  have hone : Rat.abs (Scalar.toRat c) = |c| := abs_eq_abs c
  rw [termPiece, hone]
  split
  · rename_i hunit
    rw [hunit]
    simpa [Piece.value] using IsRounding.of_int 4 1
  · exact isRounding_formatMagnitude c

/-- The terms that are written are the rounded ones. -/
lemma termsOf_signedPieces (a : Affine ℚ) : a.signedPieces.flatMap termsOf =
    a.order.map fun x => (x, Fixed.rounded 4 (a.coefficient x)) := by
  have hterm : ∀ x, termsOf (Rat.blt (Scalar.toRat (a.coefficient x)) 0,
      termPiece x (a.coefficient x)) = [(x, Fixed.rounded 4 (a.coefficient x))] := by
    intro x
    rw [termsOf, names_termPiece, List.map_singleton]
    exact congrArg (fun r => [(x, r)])
      ((isRounding_termPiece x _).unique (Fixed.isRounding_rounded 4 _))
  have hconstant : ∀ negative numeral, termsOf (negative, .number numeral) = [] := fun _ _ => rfl
  rw [signedPieces, List.flatMap_append, List.flatMap_map, List.map_eq_flatMap]
  simp only [hterm]
  split <;> simp [hconstant]

/-- So is the constant. -/
lemma constantOf_signedPieces (a : Affine ℚ) :
    (a.signedPieces.map constantOf).sum = Fixed.rounded 4 a.constant := by
  have hterm : ∀ negative x c, constantOf (negative, termPiece x (c : ℚ)) = 0 := by
    intro negative x c
    simp [constantOf]
  have hwritten := Fixed.isRounding_rounded 4 a.constant
  rw [signedPieces, List.map_append, List.map_map, List.sum_append]
  simp only [Function.comp_def, hterm]
  split
  · rename_i hnegligible
    simpa using (isRounding_of_negligible hnegligible).unique hwritten
  · simpa [constantOf, Piece.names, Piece.value] using
      (isRounding_formatMagnitude a.constant).withSign.unique hwritten

lemma Normal.normalize_eq (h : a.Normal) : a.normalize = a := by
  cases a with
  | mk terms order constant =>
      exact congrArg₂ (fun t o => Affine.mk t o constant) h.terms_normalize h.order_normalize

/-- The written form is reduced to the rounded terms. -/
lemma reducesTo_tree (h : a.Normal) (hnames : ∀ x ∈ a.order, IsUnknown x) :
    a.tree.ReducesTo (a.order.map fun x => (x, Fixed.rounded 4 (a.coefficient x)))
      (Fixed.rounded 4 a.constant) := by
  rw [← termsOf_signedPieces, ← constantOf_signedPieces, tree, h.normalize_eq]
  have hall : (a.signedPieces.flatMap fun p => p.2.names) = a.order := names_signedPieces a
  refine reducesTo_joinedTree (fun p hp x hx => hnames x ?_) ?_
  · rw [← hall]
    exact List.mem_flatMap.mpr ⟨p, hp, hx⟩
  · rw [hall, h.order_eq]
    exact a.terms.nodup

/-- Of rounded terms those remain that are not zero. -/
lemma Consists.normalize {b : Affine ℚ} {l : List Name} {f : Name → ℚ} {k : ℚ}
    (h : b.Consists (l.map fun x => (x, f x)) k) (hf : ∀ x, negligible (f x) = true ↔ f x = 0) :
    (∀ x, b.normalize.coefficient x = if x ∈ l then f x else 0) ∧
      b.normalize.order = l.filter (fun x => f x ≠ 0) ∧ b.normalize.constant = k := by
  obtain ⟨hterms, horder, rfl⟩ := h
  have hget : ∀ x, b.terms.get? x = if x ∈ l then some (f x) else none := by
    intro x
    ext r
    rw [Table.get?_eq_some_iff, hterms]
    by_cases hx : x ∈ l <;> aesop
  have hkept : ∀ x, b.normalize.terms.get? x = if x ∈ l ∧ f x ≠ 0 then some (f x) else none := by
    intro x
    have hfilter : b.normalize.terms.get? x = (b.terms.get? x).filter fun c => !negligible c :=
      Table.get?_filter _ _ _
    have hkeep : (!negligible (f x)) = decide (f x ≠ 0) := by
      rw [Bool.eq_iff_iff, Bool.not_eq_true', ← Bool.not_eq_true, hf, decide_eq_true_iff]
    rw [hfilter, hget]
    by_cases hx : x ∈ l <;> simp [hx, hkeep, Option.filter]
  refine ⟨fun x => ?_, ?_, rfl⟩
  · rw [coefficient, Table.getD, hkept]
    by_cases hx : x ∈ l <;> by_cases hzero : f x = 0 <;> simp [hx, hzero]
  · show b.order.filter (fun x => b.normalize.terms.contains x) = _
    rw [horder, List.map_map]
    show (l.map fun x => x).filter _ = _
    rw [List.map_id']
    refine List.filter_congr fun x hx => ?_
    by_cases hzero : f x = 0 <;> simp [Table.contains, hkept, hx, hzero]

/-- An affine expression that can be parsed calls nothing. -/
lemma read_of_parse {text : String} {e : Expr ℚ} (he : Expr.parse text = .ok e)
    (ha : ofExpr? e = some a) : Expr.read text = .ok e := by
  obtain ⟨-, -, hnone⟩ := normal_of_ofExpr? (p := fun _ => True) ha fun _ _ _ => trivial
  exact Expr.read_eq_ok.mpr ⟨he, by simp [Expr.CallsOnly, hnone]⟩

/-- The terms have names that stand for themselves. -/
lemma isUnknown_of_ofExpr? {text : String} {e : Expr ℚ} (he : Expr.read text = .ok e)
    (ha : ofExpr? e = some a) : ∀ x ∈ a.order, IsUnknown x := by
  obtain ⟨body, -, hforms⟩ := read_eq_ok.mp he
  obtain ⟨-, -, hnone⟩ := normal_of_ofExpr? (p := fun _ => True) ha fun _ _ _ => trivial
  exact (normal_of_ofExpr? ha fun x hx hconstant =>
    ⟨(hforms.1.mem_identifiers hnone x hx).2, hconstant⟩).2.1

/-- **An affine equation that is written and read back is the rounded one.** Its text can be parsed
and mentions the variables of the terms, each once and in their order. The affine form of what is
parsed has all coefficients and the constant rounded to four decimals, and the terms whose
coefficients are not rounded to zero. -/
theorem parse_render {text : String} {e : Expr ℚ} (he : Expr.parse text = .ok e)
    (ha : ofExpr? e = some a) :
    ∃ e' a', Expr.parse a.render = .ok e' ∧ e'.identifiers = a.order ∧ ofExpr? e' = some a' ∧
      (∀ x, IsRounding 4 (a.coefficient x) (a'.coefficient x)) ∧
      IsRounding 4 a.constant a'.constant ∧
      a'.order = a.order.filter fun x => a'.coefficient x ≠ 0 := by
  have hread := read_of_parse he ha
  have hnormal := normal_of_read hread ha
  have hunknown := isUnknown_of_ofExpr? hread ha
  obtain ⟨b, hb, hconsists⟩ := reducesTo_tree hnormal hunknown
  obtain ⟨hcoefficient, horder, hconstant⟩ := hconsists.normalize fun x =>
    (Fixed.isRounding_rounded 4 (a.coefficient x)).negligible_iff
  have hmissing : ∀ x, x ∉ a.order → a.coefficient x = 0 := by
    intro x hx
    rw [hnormal.order_eq] at hx
    rw [coefficient, Table.getD, Table.get?_eq_none_iff.mpr hx]
    rfl
  have hrounded : ∀ x, b.normalize.coefficient x = Fixed.rounded 4 (a.coefficient x) := by
    intro x
    rw [hcoefficient]
    split
    · rfl
    · rename_i hx
      rw [hmissing x hx]
      exact (IsRounding.of_small (by norm_num)).unique (Fixed.isRounding_rounded 4 0)
  refine ⟨a.tree, b.normalize, ?_, ?_, ?_, fun x => ?_, ?_, ?_⟩
  · exact (Expr.read_eq_ok.mp (read_render (isName_of_ofExpr? hread ha).1)).1
  · rw [tree, (joinedTree_names _).2, names_signedPieces, hnormal.order_normalize]
    exact List.filter_eq_self.mpr fun x hx => by simp [(hunknown x hx).not_truth]
  · rw [ofExpr?, hb]
    rfl
  · exact hrounded x ▸ Fixed.isRounding_rounded 4 _
  · exact hconstant ▸ Fixed.isRounding_rounded 4 _
  · simp only [hrounded, horder]

/-- The coefficient of `A` is a tie, and that of `C` is rounded to zero. -/
theorem parse_render_tie :
    ∃ (e : Expr ℚ) (a : Affine ℚ), Expr.parse "2.00005*A - B/3 + 0.00001*C" = .ok e ∧
      ofExpr? e = some a ∧ a.render = "2*A - 0.3333*B + 0*C" ∧
      ∃ (e' : Expr ℚ) (a' : Affine ℚ), Expr.parse a.render = .ok e' ∧
        e'.identifiers = ["A", "B", "C"] ∧ ofExpr? e' = some a' ∧
        a'.coefficient "A" = 2 ∧ a'.coefficient "C" = 0 := by
  have hparsed : (Expr.parse "2.00005*A - B/3 + 0.00001*C" : Except SyntaxError (Expr ℚ)).toOption.map
      (fun e => (ofExpr? e).map fun a => (a.render, a.order,
        Fixed.rounded 4 (a.coefficient "A"), Fixed.rounded 4 (a.coefficient "C"))) =
      some (some ("2*A - 0.3333*B + 0*C", ["A", "B", "C"], 2, 0)) := by
    decide +kernel
  obtain ⟨e, he, hform⟩ := exists_of_toOption_map hparsed
  obtain ⟨a, ha, hvalues⟩ := Option.map_eq_some_iff.mp hform
  simp only [Prod.mk.injEq] at hvalues
  obtain ⟨hrender, horder, hA, hC⟩ := hvalues
  obtain ⟨e', a', he', hnames, ha', hcoefficients, -, -⟩ := parse_render he ha
  refine ⟨e, a, he, ha, hrender, e', a', he', hnames.trans horder, ha', ?_, ?_⟩
  · rw [← hA]
    exact (hcoefficients "A").unique (Fixed.isRounding_rounded 4 _)
  · rw [← hC]
    exact (hcoefficients "C").unique (Fixed.isRounding_rounded 4 _)

end Affine

end CausalEquations
