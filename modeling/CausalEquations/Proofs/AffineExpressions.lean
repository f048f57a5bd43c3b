import CausalEquations.Proofs.AffineValues
import CausalEquations.Proofs.ExactNumbers

/-!
# Expressions that have an affine form

Whether an expression has an affine form can be seen from the expression itself. It is built by the
four operations of arithmetic; unknowns are never multiplied with each other, and a divisor is a
number that is not negligible. An unknown that cancels still counts: while an expression is reduced,
the terms are those of all unknowns that occur.

* `Expr.IsLinear` — what is seen from the expression.
* `Affine.Tracks` — the terms of a reduced expression are its unknowns, and without unknowns its
  constant is the value.
* `Affine.tracks_of_reduce?` — reducing keeps track in this way, and only linear expressions reduce.
* `Affine.exists_reduce?` — every linear expression does.
* `Affine.isSome_ofExpr?_iff` — the expressions that have an affine form.
-/

namespace CausalEquations

variable {α : Type}

/-! ## Linear expressions -/

namespace Expr

mutual

/-- The two sides of all products in an expression. -/
def products : Expr α → List (Expr α × Expr α)
  | literal _ _ => []
  | identifier _ => []
  | unary _ a => a.products
  | binary op a b => a.products ++ b.products ++ if op = "*" then [(a, b)] else []
  | choice t a b => t.products ++ a.products ++ b.products
  | call _ args => productsOfList args

/-- The two sides of all products in a list of arguments. -/
def productsOfList : List (Expr α) → List (Expr α × Expr α)
  | [] => []
  | a :: rest => a.products ++ productsOfList rest

end

variable [Scalar α]

/-- Nothing but finite numbers, names, signs and the four operations of arithmetic occurs. -/
def IsArithmetic : Expr α → Prop
  | literal value _ => Scalar.isFinite value = true
  | identifier _ => True
  | unary op a => op ∈ ["+", "-"] ∧ a.IsArithmetic
  | binary op a b => op ∈ ["+", "-", "*", "/"] ∧ a.IsArithmetic ∧ b.IsArithmetic
  | choice _ _ _ => False
  | call _ _ => False

variable [Elementary α]

/-- The expression has the same value in every scope, and it is the rational `q`. -/
def IsConstantly (e : Expr α) (q : ℚ) : Prop :=
  ∃ x, Denotes x q ∧ ∀ scope, e.evaluate .single scope = .ok x

/-- The expression is arithmetic, no product has unknowns on both sides, and every divisor is free
of unknowns and has a value that is not negligible. -/
structure IsLinear (e : Expr α) : Prop where
  arithmetic : e.IsArithmetic
  products : ∀ p ∈ e.products, p.1.unknowns = [] ∨ p.2.unknowns = []
  divisors : ∀ d ∈ e.divisors, d.unknowns = [] ∧ ∃ q, d.IsConstantly q ∧ 1 / 10 ^ 10 ≤ |q|

variable {op : String} {a b : Expr α}

omit [Scalar α] [Elementary α] in
lemma mem_unknowns {e : Expr α} {name : Name} :
    name ∈ e.unknowns ↔ name ∈ e.identifiers ∧ Constant.ofName? name = none := by
  rw [unknowns, List.mem_eraseDups, List.mem_filter, Option.isNone_iff_eq_none]

omit [Scalar α] [Elementary α] in
lemma mem_unknowns_binary {name : Name} :
    name ∈ (binary op a b).unknowns ↔ name ∈ a.unknowns ∨ name ∈ b.unknowns := by
  rw [mem_unknowns, mem_unknowns, mem_unknowns, identifiers, List.mem_append, or_and_right]

omit [Scalar α] [Elementary α] in
lemma unknowns_binary_eq_nil_iff :
    (binary op a b).unknowns = [] ↔ a.unknowns = [] ∧ b.unknowns = [] := by
  simp only [List.eq_nil_iff_forall_not_mem, mem_unknowns_binary, not_or, forall_and]

lemma isLinear_literal_iff {value : α} {raw : String} :
    (literal value raw).IsLinear ↔ Scalar.isFinite value = true :=
  ⟨IsLinear.arithmetic, fun h => ⟨h, by simp [Expr.products], by simp [Expr.divisors]⟩⟩

lemma isLinear_identifier (name : Name) : (identifier name : Expr α).IsLinear :=
  ⟨trivial, by simp [Expr.products], by simp [Expr.divisors]⟩

lemma isLinear_unary_iff : (unary op a).IsLinear ↔ op ∈ ["+", "-"] ∧ a.IsLinear := by
  constructor
  · rintro ⟨⟨hop, harithmetic⟩, hproducts, hdivisors⟩
    exact ⟨hop, harithmetic, hproducts, hdivisors⟩
  · rintro ⟨hop, harithmetic, hproducts, hdivisors⟩
    exact ⟨⟨hop, harithmetic⟩, hproducts, hdivisors⟩

/-- Products and quotients are linear under conditions on their own sides. -/
lemma isLinear_binary_iff : (binary op a b).IsLinear ↔
    op ∈ ["+", "-", "*", "/"] ∧ a.IsLinear ∧ b.IsLinear ∧
      (op = "*" → a.unknowns = [] ∨ b.unknowns = []) ∧
      (op = "/" → b.unknowns = [] ∧ ∃ q, b.IsConstantly q ∧ 1 / 10 ^ 10 ≤ |q|) := by
  constructor
  · rintro ⟨⟨hop, hleft, hright⟩, hproducts, hdivisors⟩
    simp only [Expr.products, List.forall_mem_append] at hproducts
    simp only [Expr.divisors, List.forall_mem_append] at hdivisors
    refine ⟨hop, ⟨hleft, hproducts.1.1, hdivisors.1.1⟩, ⟨hright, hproducts.1.2, hdivisors.1.2⟩, ?_, ?_⟩
    · exact fun htimes => hproducts.2 (a, b) (by simp [htimes])
    · exact fun hdivided => hdivisors.2 b (by simp [hdivided])
  · rintro ⟨hop, hleft, hright, hproduct, hquotient⟩
    refine ⟨⟨hop, hleft.arithmetic, hright.arithmetic⟩, ?_, ?_⟩
    · simp only [Expr.products, List.forall_mem_append]
      refine ⟨⟨hleft.products, hright.products⟩, fun p hp => ?_⟩
      split at hp
      · rename_i htimes
        obtain rfl := List.mem_singleton.mp hp
        exact hproduct htimes
      · cases hp
    · simp only [Expr.divisors, List.forall_mem_append]
      refine ⟨⟨hleft.divisors, hright.divisors⟩, fun d hd => ?_⟩
      split at hd
      · rename_i hdivided
        obtain rfl := List.mem_singleton.mp hd
        exact hquotient hdivided
      · cases hd

/-! ## Constant expressions -/

variable {x y : α} {p q r : ℚ}

/-- A value denotes one rational only. -/
lemma IsConstantly.unique (h : a.IsConstantly p) (h' : a.IsConstantly q) : p = q := by
  obtain ⟨x, hx, heval⟩ := h
  obtain ⟨y, hy, heval'⟩ := h'
  have hsame : x = y := Except.ok.inj ((heval ⟨Table.empty, x⟩).symm.trans (heval' ⟨Table.empty, x⟩))
  rw [← hx.value, hsame, hy.value]

lemma IsConstantly.unary (meaning : UnaryOp) (hop : UnaryOp.ofSymbol? op = some meaning)
    (h : a.IsConstantly p) (hvalue : ∀ x : α, Denotes x p → Denotes (meaning.apply x) r) :
    (unary op a).IsConstantly r := by
  obtain ⟨x, hx, heval⟩ := h
  exact ⟨_, hvalue x hx, fun scope => evaluate_unary meaning hop (heval scope)⟩

lemma IsConstantly.binary (meaning : BinaryOp) (hop : BinaryOp.ofSymbol? op = some meaning)
    (h : a.IsConstantly p) (h' : b.IsConstantly q)
    (hvalue : ∀ x y : α, Denotes x p → Denotes y q → Denotes (meaning.apply x y) r) :
    (binary op a b).IsConstantly r := by
  obtain ⟨x, hx, heval⟩ := h
  obtain ⟨y, hy, heval'⟩ := h'
  exact ⟨_, hvalue x y hx hy, fun scope => evaluate_binary meaning hop (heval scope) (heval' scope)⟩

end Expr

/-! ## What a reduced expression keeps track of -/

namespace Affine

variable [Scalar α] {a b c : Affine α} {e e' : Expr α}

omit [Scalar α] in
lemma hasTerms_eq_false_iff : a.hasTerms = false ↔ a.terms.keys = [] := by
  simp [hasTerms]

/-- The terms of a sum are those of both sides. -/
lemma mem_keys_combine {op : α → α → α} {name : Name} :
    name ∈ (combine op a b).terms.keys ↔ name ∈ a.terms.keys ∨ name ∈ b.terms.keys := by
  have hfold : ∀ (l : List (Name × α)) (s : Table α × List Name),
      name ∈ (l.foldl (combineStep op) s).1.keys ↔ name ∈ s.1.keys ∨ name ∈ l.map Prod.fst := by
    intro l
    induction l with
    | nil => simp
    | cons e rest ih =>
        intro s
        rw [List.foldl_cons, ih, List.map_cons, List.mem_cons, combineStep, Table.mem_keys_insert]
        tauto
  exact hfold b.terms.entries (a.terms, a.order)

lemma keys_scale? {factor : α} (h : a.scale? factor = some b) : b.terms.keys = a.terms.keys := by
  rw [(scale?_cases h).1, Table.keys_map]

lemma exists_scale? (a : Affine α) {factor : α} {q : ℚ} (h : Denotes factor q) :
    ∃ b, a.scale? factor = some b := ⟨_, if_pos h.finite⟩

variable [Elementary α]

/-- There is a term for every unknown of the expression; an expression without unknowns has a value,
and it is the constant. -/
structure Tracks (a : Affine α) (e : Expr α) : Prop where
  mem_keys_iff : ∀ name, name ∈ a.terms.keys ↔ name ∈ e.unknowns
  constant : e.unknowns = [] → ∃ q, e.IsConstantly q ∧ Denotes a.constant q

namespace Tracks

lemma hasTerms_eq_false_iff (h : a.Tracks e) : a.hasTerms = false ↔ e.unknowns = [] := by
  rw [Affine.hasTerms_eq_false_iff, List.eq_nil_iff_forall_not_mem, List.eq_nil_iff_forall_not_mem]
  simp only [h.mem_keys_iff]

lemma literal {value : α} (raw : String) (h : Scalar.isFinite value = true) :
    (ofConstant value).Tracks (.literal value raw) where
  mem_keys_iff name := by simp [ofConstant, Expr.mem_unknowns, Expr.identifiers]
  constant _ := by
    have hvalue : Denotes value (Scalar.toRat value) := ⟨h, rfl⟩
    exact ⟨_, ⟨value, hvalue, fun scope => by rw [Expr.evaluate]; rfl⟩, hvalue.finiteOrZero⟩

lemma unknown {name : Name} (h : Constant.ofName? name = none) :
    (ofVariable name : Affine α).Tracks (.identifier name) where
  mem_keys_iff other := by
    simp only [ofVariable, Table.mem_keys_insert, Table.keys_empty, List.not_mem_nil, or_false,
      Expr.mem_unknowns, Expr.identifiers, List.mem_singleton]
    exact ⟨fun hother => ⟨hother, hother ▸ h⟩, And.left⟩
  constant hnone := by
    have hmem : name ∈ (Expr.identifier name : Expr α).unknowns :=
      Expr.mem_unknowns.mpr ⟨by simp [Expr.identifiers], h⟩
    rw [hnone] at hmem
    cases hmem

lemma plus (h : a.Tracks e) : a.Tracks (.unary "+" e) where
  mem_keys_iff := h.mem_keys_iff
  constant hnone := by
    obtain ⟨q, hconstantly, hq⟩ := h.constant hnone
    exact ⟨q, hconstantly.unary .plus rfl fun _ hx => hx, hq⟩

/-- Sums and differences. -/
lemma combine {op : String} (meaning : BinaryOp) (hop : BinaryOp.ofSymbol? op = some meaning)
    {f : ℚ → ℚ → ℚ} (hvalue : ∀ {x y : α} {p q : ℚ}, Denotes x p → Denotes y q →
      Denotes (meaning.apply x y) (f p q)) (ha : a.Tracks e) (hb : b.Tracks e') :
    (combine meaning.apply a b).Tracks (.binary op e e') where
  mem_keys_iff name := by
    rw [mem_keys_combine, Expr.mem_unknowns_binary, ha.mem_keys_iff, hb.mem_keys_iff]
  constant hnone := by
    rw [Expr.unknowns_binary_eq_nil_iff] at hnone
    obtain ⟨p, hleft, hp⟩ := ha.constant hnone.1
    obtain ⟨q, hright, hq⟩ := hb.constant hnone.2
    exact ⟨_, hleft.binary meaning hop hright fun _ _ => hvalue, (hvalue hp hq).finiteOrZero⟩

/-- A product reduces if one side has no unknowns. -/
lemma exists_mul? (ha : a.Tracks e) (hb : b.Tracks e')
    (h : e.unknowns = [] ∨ e'.unknowns = []) : ∃ c, a.mul? b = some c := by
  simp only [← ha.hasTerms_eq_false_iff, ← hb.hasTerms_eq_false_iff] at h
  unfold Affine.mul?
  split
  · rename_i hboth
    rw [Bool.and_eq_true] at hboth
    simp [hboth] at h
  split
  · rename_i hterms
    have hterms' : b.hasTerms = false := by simpa [hterms] using h
    obtain ⟨q, -, hq⟩ := hb.constant (hb.hasTerms_eq_false_iff.mp hterms')
    exact exists_scale? a hq
  rename_i hterms
  rw [Bool.not_eq_true] at hterms
  split
  · obtain ⟨q, -, hq⟩ := ha.constant (ha.hasTerms_eq_false_iff.mp hterms)
    exact exists_scale? b hq
  · exact ⟨_, rfl⟩

variable [ExactScalar α]

lemma named {name : Name} {c : Constant} (h : Constant.ofName? name = some c) :
    (ofConstant (c.value : α)).Tracks (.identifier name) where
  mem_keys_iff other := by
    simp only [ofConstant, Table.keys_empty, List.not_mem_nil, false_iff, Expr.mem_unknowns,
      Expr.identifiers, List.mem_singleton, not_and]
    rintro rfl
    rw [h]
    simp
  constant _ := by
    obtain ⟨q, hq⟩ := Denotes.constant (α := α) c
    refine ⟨q, ⟨_, hq, fun scope => ?_⟩, hq.finiteOrZero⟩
    rw [Expr.evaluate, Scope.resolve, h]
    rfl

lemma minus (h : a.Tracks e) (hb : a.scale? (-Scalar.one) = some b) :
    b.Tracks (.unary "-" e) where
  mem_keys_iff name := by
    rw [keys_scale? hb]
    exact h.mem_keys_iff name
  constant hnone := by
    obtain ⟨q, hconstantly, hq⟩ := h.constant hnone
    refine ⟨-q, hconstantly.unary .minus rfl fun _ => ExactScalar.neg, ?_⟩
    rw [(scale?_cases hb).2.2]
    have hproduct := ExactScalar.mul hq (ExactScalar.neg Denotes.one)
    rw [mul_neg_one] at hproduct
    exact hproduct.finiteOrZero

/-- A product has unknowns on one side at most. -/
lemma mul (ha : a.Tracks e) (hb : b.Tracks e') (hc : a.mul? b = some c) :
    c.Tracks (.binary "*" e e') ∧ (e.unknowns = [] ∨ e'.unknowns = []) := by
  have hvalue : ∀ {p q : ℚ}, e.IsConstantly p → e'.IsConstantly q →
      (Expr.binary "*" e e').IsConstantly (p * q) := fun hleft hright =>
    hleft.binary .mul rfl hright fun _ _ => ExactScalar.mul
  rcases mul?_cases hc with ⟨hterms, hscale⟩ | ⟨hterms, hscale⟩ | ⟨hterms, hterms', rfl⟩
  · have hright := hb.hasTerms_eq_false_iff.mp hterms
    refine ⟨⟨fun name => ?_, fun hnone => ?_⟩, .inr hright⟩
    · simp [keys_scale? hscale, Expr.mem_unknowns_binary, ha.mem_keys_iff, hright]
    · obtain ⟨p, hconstantly, hp⟩ := ha.constant (Expr.unknowns_binary_eq_nil_iff.mp hnone).1
      obtain ⟨q, hconstantly', hq⟩ := hb.constant hright
      rw [(scale?_cases hscale).2.2]
      exact ⟨_, hvalue hconstantly hconstantly', (ExactScalar.mul hp hq).finiteOrZero⟩
  · have hleft := ha.hasTerms_eq_false_iff.mp hterms
    refine ⟨⟨fun name => ?_, fun hnone => ?_⟩, .inl hleft⟩
    · simp [keys_scale? hscale, Expr.mem_unknowns_binary, hb.mem_keys_iff, hleft]
    · obtain ⟨p, hconstantly, hp⟩ := ha.constant hleft
      obtain ⟨q, hconstantly', hq⟩ := hb.constant (Expr.unknowns_binary_eq_nil_iff.mp hnone).2
      have hproduct := ExactScalar.mul hq hp
      rw [mul_comm] at hproduct
      rw [(scale?_cases hscale).2.2]
      exact ⟨_, hvalue hconstantly hconstantly', hproduct.finiteOrZero⟩
  · have hleft := ha.hasTerms_eq_false_iff.mp hterms
    have hright := hb.hasTerms_eq_false_iff.mp hterms'
    refine ⟨⟨fun name => ?_, fun _ => ?_⟩, .inl hleft⟩
    · simp [ofConstant, Expr.mem_unknowns_binary, hleft, hright]
    · obtain ⟨p, hconstantly, hp⟩ := ha.constant hleft
      obtain ⟨q, hconstantly', hq⟩ := hb.constant hright
      exact ⟨_, hvalue hconstantly hconstantly', (ExactScalar.mul hp hq).finiteOrZero⟩

/-- A divisor is a number that is not negligible. -/
lemma div (ha : a.Tracks e) (hb : b.Tracks e') (hc : a.div? b = some c) :
    c.Tracks (.binary "/" e e') ∧
      e'.unknowns = [] ∧ ∃ q, e'.IsConstantly q ∧ 1 / 10 ^ 10 ≤ |q| := by
  obtain ⟨hterms, hdivisor, hscale⟩ := div?_cases hc
  have hright := hb.hasTerms_eq_false_iff.mp hterms
  obtain ⟨q, hconstantly', hq⟩ := hb.constant hright
  have hlarge : 1 / 10 ^ 10 ≤ |q| := by
    rwa [hq.negligible_iff, not_lt] at hdivisor
  have hnonzero : q ≠ 0 := by
    rintro rfl
    norm_num at hlarge
  refine ⟨⟨fun name => ?_, fun hnone => ?_⟩, hright, q, hconstantly', hlarge⟩
  · simp [keys_scale? hscale, Expr.mem_unknowns_binary, ha.mem_keys_iff, hright]
  · obtain ⟨p, hconstantly, hp⟩ := ha.constant (Expr.unknowns_binary_eq_nil_iff.mp hnone).1
    refine ⟨p / q, hconstantly.binary .div rfl hconstantly' fun _ _ hx hy =>
      ExactScalar.div hx hy hnonzero, ?_⟩
    rw [(scale?_cases hscale).2.2, ← mul_one_div]
    exact (ExactScalar.mul hp (ExactScalar.div Denotes.one hq hnonzero)).finiteOrZero

/-- A quotient reduces if the divisor is a number that is not negligible. -/
lemma exists_div? (hb : b.Tracks e') (hnone : e'.unknowns = [])
    (h : ∃ q, e'.IsConstantly q ∧ 1 / 10 ^ 10 ≤ |q|) : ∃ c, a.div? b = some c := by
  obtain ⟨p, hconstantly, hlarge⟩ := h
  obtain ⟨q, hconstantly', hq⟩ := hb.constant hnone
  obtain rfl := hconstantly.unique hconstantly'
  have hnonzero : p ≠ 0 := by
    rintro rfl
    norm_num at hlarge
  have hkept : ¬ (b.hasTerms || negligible b.constant) = true := by
    rw [Bool.or_eq_true, not_or, Bool.not_eq_true, hb.hasTerms_eq_false_iff, hq.negligible_iff,
      not_lt]
    exact ⟨hnone, hlarge⟩
  rw [Affine.div?, if_neg hkept]
  exact exists_scale? a (ExactScalar.div Denotes.one hq hnonzero)

end Tracks

variable [ExactScalar α]

/-! ## Reducing -/

/-- **Reducing keeps track of the unknowns**, and only linear expressions can be reduced. -/
theorem tracks_of_reduce? : ∀ (e : Expr α) {a : Affine α}, reduce? e = some a →
    a.Tracks e ∧ e.IsLinear
  | .literal value raw, a, h => by
      rw [reduce?] at h
      split at h
      · rename_i hfinite
        cases h
        exact ⟨.literal raw hfinite, Expr.isLinear_literal_iff.mpr hfinite⟩
      · cases h
  | .identifier name, a, h => by
      refine ⟨?_, Expr.isLinear_identifier name⟩
      rw [reduce?] at h
      cases hconstant : Constant.ofName? name with
      | some c =>
          rw [hconstant] at h
          cases h
          exact .named hconstant
      | none =>
          rw [hconstant] at h
          cases h
          exact .unknown hconstant
  | .unary op argument, a, h => by
      obtain ⟨b, hb, hsign⟩ := reduce?_unary_cases h
      obtain ⟨htracks, hlinear⟩ := tracks_of_reduce? argument hb
      rcases hsign with ⟨rfl, rfl⟩ | ⟨rfl, hscale⟩
      · exact ⟨htracks.plus, Expr.isLinear_unary_iff.mpr ⟨by simp, hlinear⟩⟩
      · exact ⟨htracks.minus hscale, Expr.isLinear_unary_iff.mpr ⟨by simp, hlinear⟩⟩
  | .binary op left right, c, h => by
      obtain ⟨a, b, ha, hb, hjoin⟩ := reduce?_binary_cases h
      obtain ⟨hleft, hlinear⟩ := tracks_of_reduce? left ha
      obtain ⟨hright, hlinear'⟩ := tracks_of_reduce? right hb
      rcases hjoin with ⟨rfl, rfl⟩ | ⟨rfl, rfl⟩ | ⟨rfl, hmul⟩ | ⟨rfl, hdiv⟩
      · refine ⟨.combine .add rfl ExactScalar.add hleft hright, ?_⟩
        exact Expr.isLinear_binary_iff.mpr ⟨by simp, hlinear, hlinear', by simp, by simp⟩
      · refine ⟨.combine .sub rfl ExactScalar.sub hleft hright, ?_⟩
        exact Expr.isLinear_binary_iff.mpr ⟨by simp, hlinear, hlinear', by simp, by simp⟩
      · obtain ⟨htracks, hfactor⟩ := hleft.mul hright hmul
        refine ⟨htracks, ?_⟩
        exact Expr.isLinear_binary_iff.mpr
          ⟨by simp, hlinear, hlinear', fun _ => hfactor, by simp⟩
      · obtain ⟨htracks, hdivisor⟩ := hleft.div hright hdiv
        refine ⟨htracks, ?_⟩
        exact Expr.isLinear_binary_iff.mpr
          ⟨by simp, hlinear, hlinear', by simp, fun _ => hdivisor⟩
  | .choice t a b, _, h => nomatch (reduce?_choice t a b).symm.trans h
  | .call f args, _, h => nomatch (reduce?_call f args).symm.trans h

/-- **Every linear expression can be reduced.** -/
theorem exists_reduce? : ∀ (e : Expr α), e.IsLinear → ∃ a, reduce? e = some a
  | .literal value raw, h => by
      rw [Expr.isLinear_literal_iff] at h
      exact ⟨_, by rw [reduce?, if_pos h]⟩
  | .identifier name, _ => by
      rw [reduce?]
      split <;> exact ⟨_, rfl⟩
  | .unary op argument, h => by
      obtain ⟨hop, hlinear⟩ := Expr.isLinear_unary_iff.mp h
      obtain ⟨b, hb⟩ := exists_reduce? argument hlinear
      obtain ⟨c, hc⟩ := exists_scale? b (ExactScalar.neg (Denotes.one (α := α)))
      simp only [List.mem_cons, List.not_mem_nil, or_false] at hop
      rcases hop with rfl | rfl
      · exact ⟨b, by rw [reduce?, hb]; rfl⟩
      · exact ⟨c, by rw [reduce?, hb]; exact hc⟩
  | .binary op left right, h => by
      obtain ⟨hop, hlinear, hlinear', hproduct, hquotient⟩ := Expr.isLinear_binary_iff.mp h
      obtain ⟨a, ha⟩ := exists_reduce? left hlinear
      obtain ⟨b, hb⟩ := exists_reduce? right hlinear'
      obtain ⟨htracks, -⟩ := tracks_of_reduce? left ha
      obtain ⟨htracks', -⟩ := tracks_of_reduce? right hb
      simp only [List.mem_cons, List.not_mem_nil, or_false] at hop
      rcases hop with rfl | rfl | rfl | rfl
      · exact ⟨_, by rw [reduce?, ha, hb]; rfl⟩
      · exact ⟨_, by rw [reduce?, ha, hb]; rfl⟩
      · obtain ⟨c, hc⟩ := htracks.exists_mul? htracks' (hproduct rfl)
        exact ⟨c, by rw [reduce?, ha, hb]; exact hc⟩
      · obtain ⟨hnone, hdivisor⟩ := hquotient rfl
        obtain ⟨c, hc⟩ := htracks'.exists_div? (a := a) hnone hdivisor
        exact ⟨c, by rw [reduce?, ha, hb]; exact hc⟩
  | .choice _ _ _, h => h.arithmetic.elim
  | .call _ _, h => h.arithmetic.elim

/-- **The expressions that have an affine form** are the linear ones: those made of finite numbers,
names, signs and the four operations of arithmetic, in which no product has unknowns on both sides
and every divisor is free of unknowns and has a value of at least `10⁻¹⁰` in magnitude. -/
theorem isSome_ofExpr?_iff (e : Expr α) : (ofExpr? e).isSome = true ↔ e.IsLinear := by
  rw [ofExpr?, Option.isSome_map, Option.isSome_iff_exists]
  constructor
  · rintro ⟨a, ha⟩
    exact (tracks_of_reduce? e ha).2
  · exact exists_reduce? e

/-- A divisor may be computed from named constants, and `A` still counts where it cancels. A number
that is not finite is in no affine form, and a tiny one in no divisor. -/
theorem isSome_ofExpr?_iff_cancelled :
    letI : Elementary PartialRat := ⟨fun x _ => x, fun x _ => x, id, id, id, id⟩
    ExactScalar PartialRat ∧ ∃ linear product quotient : Expr PartialRat,
      Expr.parse "+A/(PI - E*2) - 3*(A - A)" = .ok linear ∧ linear.IsLinear ∧
      Expr.parse "(A - A)*B" = .ok product ∧ ¬ product.IsLinear ∧
      Expr.parse "A/(1/100000000000)" = .ok quotient ∧ ¬ quotient.IsLinear ∧
      ¬ (Expr.binary "+" linear (.literal .undefined "inf")).IsLinear := by
  let operations : Elementary PartialRat := ⟨fun x _ => x, fun x _ => x, id, id, id, id⟩
  have hlinear : (Expr.parse "+A/(PI - E*2) - 3*(A - A)" :
      Except SyntaxError (Expr PartialRat)).toOption.map (fun e => ((ofExpr? e).isSome,
        (ofExpr? (Expr.binary "+" e (.literal .undefined "inf"))).isSome)) =
      some (true, false) := by
    decide +kernel
  have hproduct : (Expr.parse "(A - A)*B" :
      Except SyntaxError (Expr PartialRat)).toOption.map (fun e => (ofExpr? e).isSome) =
      some false := by
    decide +kernel
  have hquotient : (Expr.parse "A/(1/100000000000)" :
      Except SyntaxError (Expr PartialRat)).toOption.map (fun e => (ofExpr? e).isSome) =
      some false := by
    decide +kernel
  obtain ⟨linear, hparsed, hform⟩ := exists_of_toOption_map hlinear
  obtain ⟨product, hparsed', hform'⟩ := exists_of_toOption_map hproduct
  obtain ⟨quotient, hparsed'', hform''⟩ := exists_of_toOption_map hquotient
  simp only [Prod.mk.injEq] at hform
  refine ⟨inferInstance, linear, product, quotient, hparsed, ?_, hparsed', ?_, hparsed'', ?_, ?_⟩
  · exact (isSome_ofExpr?_iff linear).mp hform.1
  · rw [← isSome_ofExpr?_iff, hform']
    exact Bool.false_ne_true
  · rw [← isSome_ofExpr?_iff, hform'']
    exact Bool.false_ne_true
  · rw [← isSome_ofExpr?_iff, hform.2]
    exact Bool.false_ne_true

end Affine

end CausalEquations
