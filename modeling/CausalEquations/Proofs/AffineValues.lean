import CausalEquations.Expr.Evaluation
import CausalEquations.Proofs.AffineRoundTrip
import Mathlib.Algebra.Order.BigOperators.Group.List

/-!
# The value of an affine form

In the rationals an expression that can be reduced has the value of the reduced form, whatever its
names stand for: affine forms are added, scaled and divided as their values are, and a divisor is a
constant other than zero. Only the negligible terms, which are dropped in the end, change the value,
each of them by little compared with what its variable stands for.

* `Expr.unknowns`, `Expr.DividesWell` — the names in an expression, and its divisions.
* `Affine.total` — the value of an affine form, as a sum over its entries.
* `Affine.evaluate_of_reduce?` — reducing an expression preserves its value.
* `Affine.abs_total_sub_normalize_le` — what the terms that are dropped make of it.
* `Affine.evaluate_near_affine` — the value of an expression and of its affine form.
-/

namespace CausalEquations

/-! ## Names and divisions in an expression -/

namespace Expr

variable {α : Type}

/-- The names that stand for different values in different scopes, each once. -/
def unknowns (e : Expr α) : List Name :=
  (e.identifiers.filter fun name => (Constant.ofName? name).isNone).eraseDups

mutual

/-- The right operands of all divisions in an expression. -/
def divisors : Expr α → List (Expr α)
  | literal _ _ => []
  | identifier _ => []
  | unary _ a => a.divisors
  | binary op a b => a.divisors ++ b.divisors ++ if op = "/" then [b] else []
  | choice t a b => t.divisors ++ a.divisors ++ b.divisors
  | call _ args => divisorsOfList args

/-- The right operands of all divisions in a list of arguments. -/
def divisorsOfList : List (Expr α) → List (Expr α)
  | [] => []
  | a :: rest => a.divisors ++ divisorsOfList rest

end

variable [Elementary ℚ]

/-- Every divisor in the expression has a value, and it is not zero. -/
def DividesWell (scope : Scope ℚ) (e : Expr ℚ) : Prop :=
  ∀ d ∈ e.divisors, ∃ x, d.evaluate .single scope = .ok x ∧ x ≠ 0

end Expr

namespace Affine

variable {a b c : Affine ℚ} (env : Name → ℚ)

/-! ## Sums over terms -/

/-- The sum of the terms, with the given values of the variables. -/
def termSum (terms : List (Name × ℚ)) : ℚ := (terms.map fun e => e.2 * env e.1).sum

/-- The value of an affine form. -/
def total (a : Affine ℚ) : ℚ := a.constant + termSum env a.terms.entries

@[simp] lemma termSum_nil : termSum env [] = 0 := rfl

@[simp] lemma termSum_cons (e : Name × ℚ) (rest : List (Name × ℚ)) :
    termSum env (e :: rest) = e.2 * env e.1 + termSum env rest := by
  simp [termSum]

/-- A coefficient that is set changes the sum by what it changes itself. -/
lemma termSum_put (key : Name) (value : ℚ) (terms : List (Name × ℚ)) :
    termSum env (Table.put key value terms) =
      termSum env terms + (value - (Table.lookup key terms).getD 0) * env key := by
  induction terms with
  | nil => simp [Table.put, Table.lookup]
  | cons e rest ih =>
      obtain ⟨name, coefficient⟩ := e
      by_cases hname : name = key
      · subst hname
        simp only [Table.put, Table.lookup, if_true, termSum_cons, Option.getD_some]
        ring
      · simp only [Table.put, Table.lookup, hname, if_false, termSum_cons, ih]
        ring

/-- Terms that are added or subtracted one by one are added or subtracted all together. -/
lemma termSum_foldl_combineStep {op : ℚ → ℚ → ℚ} {sign : ℚ} (hop : ∀ x y, op x y = x + sign * y)
    (terms : List (Name × ℚ)) (s : Table ℚ × List Name) :
    termSum env (terms.foldl (combineStep op) s).1.entries =
      termSum env s.1.entries + sign * termSum env terms := by
  induction terms generalizing s with
  | nil => simp
  | cons e rest ih =>
      have hstep : termSum env (combineStep op s e).1.entries =
          termSum env s.1.entries + sign * (e.2 * env e.1) := by
        have hput : (combineStep op s e).1.entries =
            Table.put e.1 (op ((Table.lookup e.1 s.1.entries).getD 0) e.2) s.1.entries := rfl
        rw [hput, termSum_put, hop]
        ring
      rw [List.foldl_cons, ih, hstep, termSum_cons]
      ring

/-! ## The operations on affine forms -/

lemma total_combine {op : ℚ → ℚ → ℚ} {sign : ℚ} (hop : ∀ x y, op x y = x + sign * y)
    (a b : Affine ℚ) : (combine op a b).total env = a.total env + sign * b.total env := by
  have hterms := termSum_foldl_combineStep env hop b.terms.entries (a.terms, a.order)
  have htotal : (combine op a b).total env = op a.constant b.constant +
      termSum env (b.terms.entries.foldl (combineStep op) (a.terms, a.order)).1.entries := rfl
  rw [htotal, hterms, hop, total, total]
  ring

lemma total_scale? {factor : ℚ} (h : a.scale? factor = some b) :
    b.total env = a.total env * factor := by
  cases h
  have hterms : ∀ terms : List (Name × ℚ),
      termSum env (terms.map fun e => (e.1, e.2 * factor)) = termSum env terms * factor := by
    intro terms
    induction terms with
    | nil => simp
    | cons e rest ih =>
        rw [List.map_cons, termSum_cons, termSum_cons, ih]
        ring
  show a.constant * factor + termSum env (a.terms.entries.map fun e => (e.1, e.2 * factor)) = _
  rw [hterms, total]
  ring

/-- Without terms only the constant counts. -/
lemma total_of_hasTerms_eq_false (h : a.hasTerms = false) : a.total env = a.constant := by
  have hentries : a.terms.entries = [] := by simpa [hasTerms, Table.keys] using h
  rw [total, hentries, termSum_nil, add_zero]

lemma total_ofConstant (x : ℚ) : (ofConstant x).total env = x :=
  total_of_hasTerms_eq_false env rfl

lemma total_ofVariable (name : Name) : (ofVariable name : Affine ℚ).total env = env name := by
  show (0 : ℚ) + (1 * env name + 0) = env name
  ring

lemma total_mul? (h : a.mul? b = some c) : c.total env = a.total env * b.total env := by
  rcases mul?_cases h with ⟨hb, hscale⟩ | ⟨ha, hscale⟩ | ⟨ha, hb, rfl⟩
  · rw [total_scale? env hscale, total_of_hasTerms_eq_false env hb]
  · rw [total_scale? env hscale, total_of_hasTerms_eq_false env ha, mul_comm]
  · rw [total_ofConstant, total_of_hasTerms_eq_false env ha, total_of_hasTerms_eq_false env hb]

/-- A divisor is a constant other than zero. -/
lemma total_div? (h : a.div? b = some c) :
    c.total env = a.total env / b.total env ∧ b.total env ≠ 0 := by
  obtain ⟨hterms, hlarge, hscale⟩ := div?_cases h
  rw [negligible_iff, not_lt] at hlarge
  rw [total_of_hasTerms_eq_false env hterms]
  constructor
  · rw [total_scale? env hscale]
    show a.total env * (1 / b.constant) = _
    ring
  · rintro hzero
    rw [hzero, abs_zero] at hlarge
    exact absurd hlarge (by norm_num)

end Affine

/-! ## Reducing preserves values -/

section

variable {α : Type} [Scalar α] [Elementary α] {scope : Scope α} {e e' : Expr α} {x y : α}

lemma Expr.evaluate_unary {op : String} (meaning : UnaryOp)
    (hop : UnaryOp.ofSymbol? op = some meaning) (h : e.evaluate .single scope = .ok x) :
    (Expr.unary op e).evaluate .single scope = .ok (meaning.apply x) := by
  rw [Expr.evaluate, hop]
  simp only [h]
  rfl

lemma Expr.evaluate_binary {op : String} (meaning : BinaryOp)
    (hop : BinaryOp.ofSymbol? op = some meaning) (h : e.evaluate .single scope = .ok x)
    (h' : e'.evaluate .single scope = .ok y) :
    (Expr.binary op e e').evaluate .single scope = .ok (meaning.apply x y) := by
  rw [Expr.evaluate, hop]
  simp only [h, h']
  rfl

end

section

variable [Elementary ℚ] {scope : Scope ℚ} {e e' : Expr ℚ}

lemma Expr.DividesWell.binary {op : String} (h : e.DividesWell scope) (h' : e'.DividesWell scope)
    (hop : op = "/" → ∃ x, e'.evaluate .single scope = .ok x ∧ x ≠ 0) :
    (Expr.binary op e e').DividesWell scope := by
  intro d hd
  simp only [Expr.divisors, List.mem_append] at hd
  rcases hd with (hd | hd) | hd
  · exact h d hd
  · exact h' d hd
  · split at hd
    · rename_i hdivides
      obtain rfl := List.mem_singleton.mp hd
      exact hop hdivides
    · cases hd

/-- **Reducing an expression preserves its value**, and nothing is divided by zero on the way. -/
theorem Affine.evaluate_of_reduce? (scope : Scope ℚ) : ∀ (e : Expr ℚ) {a : Affine ℚ},
    reduce? e = some a →
      e.evaluate .single scope = .ok (a.total (scope.resolve .single)) ∧ e.DividesWell scope
  | .literal value raw, a, h => by
      cases h
      refine ⟨congrArg Except.ok (total_ofConstant _ value).symm, ?_⟩
      simp [Expr.DividesWell, Expr.divisors]
  | .identifier name, a, h => by
      refine ⟨?_, by simp [Expr.DividesWell, Expr.divisors]⟩
      rw [reduce?] at h
      rw [Expr.evaluate]
      cases hconstant : Constant.ofName? name with
      | some c =>
          rw [hconstant] at h
          cases h
          rw [total_ofConstant, Scope.resolve, hconstant]
          rfl
      | none =>
          rw [hconstant] at h
          cases h
          rw [total_ofVariable]
  | .unary op argument, a, h => by
      obtain ⟨b, hb, hsign⟩ := reduce?_unary_cases h
      obtain ⟨hvalue, hwell⟩ := evaluate_of_reduce? scope argument hb
      refine ⟨?_, hwell⟩
      rcases hsign with ⟨rfl, rfl⟩ | ⟨rfl, hscale⟩
      · exact Expr.evaluate_unary .plus rfl hvalue
      · have htotal : a.total (scope.resolve .single) = b.total (scope.resolve .single) * -1 :=
          total_scale? _ hscale
        rw [Expr.evaluate_unary .minus rfl hvalue, htotal, mul_neg_one]
        rfl
  | .binary op left right, c, h => by
      obtain ⟨a, b, ha, hb, hjoin⟩ := reduce?_binary_cases h
      obtain ⟨hleft, hwell⟩ := evaluate_of_reduce? scope left ha
      obtain ⟨hright, hwell'⟩ := evaluate_of_reduce? scope right hb
      rcases hjoin with ⟨rfl, rfl⟩ | ⟨rfl, rfl⟩ | ⟨rfl, hmul⟩ | ⟨rfl, hdiv⟩
      · have hop (x y : ℚ) : x + y = x + 1 * y := by rw [one_mul]
        refine ⟨?_, hwell.binary hwell' (by simp)⟩
        rw [Expr.evaluate_binary .add rfl hleft hright,
          total_combine _ hop, one_mul]
        rfl
      · have hop (x y : ℚ) : x - y = x + -1 * y := by rw [neg_one_mul, ← sub_eq_add_neg]
        refine ⟨?_, hwell.binary hwell' (by simp)⟩
        rw [Expr.evaluate_binary .sub rfl hleft hright,
          total_combine _ hop, neg_one_mul, ← sub_eq_add_neg]
        rfl
      · refine ⟨?_, hwell.binary hwell' (by simp)⟩
        rw [Expr.evaluate_binary .mul rfl hleft hright, total_mul? _ hmul]
        rfl
      · obtain ⟨htotal, hdivisor⟩ := total_div? (scope.resolve .single) hdiv
        refine ⟨?_, hwell.binary hwell' fun _ => ⟨_, hright, hdivisor⟩⟩
        rw [Expr.evaluate_binary .div rfl hleft hright, htotal]
        rfl
  | .choice t a b, _, h => nomatch (reduce?_choice t a b).symm.trans h
  | .call f args, _, h => nomatch (reduce?_call f args).symm.trans h

end

/-! ## Dropping negligible terms -/

namespace Affine

/-- A negligible term is small, compared with what its variable stands for. -/
lemma abs_termSum_sub_filter_le (env : Name → ℚ) (terms : List (Name × ℚ)) :
    |termSum env terms - termSum env (terms.filter fun e => !negligible e.2)| ≤
      1 / 10 ^ 10 * (terms.map fun e => |env e.1|).sum := by
  induction terms with
  | nil => simp
  | cons e rest ih =>
      rw [List.map_cons, List.sum_cons, mul_add]
      cases hdrop : negligible e.2 with
      | false =>
          have hkeep : 0 ≤ 1 / 10 ^ 10 * |env e.1| := by positivity
          rw [List.filter_cons_of_pos (by simp [hdrop]), termSum_cons, termSum_cons,
            add_sub_add_left_eq_sub]
          linarith
      | true =>
          have hterm : |e.2 * env e.1| ≤ 1 / 10 ^ 10 * |env e.1| := by
            rw [abs_mul]
            exact mul_le_mul_of_nonneg_right (negligible_iff.mp hdrop).le (abs_nonneg _)
          rw [List.filter_cons_of_neg (by simp [hdrop]), termSum_cons, add_sub_assoc]
          calc |e.2 * env e.1 + (termSum env rest - _)|
              ≤ |e.2 * env e.1| + |termSum env rest - _| := abs_add_le _ _
            _ ≤ 1 / 10 ^ 10 * |env e.1| + 1 / 10 ^ 10 * (rest.map fun e => |env e.1|).sum :=
                add_le_add hterm ih

/-- **How much the terms that are dropped can change the value.** -/
theorem abs_total_sub_normalize_le (env : Name → ℚ) (a : Affine ℚ) :
    |a.total env - a.normalize.total env| ≤
      1 / 10 ^ 10 * (a.terms.keys.map fun name => |env name|).sum := by
  have hnormalize : a.normalize.total env =
      a.constant + termSum env (a.terms.entries.filter fun e => !negligible e.2) := rfl
  rw [hnormalize, total, add_sub_add_left_eq_sub, Table.keys, List.map_map]
  exact abs_termSum_sub_filter_le env a.terms.entries

/-- The value of an affine form, as the sum over its variables in their order. -/
lemma total_eq_of_order {a : Affine ℚ} (env : Name → ℚ) (h : a.order = a.terms.keys) :
    a.total env =
      a.constant + (a.order.map fun name => a.coefficient name * env name).sum := by
  rw [total, h, Table.keys, List.map_map, termSum]
  refine congrArg (fun terms => a.constant + List.sum terms) (List.map_congr_left fun e he => ?_)
  have hcoefficient : a.coefficient e.1 = e.2 := by
    rw [coefficient, Table.getD, Table.get?_of_mem he, Option.getD_some]
  rw [Function.comp_apply, hcoefficient]

/-- A sum of magnitudes over some of the names is at most the sum over all of them. -/
lemma sum_abs_le_of_subset {names names' : List Name} (env : Name → ℚ) (hnames : names.Nodup)
    (hsub : names ⊆ names') :
    (names.map fun name => |env name|).sum ≤ (names'.map fun name => |env name|).sum := by
  obtain ⟨l, hperm, hsublist⟩ := List.subperm_of_subset hnames hsub
  rw [← (hperm.map _).sum_eq]
  refine (hsublist.map _).sum_le_sum fun x hx => ?_
  obtain ⟨name, -, rfl⟩ := List.mem_map.mp hx
  exact abs_nonneg _

/-- **The value of an expression and of its affine form.** An expression with an affine form has a
value in every scope, no division in it is by zero, and its value differs from that of the affine
form by at most `10⁻¹⁰` times the sum of the magnitudes of what its names stand for. The affine form
lists its terms in their order, each once. -/
theorem evaluate_near_affine [Elementary ℚ] {e : Expr ℚ} {s : Affine ℚ}
    (hs : ofExpr? e = some s) (scope : Scope ℚ) :
    (∃ value, e.evaluate .single scope = .ok value ∧
      |value - (s.constant +
          (s.order.map fun name => s.coefficient name * scope.resolve .single name).sum)| ≤
        1 / 10 ^ 10 * (e.unknowns.map fun name => |scope.resolve .single name|).sum) ∧
    e.DividesWell scope ∧ s.order = s.terms.keys ∧ s.order.Nodup := by
  obtain ⟨a, ha, rfl⟩ := Option.map_eq_some_iff.mp hs
  obtain ⟨hvalue, hwell⟩ := evaluate_of_reduce? scope e ha
  obtain ⟨hover, -⟩ := over_of_reduce? (p := fun name => name ∈ e.unknowns) e ha fun x hx hnone => by
    rw [Expr.unknowns, List.mem_eraseDups, List.mem_filter, hnone]
    exact ⟨hx, rfl⟩
  have horder : a.normalize.order = a.normalize.terms.keys := by
    refine (normal_normalize ?_).order_eq
    rw [hover.order_eq, filter_contains_keys]
  have hnames : a.terms.keys ⊆ e.unknowns := fun x hx => hover.property x (hover.order_eq ▸ hx)
  refine ⟨⟨_, hvalue, ?_⟩, hwell, horder, horder ▸ a.normalize.terms.nodup⟩
  rw [← total_eq_of_order _ horder]
  refine (abs_total_sub_normalize_le _ a).trans (mul_le_mul_of_nonneg_left ?_ (by norm_num))
  exact sum_abs_le_of_subset _ a.terms.nodup hnames

/-- The term of `B` is dropped, and noise is a term like any other: what is left has the value `1/4`
where `A` is 8, `B` is 2 and the noise is 1. -/
theorem evaluate_near_affine_noise :
    letI := unusedOperations
    let scope : Scope ℚ := ⟨Table.ofList [("A", 8), ("B", 2)], 1⟩
    ∃ (e : Expr ℚ) (s : Affine ℚ) (value : ℚ),
      Expr.parse "(A - 3)/(2 + 2) + 0.00000000001*B - error" = .ok e ∧ ofExpr? e = some s ∧
      s.order = ["A", "error"] ∧ e.evaluate .single scope = .ok value ∧
      |value - 1 / 4| ≤ 1 / 10 ^ 10 * 11 ∧ e.divisors ≠ [] ∧ e.DividesWell scope := by
  let operations : Elementary ℚ := unusedOperations
  intro scope
  have hparsed : (Expr.parse "(A - 3)/(2 + 2) + 0.00000000001*B - error" :
      Except SyntaxError (Expr ℚ)).toOption.map (fun e => (ofExpr? e).map fun s =>
        (s.order, s.constant +
            (s.order.map fun name => s.coefficient name * scope.resolve .single name).sum,
          (e.unknowns.map fun name => |scope.resolve .single name|).sum, e.divisors.length)) =
      some (some (["A", "error"], 1 / 4, 11, 1)) := by
    decide +kernel
  obtain ⟨e, he, hform⟩ := exists_of_toOption_map hparsed
  obtain ⟨s, hs, hvalues⟩ := Option.map_eq_some_iff.mp hform
  simp only [Prod.mk.injEq] at hvalues
  obtain ⟨horder, haffine, hsum, hdivisors⟩ := hvalues
  obtain ⟨⟨value, hvalue, hnear⟩, hwell, -⟩ := evaluate_near_affine hs scope
  rw [haffine, hsum] at hnear
  refine ⟨e, s, value, he, hs, horder, hvalue, hnear, ?_, hwell⟩
  rintro hnone
  rw [hnone] at hdivisors
  cases hdivisors

end Affine

end CausalEquations
