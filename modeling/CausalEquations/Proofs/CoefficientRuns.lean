import CausalEquations.Proofs.AffineRoundTrip

/-!
# Setting coefficients again and again

An affine form keeps its terms twice over, as a table and as an order. However often coefficients
are set, the two stay in step, no negligible term is left, and the last setting of a variable
decides. The order remembers when a term came in: a term that is removed and comes back stands
behind all that were there in the meantime.

* `IsSubstantial`, `negligible_eq_false_iff` — the numbers that are worth a term.
* `Affine.setCoefficients`, `Affine.removes` — a run of settings, and what it removes in between.
* `Affine.order_setCoefficient`, `Affine.order_setCoefficients` — the order after a setting, and
  after a run.
* `Affine.FollowsSettings`, `Affine.followsSettings_setCoefficients` — what a run makes of the
  affine form of an expression.
-/

namespace CausalEquations

variable {α : Type} [Scalar α]

/-- The number is finite, and its magnitude is at least `Scalar.epsilon`. -/
structure IsSubstantial (x : α) : Prop where
  finite : Scalar.isFinite x = true
  epsilon_le : Scalar.toRat (Scalar.epsilon : α) ≤ |Scalar.toRat x|

lemma negligible_eq_false_iff {x : α} : negligible x = false ↔ IsSubstantial x := by
  have hblt : Rat.blt |Scalar.toRat x| (Scalar.toRat (Scalar.epsilon : α)) = false ↔
      Scalar.toRat (Scalar.epsilon : α) ≤ |Scalar.toRat x| := by
    rw [← not_lt, ← Bool.not_eq_true]
    exact Iff.rfl
  rw [negligible, abs_eq_abs, Bool.or_eq_false_iff, Bool.not_eq_false', hblt]
  exact ⟨fun h => ⟨h.1, h.2⟩, fun h => ⟨h.1, h.2⟩⟩

namespace Affine

/-! ## One setting -/

variable {a : Affine α}

/-- A term that is removed leaves the order, and a new one goes behind the others. -/
lemma order_setCoefficient (h : a.Normal) (x : Name) (value : α) :
    (a.setCoefficient x value).order =
      if negligible value then a.order.filter (fun y => !(y == x))
      else if x ∈ a.order then a.order else a.order ++ [x] := by
  have horder : (a.setCoefficient x value).order =
      (if a.order.contains x then a.order else a.order ++ [x]).filter fun y =>
        (a.setCoefficient x value).terms.contains y := rfl
  have hkept : ∀ y, (a.setCoefficient x value).terms.contains y = true ↔
      if y = x then negligible value = false else y ∈ a.order := fun y => by
    rw [(normal_setCoefficient h x value).contains_iff, mem_order_setCoefficient h]
  rw [horder]
  by_cases hvalue : negligible value = true
  · have hold : ∀ y ∈ a.order, (a.setCoefficient x value).terms.contains y = !(y == x) := by
      intro y hy
      rw [Bool.eq_iff_iff, hkept]
      by_cases hyx : y = x <;> simp [hyx, hvalue, hy]
    have hnew : (a.setCoefficient x value).terms.contains x = false := by
      rw [← Bool.not_eq_true, hkept, if_pos rfl, hvalue]
      exact Bool.noConfusion
    rw [if_pos hvalue, ← List.filter_congr hold]
    split
    · rfl
    · rw [List.filter_append, List.filter_singleton, hnew, cond_false, List.append_nil]
  · have hall : ∀ y, y = x ∨ y ∈ a.order → (a.setCoefficient x value).terms.contains y = true := by
      intro y hy
      rw [hkept]
      split
      · simpa using hvalue
      · exact hy.resolve_left ‹_›
    rw [if_neg hvalue]
    simp only [List.contains_iff_mem]
    refine List.filter_eq_self.mpr fun y hy => hall y ?_
    split at hy
    · exact .inr hy
    · simpa [or_comm] using hy

/-- What one setting makes of an order that consists of old terms that have not been removed and of
terms that have come in. -/
lemma exists_order_setCoefficient (h : a.Normal) (y : Name) (value : α) {old added : List Name}
    {removed : Name → Bool} (horder : a.order = old.filter (fun x => !removed x) ++ added)
    (hadded : ∀ x ∈ added, x ∈ old → removed x = true) :
    ∃ added', (a.setCoefficient y value).order =
        old.filter (fun x => !(removed x || y == x && negligible value)) ++ added' ∧
      ∀ x ∈ added', x ∈ old → (removed x || y == x && negligible value) = true := by
  rw [order_setCoefficient h, horder]
  by_cases hvalue : negligible value = true
  · refine ⟨added.filter fun x => !(x == y), ?_, fun x hx hold => ?_⟩
    · rw [if_pos hvalue, List.filter_append, List.filter_filter]
      refine congrArg (· ++ _) (List.filter_congr fun x _ => ?_)
      rw [hvalue, Bool.and_true, Bool.not_or, Bool.and_comm, BEq.comm]
    · rw [hadded x (List.mem_of_mem_filter hx) hold, Bool.true_or]
  · rw [if_neg hvalue]
    simp only [Bool.eq_false_of_not_eq_true hvalue, Bool.and_false, Bool.or_false]
    split
    · exact ⟨added, rfl, hadded⟩
    · rename_i hnew
      refine ⟨added ++ [y], List.append_assoc _ _ _, fun x hx hold => ?_⟩
      rcases List.mem_append.mp hx with hx | hx
      · exact hadded x hx hold
      · -- a variable that comes back has been removed before
        obtain rfl := List.mem_singleton.mp hx
        rw [List.mem_append, not_or, List.mem_filter] at hnew
        simpa [hold] using hnew.1

/-- An edit leaves the constant, unless that is neither finite nor zero. -/
lemma constant_setCoefficient (x : Name) (value : α) :
    (a.setCoefficient x value).constant = finiteOrZero a.constant := rfl

lemma finiteOrZero_finiteOrZero (q : α) : finiteOrZero (finiteOrZero q) = finiteOrZero q := by
  unfold finiteOrZero
  split
  · rfl
  · split <;> rfl

/-! ## Runs -/

/-- Sets coefficients one after the other. -/
def setCoefficients (a : Affine α) (settings : List (Name × α)) : Affine α :=
  settings.foldl (fun a s => a.setCoefficient s.1 s.2) a

/-- Some setting gives the variable a negligible coefficient, which removes its term. -/
def removes (settings : List (Name × α)) (x : Name) : Bool :=
  settings.any fun s => s.1 == x && negligible s.2

/-- A form with nothing left to drop. -/
structure Settled (a : Affine α) : Prop where
  normal : a.Normal
  constant_eq : finiteOrZero a.constant = a.constant

lemma settled_of_ofExpr? {e : Expr α} (h : ofExpr? e = some a) : a.Settled where
  normal := (normal_of_ofExpr? (p := fun _ => True) h fun _ _ _ => trivial).1
  constant_eq := by
    obtain ⟨b, -, rfl⟩ := Option.map_eq_some_iff.mp h
    exact finiteOrZero_finiteOrZero b.constant

namespace Settled

lemma constant_setCoefficient (h : a.Settled) (x : Name) (value : α) :
    (a.setCoefficient x value).constant = a.constant :=
  (Affine.constant_setCoefficient x value).trans h.constant_eq

/-- What one setting preserves. -/
lemma setCoefficient (h : a.Settled) (x : Name) (value : α) : (a.setCoefficient x value).Settled where
  normal := normal_setCoefficient h.normal x value
  constant_eq := finiteOrZero_finiteOrZero a.constant

variable {settings : List (Name × α)}

/-- What a run preserves. -/
lemma setCoefficients (h : a.Settled) (settings : List (Name × α)) :
    (a.setCoefficients settings).Settled ∧
      (a.setCoefficients settings).constant = a.constant := by
  induction settings generalizing a with
  | nil => exact ⟨h, rfl⟩
  | cons s rest ih =>
      obtain ⟨hsettled, hconstant⟩ := ih (h.setCoefficient s.1 s.2)
      exact ⟨hsettled, hconstant.trans (h.constant_setCoefficient s.1 s.2)⟩

/-- A variable that is not set keeps its coefficient. -/
lemma get?_setCoefficients (h : a.Settled) {x : Name} (hx : x ∉ settings.map Prod.fst) :
    (a.setCoefficients settings).terms.get? x = a.terms.get? x := by
  induction settings generalizing a with
  | nil => rfl
  | cons s rest ih =>
      rw [List.map_cons, List.mem_cons, not_or] at hx
      have hrest := ih (h.setCoefficient s.1 s.2) hx.2
      rwa [get?_setCoefficient h.normal, if_neg hx.1] at hrest

/-- **The order after a run**: first the terms that have been there all along, as they stood, and
then those that have come in. -/
theorem order_setCoefficients (h : a.Settled) (settings : List (Name × α)) :
    ∃ added, (a.setCoefficients settings).order =
        a.order.filter (fun x => !removes settings x) ++ added ∧
      ∀ x ∈ added, x ∈ a.order → removes settings x = true := by
  induction settings using List.reverseRecOn with
  | nil => exact ⟨[], by simp [Affine.setCoefficients, removes], by simp⟩
  | append_singleton settings s ih =>
      obtain ⟨added, horder, hadded⟩ := ih
      have hstep : (a.setCoefficients (settings ++ [s])).order =
          ((a.setCoefficients settings).setCoefficient s.1 s.2).order := by
        rw [Affine.setCoefficients, List.foldl_concat]
        rfl
      have hremoves : ∀ x, removes (settings ++ [s]) x =
          (removes settings x || s.1 == x && negligible s.2) := by
        simp [removes]
      simp only [hstep, hremoves]
      exact exists_order_setCoefficient (h.setCoefficients settings).1.normal s.1 s.2 horder hadded

end Settled

/-- What a run of settings makes of a form. -/
structure FollowsSettings (a : Affine α) (settings : List (Name × α)) (b : Affine α) : Prop where
  /-- The order lists the variables with a term. -/
  order_eq : b.order = b.terms.keys
  nodup : b.order.Nodup
  substantial : ∀ x value, b.terms.get? x = some value → IsSubstantial value
  constant_eq : b.constant = a.constant
  /-- The last setting of a variable decides. -/
  last : ∀ x value earlier later, settings = earlier ++ (x, value) :: later →
    x ∉ later.map Prod.fst →
      (IsSubstantial value → b.coefficient x = value) ∧
        (¬ IsSubstantial value → b.coefficient x = Scalar.zero)
  untouched : ∀ x, x ∉ settings.map Prod.fst → b.coefficient x = a.coefficient x
  /-- From any moment on, the terms that are never removed stay in order, and in front of those that
  come in or come back. -/
  order_later : ∀ earlier later, settings = earlier ++ later →
    ∃ added, b.order =
        (a.setCoefficients earlier).order.filter (fun x => !removes later x) ++ added ∧
      ∀ x ∈ added, x ∈ (a.setCoefficients earlier).order → removes later x = true

/-- **Runs of settings.** However often coefficients of the affine form of an expression are set, the
form stays in good order, and every variable has the coefficient that it was given last. -/
theorem followsSettings_setCoefficients {e : Expr α} (h : ofExpr? e = some a)
    (settings : List (Name × α)) : FollowsSettings a settings (a.setCoefficients settings) := by
  have hstart := settled_of_ofExpr? h
  have hsplit : ∀ earlier later : List (Name × α), a.setCoefficients (earlier ++ later) =
      (a.setCoefficients earlier).setCoefficients later := fun _ _ => List.foldl_append
  obtain ⟨hsettled, hconstant⟩ := hstart.setCoefficients settings
  constructor
  case order_eq => exact hsettled.normal.order_eq
  case nodup =>
    rw [hsettled.normal.order_eq]
    exact (a.setCoefficients settings).terms.nodup
  case substantial =>
    intro x value hvalue
    exact negligible_eq_false_iff.mp (hsettled.normal.significant x value hvalue)
  case constant_eq => exact hconstant
  case last =>
    rintro x value earlier later rfl hlater
    have hbefore := (hstart.setCoefficients earlier).1
    have hget : (a.setCoefficients (earlier ++ (x, value) :: later)).terms.get? x =
        if negligible value then none else some value := by
      rw [hsplit]
      have hrest := (hbefore.setCoefficient x value).get?_setCoefficients hlater
      rwa [get?_setCoefficient hbefore.normal, if_pos rfl] at hrest
    rw [coefficient, Table.getD, hget, ← negligible_eq_false_iff, Bool.not_eq_false]
    exact ⟨fun hvalue => by rw [hvalue]; rfl, fun hvalue => by rw [hvalue]; rfl⟩
  case untouched =>
    intro x hx
    rw [coefficient, coefficient, Table.getD, Table.getD, hstart.get?_setCoefficients hx]
  case order_later =>
    rintro earlier later rfl
    rw [hsplit]
    exact (hstart.setCoefficients earlier).1.order_setCoefficients later

/-- `B` is removed and comes back behind `D`, which has come in meanwhile; `C` is removed by a
number that is too small. -/
theorem followsSettings_setCoefficients_back :
    ∃ (e : Expr ℚ) (a : Affine ℚ), Expr.parse "A + 2*B - C" = .ok e ∧ ofExpr? e = some a ∧
      a.order = ["A", "B", "C"] ∧
      let settings := [("B", 0), ("D", 4), ("B", 7), ("C", 1 / 10 ^ 11), ("A", -3)]
      (a.setCoefficients settings).order = ["A", "D", "B"] ∧
        FollowsSettings a settings (a.setCoefficients settings) ∧
        (a.setCoefficients settings).coefficient "B" = 7 := by
  have hparsed : (Expr.parse "A + 2*B - C" : Except SyntaxError (Expr ℚ)).toOption.map
      (fun e => (ofExpr? e).map fun a => (a.order, (a.setCoefficients
        [("B", 0), ("D", 4), ("B", 7), ("C", 1 / 10 ^ 11), ("A", -3)]).order)) =
      some (some (["A", "B", "C"], ["A", "D", "B"])) := by
    decide +kernel
  obtain ⟨e, he, hform⟩ := exists_of_toOption_map hparsed
  obtain ⟨a, ha, horders⟩ := Option.map_eq_some_iff.mp hform
  rw [Prod.mk.injEq] at horders
  have hfollows := followsSettings_setCoefficients ha
    [("B", 0), ("D", 4), ("B", 7), ("C", 1 / 10 ^ 11), ("A", -3)]
  refine ⟨e, a, he, ha, horders.1, horders.2, hfollows, ?_⟩
  have hseven : IsSubstantial (7 : ℚ) := negligible_eq_false_iff.mp (by decide +kernel)
  exact (hfollows.last "B" 7 [("B", 0), ("D", 4)] [("C", 1 / 10 ^ 11), ("A", -3)] rfl
    (by decide)).1 hseven

end Affine

end CausalEquations
