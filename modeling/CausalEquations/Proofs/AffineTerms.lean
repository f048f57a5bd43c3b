import CausalEquations.Affine
import CausalEquations.Proofs.Calls
import CausalEquations.Proofs.Tables

/-!
# The terms of an affine form

The affine form of an expression is put together from constants and variables, and only the
variables of the expression ever get a term. Along the way the order lists exactly the variables
that have a term, and in the end the terms that are left are those worth writing.

* `Affine.mul?_cases`, `Affine.reduce?_binary_cases` — how a form is reduced, one step at a time.
* `Assembled`, `Affine.over_of_reduce?` — how the terms of an affine form come about.
* `Affine.Normal`, `Affine.normal_of_ofExpr?` — what is left in the end.
* `Affine.get?_setCoefficient`, `Affine.mem_order_setCoefficient` — one coefficient after an edit.
-/

namespace CausalEquations

variable {α : Type}

/-! ## How a form is reduced -/

namespace Affine

variable [Scalar α] {a b c : Affine α}

/-- Scaling changes the coefficients and the constant. -/
lemma scale?_cases {factor : α} (h : a.scale? factor = some b) :
    b.terms = a.terms.map (fun _ x => x * factor) ∧ b.order = a.order ∧
      b.constant = finiteOrZero (a.constant * factor) := by
  rw [scale?] at h
  split at h
  · cases h
    exact ⟨rfl, rfl, rfl⟩
  · cases h

/-- A product scales the side with terms, if there is one. -/
lemma mul?_cases (h : a.mul? b = some c) :
    (b.hasTerms = false ∧ a.scale? b.constant = some c) ∨
      (a.hasTerms = false ∧ b.scale? a.constant = some c) ∨
        a.hasTerms = false ∧ b.hasTerms = false ∧ c = ofConstant (a.constant * b.constant) := by
  rw [mul?] at h
  split at h
  · cases h
  rename_i hboth
  split at h
  · rename_i ha
    exact .inl ⟨by simpa [ha] using hboth, h⟩
  rename_i ha
  rw [Bool.not_eq_true] at ha
  split at h
  · exact .inr (.inl ⟨ha, h⟩)
  · rename_i hb
    rw [Bool.not_eq_true] at hb
    exact .inr (.inr ⟨ha, hb, (Option.some.inj h).symm⟩)

/-- A quotient scales by the inverse of a constant that is not negligible. -/
lemma div?_cases (h : a.div? b = some c) : b.hasTerms = false ∧ ¬ negligible b.constant = true ∧
    a.scale? (Scalar.one / b.constant) = some c := by
  rw [div?] at h
  split at h
  · cases h
  · rename_i hdivisor
    rw [Bool.or_eq_true, not_or, Bool.not_eq_true] at hdivisor
    exact ⟨hdivisor.1, hdivisor.2, h⟩

/-- Conditional expressions and calls have no affine form. -/
lemma reduce?_choice (t a b : Expr α) : reduce? (.choice t a b) = none := by
  rw [reduce?] <;> simp

lemma reduce?_call (f : Expr α) (args : List (Expr α)) : reduce? (.call f args) = none := by
  rw [reduce?] <;> simp

/-- What the affine form of a signed expression is. -/
lemma reduce?_unary_cases {op : String} {e : Expr α} (h : reduce? (.unary op e) = some a) :
    ∃ b, reduce? e = some b ∧
      ((op = "+" ∧ a = b) ∨ (op = "-" ∧ b.scale? (-Scalar.one) = some a)) := by
  rw [reduce?] at h
  obtain ⟨b, hb, hsign⟩ := Option.bind_eq_some_iff.mp h
  refine ⟨b, hb, ?_⟩
  split at hsign
  · rename_i hop
    exact .inl ⟨hop, (Option.some.inj hsign).symm⟩
  · split at hsign
    · rename_i hop
      exact .inr ⟨hop, hsign⟩
    · cases hsign

/-- What the affine form of two expressions with an operator between them is. -/
lemma reduce?_binary_cases {op : String} {left right : Expr α}
    (h : reduce? (.binary op left right) = some c) :
    ∃ a b, reduce? left = some a ∧ reduce? right = some b ∧
      ((op = "+" ∧ c = combine (· + ·) a b) ∨ (op = "-" ∧ c = combine (· - ·) a b) ∨
        (op = "*" ∧ a.mul? b = some c) ∨ (op = "/" ∧ a.div? b = some c)) := by
  rw [reduce?] at h
  obtain ⟨a, ha, h⟩ := Option.bind_eq_some_iff.mp h
  obtain ⟨b, hb, hjoin⟩ := Option.bind_eq_some_iff.mp h
  refine ⟨a, b, ha, hb, ?_⟩
  split at hjoin
  · rename_i hop
    exact .inl ⟨hop, (Option.some.inj hjoin).symm⟩
  · split at hjoin
    · rename_i hop
      exact .inr (.inl ⟨hop, (Option.some.inj hjoin).symm⟩)
    · split at hjoin
      · rename_i hop
        exact .inr (.inr (.inl ⟨hop, hjoin⟩))
      · split at hjoin
        · rename_i hop
          exact .inr (.inr (.inr ⟨hop, hjoin⟩))
        · cases hjoin

end Affine

/-! ## Putting terms together -/

/-- A new term comes last, and one that is there keeps its place. -/
def extendOrder (terms : Table α) (order : List Name) (name : Name) : List Name :=
  if terms.contains name then order else order ++ [name]

/-- The terms and their order come about by giving coefficients to variables with the property, one
after the other, and by changing all coefficients at once. -/
inductive Assembled (p : Name → Prop) : Table α → List Name → Prop where
  | empty : Assembled p Table.empty []
  | insert {terms : Table α} {order : List Name} {name : Name} (value : α) : p name →
      Assembled p terms order → Assembled p (terms.insert name value) (extendOrder terms order name)
  | map {terms : Table α} {order : List Name} (f : Name → α → α) :
      Assembled p terms order → Assembled p (terms.map f) order

namespace Assembled

variable {p : Name → Prop} {terms : Table α} {order : List Name}

/-- The order lists the variables with a term. -/
lemma order_eq (h : Assembled p terms order) : order = terms.keys := by
  induction h with
  | empty => rfl
  | @insert terms order name value _ _ ih =>
      subst ih
      by_cases hname : name ∈ terms.keys <;>
        simp [extendOrder, Table.keys_insert, Table.contains_iff_mem_keys, hname]
  | map f _ ih => rw [Table.keys_map, ih]

/-- All of them have the property. -/
lemma property (h : Assembled p terms order) : ∀ x ∈ order, p x := by
  induction h with
  | empty => simp
  | @insert terms order name value hname _ ih =>
      unfold extendOrder
      split
      · exact ih
      · simpa [or_imp, forall_and] using ⟨ih, hname⟩
  | map f _ ih => exact ih

end Assembled

namespace Affine

variable [Scalar α] {p : Name → Prop} {a b c : Affine α}

/-- The terms of the form are put together from variables with the property. -/
def Over (p : Name → Prop) (a : Affine α) : Prop := Assembled p a.terms a.order

lemma over_ofConstant (x : α) : Over p (ofConstant x) := .empty

lemma over_ofVariable {x : Name} (h : p x) : Over p (ofVariable x : Affine α) :=
  .insert Scalar.one h .empty

lemma Over.scale? {factor : α} (h : a.Over p) (hb : a.scale? factor = some b) : b.Over p := by
  obtain ⟨hterms, horder, -⟩ := scale?_cases hb
  rw [Over, hterms, horder]
  exact .map _ h

/-- One step of adding or subtracting term by term. -/
def combineStep (op : α → α → α) (s : Table α × List Name) (e : Name × α) :
    Table α × List Name :=
  (s.1.insert e.1 (op (s.1.getD e.1 Scalar.zero) e.2), extendOrder s.1 s.2 e.1)

lemma Over.combine {op : α → α → α} (ha : a.Over p) (hb : b.Over p) : (combine op a b).Over p := by
  have hnames : ∀ e ∈ b.terms.entries, p e.1 := by
    intro e he
    refine hb.property e.1 ?_
    rw [hb.order_eq]
    exact List.mem_map_of_mem he
  have hfold : ∀ (l : List (Name × α)) (s : Table α × List Name), (∀ e ∈ l, p e.1) →
      Assembled p s.1 s.2 →
      Assembled p (l.foldl (combineStep op) s).1 (l.foldl (combineStep op) s).2 := by
    intro l
    induction l with
    | nil => exact fun _ _ hs => hs
    | cons e rest ih =>
        intro s hl hs
        obtain ⟨he, hrest⟩ := List.forall_mem_cons.mp hl
        exact ih _ hrest (.insert _ he hs)
  exact hfold b.terms.entries (a.terms, a.order) hnames ha

lemma Over.mul? (ha : a.Over p) (hb : b.Over p) (hc : a.mul? b = some c) : c.Over p := by
  rcases mul?_cases hc with ⟨-, hscale⟩ | ⟨-, hscale⟩ | ⟨-, -, rfl⟩
  · exact ha.scale? hscale
  · exact hb.scale? hscale
  · exact over_ofConstant _

lemma Over.div? (ha : a.Over p) (hc : a.div? b = some c) : c.Over p :=
  ha.scale? (div?_cases hc).2.2

/-- An expression with an affine form calls nothing, and its form has no other variables than the
names that are no constants. -/
lemma over_of_reduce? : ∀ (e : Expr α) {a : Affine α}, reduce? e = some a →
    (∀ x ∈ e.identifiers, Constant.ofName? x = none → p x) → a.Over p ∧ e.callees = []
  | .literal value raw, a, h, _ => by
      rw [reduce?] at h
      split at h
      · cases h
        exact ⟨over_ofConstant value, rfl⟩
      · cases h
  | .identifier name, a, h, hp => by
      rw [reduce?] at h
      split at h
      · cases h
        exact ⟨over_ofConstant _, rfl⟩
      · rename_i hvariable
        cases h
        exact ⟨over_ofVariable (hp name (by simp [Expr.identifiers]) hvariable), rfl⟩
  | .unary op argument, a, h, hp => by
      obtain ⟨b, hb, hsign⟩ := reduce?_unary_cases h
      obtain ⟨hover, hcalls⟩ := over_of_reduce? argument hb hp
      refine ⟨?_, hcalls⟩
      rcases hsign with ⟨-, rfl⟩ | ⟨-, hscale⟩
      · exact hover
      · exact hover.scale? hscale
  | .binary op left right, c, h, hp => by
      obtain ⟨a, b, ha, hb, hjoin⟩ := reduce?_binary_cases h
      rw [Expr.identifiers, List.forall_mem_append] at hp
      obtain ⟨hleft, hcallsLeft⟩ := over_of_reduce? left ha hp.1
      obtain ⟨hright, hcallsRight⟩ := over_of_reduce? right hb hp.2
      refine ⟨?_, by simp [Expr.callees, hcallsLeft, hcallsRight]⟩
      rcases hjoin with ⟨-, rfl⟩ | ⟨-, rfl⟩ | ⟨-, hmul⟩ | ⟨-, hdiv⟩
      · exact hleft.combine hright
      · exact hleft.combine hright
      · exact hleft.mul? hright hmul
      · exact hleft.div? hdiv
  | .choice t a b, _, h, _ => nomatch (reduce?_choice t a b).symm.trans h
  | .call f args, _, h, _ => nomatch (reduce?_call f args).symm.trans h

/-! ## The terms that are left -/

/-- The order lists the variables with a term, and every coefficient is worth writing. -/
structure Normal (a : Affine α) : Prop where
  order_eq : a.order = a.terms.keys
  significant : ∀ name value, a.terms.get? name = some value → negligible value = false

/-- Dropping the negligible terms leaves a normal form if the order lists all the others. -/
lemma normal_normalize
    (h : (a.order.filter fun name => a.terms.contains name) = a.terms.keys) :
    a.normalize.Normal := by
  constructor
  case order_eq =>
    have hleft : ∀ name, (a.terms.filter fun _ c => !negligible c).contains name = true →
        a.terms.contains name = true := by
      intro name hname
      simp only [Table.contains, Table.get?_filter, Option.isSome_iff_exists,
        Option.filter_eq_some_iff] at hname ⊢
      obtain ⟨value, hvalue, -⟩ := hname
      exact ⟨value, hvalue⟩
    show a.order.filter _ = (a.terms.filter _).keys
    rw [Table.keys_filter, ← h, List.filter_filter]
    refine List.filter_congr fun name _ => ?_
    rw [Bool.eq_iff_iff, Bool.and_eq_true]
    exact ⟨fun hname => ⟨hname, hleft name hname⟩, And.left⟩
  case significant =>
    intro name value hvalue
    have hvalue : (a.terms.filter fun _ c => !negligible c).get? name = some value := hvalue
    rw [Table.get?_filter, Option.filter_eq_some_iff] at hvalue
    simpa using hvalue.2

omit [Scalar α] in
lemma filter_contains_keys (t : Table α) :
    (t.keys.filter fun name => t.contains name) = t.keys :=
  List.filter_eq_self.mpr fun name hname => (t.contains_iff_mem_keys name).mpr hname

/-- The affine form of an expression is normal, and has no other variables than the expression. -/
theorem normal_of_ofExpr? {e : Expr α} (h : ofExpr? e = some a)
    (hp : ∀ x ∈ e.identifiers, Constant.ofName? x = none → p x) : a.Normal ∧ (∀ x ∈ a.order, p x) ∧ e.callees = [] := by
  obtain ⟨b, hb, rfl⟩ := Option.map_eq_some_iff.mp h
  obtain ⟨hover, hcalls⟩ := over_of_reduce? e hb hp
  refine ⟨normal_normalize ?_, fun x hx => hover.property x (List.mem_filter.mp hx).1, hcalls⟩
  rw [hover.order_eq, filter_contains_keys]

lemma normal_zero : (zero : Affine α).Normal := ⟨rfl, by simp [zero]⟩

namespace Normal

lemma contains_iff (h : a.Normal) {name : Name} :
    a.terms.contains name = true ↔ name ∈ a.order := by
  rw [h.order_eq, Table.contains_iff_mem_keys]

lemma terms_normalize (h : a.Normal) : a.normalize.terms = a.terms := by
  refine Table.ext (List.filter_eq_self.mpr fun e he => ?_)
  simp [h.significant e.1 e.2 (Table.get?_of_mem he)]

/-- A normal form is written as it is. -/
lemma order_normalize (h : a.Normal) : a.normalize.order = a.order := by
  show a.order.filter (fun name => a.normalize.terms.contains name) = a.order
  rw [h.terms_normalize, h.order_eq, filter_contains_keys]

end Normal

/-! ## Setting a coefficient -/

/-- An edit sets the coefficient in question, or removes the term, and leaves all other terms. -/
lemma get?_setCoefficient (h : a.Normal) (name : Name) (value : α) (x : Name) :
    (a.setCoefficient name value).terms.get? x =
      if x = name then (if negligible value then none else some value) else a.terms.get? x := by
  have hkept : ∀ c, a.terms.get? x = some c → negligible c = false := h.significant x
  show (Table.filter _ _).get? x = _
  rw [Table.get?_filter]
  by_cases hvalue : negligible value = true
  · rw [if_pos hvalue, if_pos hvalue, Table.get?_erase]
    split
    · rfl
    · cases hx : a.terms.get? x <;> simp_all [Option.filter]
  · rw [if_neg hvalue, if_neg hvalue, Table.get?_insert]
    by_cases hname : name = x
    · simp [hname, Option.filter, hvalue]
    · rw [if_neg hname, if_neg (Ne.symm hname)]
      cases hx : a.terms.get? x <;> simp_all [Option.filter]

lemma normal_setCoefficient (h : a.Normal) (name : Name) (value : α) :
    (a.setCoefficient name value).Normal := by
  have horder : (if a.order.contains name then a.order else a.order ++ [name]) =
      (a.terms.insert name value).keys := by
    rw [Table.keys_insert, h.order_eq]
    simp only [List.contains_iff_mem]
  refine normal_normalize ?_
  simp only [horder]
  split
  · have hgone : (a.terms.erase name).contains name = false := by
      simp [Table.contains, Table.get?_erase]
    rw [Table.keys_insert]
    split
    · exact (Table.keys_filter _ _).symm
    · rw [List.filter_append, List.filter_cons_of_neg (by simp [hgone]), List.filter_nil,
        List.append_nil]
      exact (Table.keys_filter _ _).symm
  · exact filter_contains_keys _

lemma names_setCoefficient {name : Name} (value : α) (h : ∀ x ∈ a.order, p x) (hname : p name) :
    ∀ x ∈ (a.setCoefficient name value).order, p x := by
  intro x hx
  have hx := (List.mem_filter.mp hx).1
  simp only at hx
  split at hx
  · exact h x hx
  · rcases List.mem_append.mp hx with hx | hx
    · exact h x hx
    · rwa [List.mem_singleton.mp hx]

/-- The terms after an edit. -/
theorem mem_order_setCoefficient (h : a.Normal) (name : Name) (value : α) (x : Name) :
    x ∈ (a.setCoefficient name value).order ↔
      if x = name then negligible value = false else x ∈ a.order := by
  rw [← (normal_setCoefficient h name value).contains_iff, ← h.contains_iff, Table.contains,
    get?_setCoefficient h]
  split
  · split <;> simp_all
  · rfl

end Affine

end CausalEquations
