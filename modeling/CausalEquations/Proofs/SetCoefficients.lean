import CausalEquations.Proofs.AffineRoundTrip

/-!
# Setting the coefficient of an edge

In the rationals it can be said in full what setting a coefficient does. It is refused if the child
has an equation that is not affine, or if it insists on a term that is not there. Otherwise the
equation of the child is written anew where it stands, or behind the others if there was none: read
back, it has the new coefficient, the other coefficients and the constant of the old one, all of them
rounded to four decimals.

* `FormOf` — the affine form that is edited.
* `Rewritten`, `RoundedWith` — what becomes of the assignments and of the form.
* `Parsed.setEdge_cases` — the three outcomes of the edit.
* `setEdge_sets` — the whole edit.
-/

namespace CausalEquations

/-! ## The form that is edited -/

section

variable {α : Type} [Scalar α] {text : String} {as : List Assignment} {y : Name}
variable {form form' : Affine α}

/-- The right-hand side has this affine form. -/
def HasForm (rhs : String) (form : Affine α) : Prop :=
  ∃ e, Expr.parse rhs = .ok e ∧ Affine.ofExpr? e = some form

/-- The affine form of the equation of a variable; without an equation it is the empty one. -/
def FormOf (as : List Assignment) (y : Name) (form : Affine α) : Prop :=
  (∃ a ∈ as, a.name = y ∧ HasForm a.rhs form) ∨ (y ∉ as.map Assignment.name ∧ form = Affine.zero)

variable (α) in
/-- The variable has an equation without affine form. -/
def NotAffine (as : List Assignment) (y : Name) : Prop :=
  ∃ a ∈ as, a.name = y ∧ ∀ form : Affine α, ¬ HasForm a.rhs form

lemma HasForm.unique {rhs : String} (h : HasForm rhs form) (h' : HasForm rhs form') :
    form = form' := by
  obtain ⟨e, he, ha⟩ := h
  obtain ⟨e', he', ha'⟩ := h'
  obtain rfl : e = e' := Except.ok.inj (he.symm.trans he')
  exact Option.some.inj (ha.symm.trans ha')

lemma Parsed.formOf_unique (h : Parsed α text as) (hform : FormOf as y form)
    (hform' : FormOf as y form') : form = form' := by
  rcases hform with ⟨a, ha, rfl, hrhs⟩ | ⟨hnew, rfl⟩ <;>
    rcases hform' with ⟨a', ha', hname, hrhs'⟩ | ⟨hnew', rfl⟩
  · rw [h.eq_of_name ha' ha hname] at hrhs'
    exact hrhs.unique hrhs'
  · exact absurd (List.mem_map_of_mem ha) hnew'
  · exact absurd (hname ▸ List.mem_map_of_mem ha') hnew
  · rfl

lemma Parsed.not_notAffine (h : Parsed α text as) (hform : FormOf as y form) :
    ¬ NotAffine α as y := by
  rintro ⟨a, ha, rfl, hnone⟩
  rcases hform with ⟨a', ha', hname, hrhs⟩ | ⟨hnew, -⟩
  · rw [h.eq_of_name ha' ha hname] at hrhs
    exact hnone _ hrhs
  · exact hnew (List.mem_map_of_mem ha)

/-- The form is found unless there is none. -/
lemma Parsed.affineOf_cases (h : Parsed α text as) (y : Name) :
    (∃ form : Affine α, affineOf as y = .ok form ∧ FormOf as y form) ∨
      (affineOf as y = (.error (.refused .notAffine) : Except EditError (Affine α)) ∧
        NotAffine α as y) := by
  unfold affineOf
  split
  · rename_i hfind
    refine .inl ⟨_, rfl, .inr ⟨?_, rfl⟩⟩
    rw [← assigns_iff, assigns, List.any_eq_true]
    simpa using hfind
  · rename_i a hfind
    have ha := List.mem_of_find?_eq_some hfind
    have hname : a.name = y := by simpa using List.find?_some hfind
    obtain ⟨e, he⟩ := h.reads a ha
    have hparse := (Expr.read_eq_ok.mp he).1
    rw [readEquation_of_read he, ok_bind]
    split
    · rename_i form hform
      exact .inl ⟨form, rfl, .inl ⟨a, ha, hname, e, hparse, hform⟩⟩
    · rename_i hform
      refine .inr ⟨rfl, a, ha, hname, ?_⟩
      rintro form ⟨e', hparse', hform'⟩
      obtain rfl : e = e' := Except.ok.inj (hparse.symm.trans hparse')
      rw [hform] at hform'
      cases hform'

/-! ## The assignments -/

/-- The equation of `y` has been replaced where it stands, or a first one stands behind the
others. -/
def Rewritten (as : List Assignment) (y : Name) (rhs : String) (as' : List Assignment) : Prop :=
  (∃ before old after, as = before ++ ⟨y, old⟩ :: after ∧ as' = before ++ ⟨y, rhs⟩ :: after) ∨
    (y ∉ as.map Assignment.name ∧ as' = as ++ [⟨y, rhs⟩])

/-- The assignments with another equation for a variable. -/
def withEquation (y : Name) (rhs : String) (as : List Assignment) : List Assignment :=
  if assigns y as then setFirst y rhs as else as ++ [⟨y, rhs⟩]

lemma exists_setFirst_eq {rhs : String} (h : y ∈ as.map Assignment.name) :
    ∃ before old after, as = before ++ ⟨y, old⟩ :: after ∧
      setFirst y rhs as = before ++ ⟨y, rhs⟩ :: after := by
  induction as with
  | nil => cases h
  | cons a rest ih =>
      by_cases hname : a.name = y
      · subst hname
        exact ⟨[], a.rhs, rest, rfl, by rw [setFirst, if_pos rfl, List.nil_append]⟩
      · have hrest : y ∈ rest.map Assignment.name := by simpa [Ne.symm hname] using h
        obtain ⟨before, old, after, heq, hset⟩ := ih hrest
        refine ⟨a :: before, old, after, by rw [heq, List.cons_append], ?_⟩
        rw [setFirst, if_neg hname, hset, List.cons_append]

lemma rewritten_withEquation (y : Name) (rhs : String) (as : List Assignment) :
    Rewritten as y rhs (withEquation y rhs as) := by
  unfold withEquation
  split
  · rename_i h
    exact .inl (exists_setFirst_eq (assigns_iff.mp h))
  · rename_i h
    exact .inr ⟨mt assigns_iff.mpr h, rfl⟩

lemma wellFormed_withEquation {rhs : String} (has : ∀ a ∈ as, a.WellFormed)
    (hy : isName y.toList = true) (hrhs : IsBody rhs.toList) :
    ∀ a ∈ withEquation y rhs as, a.WellFormed := by
  unfold withEquation
  split
  · exact wellFormed_setFirst has hy hrhs
  · refine List.forall_mem_append.mpr ⟨has, ?_⟩
    simpa using ⟨hy, hrhs⟩

/-- **The three outcomes of the edit.** -/
lemma Parsed.setEdge_cases (h : Parsed α text as) {parent child : String} {x : Name}
    (hparent : validName? parent = some x) (hchild : validName? child = some y) {k : α}
    (hk : Scalar.isFinite k = true) (insist : Bool) :
    (NotAffine α as y ∧ setEdge text parent child k insist = .error (.refused .notAffine)) ∨
      ∃ form : Affine α, FormOf as y form ∧
        ((insist = true ∧ form.terms.contains x = false ∧
            setEdge text parent child k insist = .error (.refused (.noTerm x y))) ∨
          ((insist = true → form.terms.contains x = true) ∧ setEdge text parent child k insist =
            .ok (Assignment.render (withEquation y (form.setCoefficient x k).render as)))) := by
  have hedit : setEdge text parent child k insist = (affineOf as y).bind fun form =>
      if (insist && !form.terms.contains x) = true then .error (.refused (.noTerm x y))
      else .ok (Assignment.render (withEquation y (form.setCoefficient x k).render as)) := by
    simp only [setEdge, requireName_eq_ok.mpr hparent, requireName_eq_ok.mpr hchild, ok_bind, hk,
      h.assignments_eq, Bool.not_true, Bool.false_eq_true, if_false, withEquation]
    refine congrArg _ (funext fun form => ?_)
    split
    · rfl
    · split <;> rfl
  rcases h.affineOf_cases (α := α) y with ⟨form, hfound, hform⟩ | ⟨hnone, hnot⟩
  · refine .inr ⟨form, hform, ?_⟩
    rw [hedit, hfound, Except.bind]
    cases insist <;> cases hterm : form.terms.contains x <;> simp
  · rw [hnone] at hedit
    exact .inl ⟨hnot, hedit⟩

end

/-! ## Rounded coefficients -/

namespace Affine

variable {a : Affine ℚ}

lemma coefficient_setCoefficient (h : a.Normal) (x : Name) (k : ℚ) (v : Name) :
    (a.setCoefficient x k).coefficient v =
      if v = x then (if negligible k then 0 else k) else a.coefficient v := by
  rw [coefficient, Table.getD, get?_setCoefficient h]
  split
  · split <;> rfl
  · rfl

/-- The text of an affine form is read as the form with rounded numbers. -/
lemma hasForm_render (h : a.Normal) (hnames : ∀ x ∈ a.order, isName x.toList = true)
    (hunknown : ∀ x ∈ a.order, IsUnknown x) :
    ∃ a', HasForm a.render a' ∧ (∀ v, IsRounding 4 (a.coefficient v) (a'.coefficient v)) ∧
      IsRounding 4 a.constant a'.constant := by
  obtain ⟨b, hb, hconsists⟩ := reducesTo_tree h hunknown
  obtain ⟨hcoefficient, -, hconstant⟩ := hconsists.normalize fun x =>
    (Fixed.isRounding_rounded 4 (a.coefficient x)).negligible_iff
  have hform : ofExpr? a.tree = some b.normalize := by
    rw [ofExpr?, hb]
    rfl
  refine ⟨b.normalize, ⟨a.tree, (Expr.read_eq_ok.mp (read_render hnames)).1, hform⟩, fun v => ?_,
    hconstant ▸ Fixed.isRounding_rounded 4 _⟩
  rw [hcoefficient]
  split
  · exact Fixed.isRounding_rounded 4 _
  · -- without a term the coefficient is zero
    rename_i hv
    rw [h.order_eq] at hv
    have hzero : a.coefficient v = 0 := by
      rw [coefficient, Table.getD, Table.get?_eq_none_iff.mpr hv]
      rfl
    rw [hzero]
    exact .of_small (by norm_num)

end Affine

/-- The form has the rounded coefficient `k` at `x`, and otherwise the rounded numbers of another
form. -/
structure RoundedWith (form : Affine ℚ) (x : Name) (k : ℚ) (form' : Affine ℚ) : Prop where
  set : IsRounding 4 k (form'.coefficient x)
  others : ∀ v ≠ x, IsRounding 4 (form.coefficient v) (form'.coefficient v)
  constant : IsRounding 4 form.constant form'.constant

section

variable {text : String} {as : List Assignment} {x y : Name} {form : Affine ℚ}

/-- The form that is edited has names that stand for themselves. -/
lemma FormOf.regular (h : FormOf as y form) :
    form.Normal ∧ (∀ x ∈ form.order, isName x.toList = true) ∧
      ∀ x ∈ form.order, IsUnknown x := by
  rcases h with ⟨a, -, rfl, e, he, hform⟩ | ⟨-, rfl⟩
  · have hread := Affine.read_of_parse he hform
    exact ⟨normal_of_read hread hform, (isName_of_ofExpr? hread hform).1,
      Affine.isUnknown_of_ofExpr? hread hform⟩
  · exact ⟨Affine.normal_zero, by simp [Affine.zero], by simp [Affine.zero]⟩

/-- What the equation that is written is read as. -/
lemma FormOf.roundedWith_render (h : FormOf as y form) (hx : isName x.toList = true)
    (hunknown : IsUnknown x) (k : ℚ) :
    ∃ form', HasForm (form.setCoefficient x k).render form' ∧ RoundedWith form x k form' := by
  obtain ⟨hnormal, hnames, hknown⟩ := h.regular
  obtain ⟨form', hrhs, hrounded, hconstant⟩ := Affine.hasForm_render
    (Affine.normal_setCoefficient hnormal x k) (Affine.names_setCoefficient k hnames hx)
    (Affine.names_setCoefficient k hknown hunknown)
  refine ⟨form', hrhs, ?_, fun v hv => ?_, hconstant⟩
  · have hset := hrounded x
    rw [Affine.coefficient_setCoefficient hnormal, if_pos rfl] at hset
    split at hset
    · -- a negligible coefficient is rounded to zero, too
      rename_i hk
      rw [hset.unique (.of_small (by norm_num))]
      exact isRounding_of_negligible hk
    · exact hset
  · have hother := hrounded v
    rwa [Affine.coefficient_setCoefficient hnormal, if_neg hv] at hother

/-- **Setting a coefficient in exact arithmetic.** It fails exactly if the child's equation has no
affine form, or if a term is insisted on and the form has none of the parent; the failure is a
refusal. Otherwise the result has a model again, the equation of the child is the only one that is
written anew, where it stood or behind all others, and it has an affine form: the parent's
coefficient is the new one, and everything else that of the old form, rounded to four decimals. -/
theorem setEdge_sets {parent child : String} {k : ℚ} {insist : Bool} (h : Accepted ℚ text)
    (has : assignments text = .ok as) (hparent : validName? parent = some x)
    (hchild : validName? child = some y) (hunknown : IsUnknown x) :
    ((∃ err, setEdge text parent child k insist = .error err) ↔
      NotAffine ℚ as y ∨
        (insist = true ∧ ∃ form : Affine ℚ, FormOf as y form ∧ form.terms.contains x = false)) ∧
    (∀ err, setEdge text parent child k insist = .error err → ∃ cause, err = .refused cause) ∧
    ∀ text', setEdge text parent child k insist = .ok text' → Accepted ℚ text' ∧
      ∃ form as' rhs form', FormOf as y form ∧ assignments text' = .ok as' ∧
        Rewritten as y rhs as' ∧ HasForm rhs form' ∧ RoundedWith form x k form' ∧
        (|k| < 1 / 10 ^ 10 → form'.coefficient x = 0) := by
  replace h := h.parsed has
  have hx := isName_of_validName? hparent
  have hy := isName_of_validName? hchild
  rcases h.setEdge_cases hparent hchild (rfl : Scalar.isFinite k = true) insist with
    ⟨hnot, hedit⟩ | ⟨form, hform, ⟨hinsist, hterm, hedit⟩ | ⟨hterm, hedit⟩⟩
  · rw [hedit]
    exact ⟨iff_of_true ⟨_, rfl⟩ (.inl hnot), by simp, by simp⟩
  · rw [hedit]
    exact ⟨iff_of_true ⟨_, rfl⟩ (.inr ⟨hinsist, form, hform, hterm⟩), by simp, by simp⟩
  · have haccepted := h.accepted_of_setEdge hedit
    obtain ⟨form', hrhs, hrounded⟩ := hform.roundedWith_render hx hunknown k
    obtain ⟨-, hnames, -⟩ := hform.regular
    have hbody : IsBody (form.setCoefficient x k).render.toList :=
      (Affine.isWritten_render (α := ℚ) (Affine.names_setCoefficient k hnames hx)).body
    have hformed := wellFormed_withEquation h.wellFormed hy hbody
    refine ⟨iff_of_false ?_ ?_, ?_, ?_⟩
    · rw [hedit]
      simp
    · rintro (hnot | ⟨hinsist, form'', hform'', hnone⟩)
      · exact h.not_notAffine hform hnot
      · obtain rfl := h.formOf_unique hform hform''
        rw [hterm hinsist] at hnone
        cases hnone
    · rw [hedit]
      simp
    · intro text' hok
      obtain rfl : Assignment.render _ = text' := Except.ok.inj (hedit.symm.trans hok)
      refine ⟨haccepted, form, _, _, form', hform, assignments_render hformed,
        rewritten_withEquation y _ as, hrhs, hrounded, fun hsmall => ?_⟩
      exact hrounded.set.unique (isRounding_of_negligible (negligible_iff.mpr hsmall))

/-- The terms of `X` cancel; `X` comes back with a tie as coefficient, and `B` keeps its own, but
rounded. With a term insisted on the edit is refused. -/
theorem setEdge_sets_cancelled :
    ∃ (form form' : Affine ℚ) (as as' : List Assignment) (rhs : String),
      assignments "Y = X - X + 2*B/3 ; B = 1" = .ok as ∧
      setEdge "Y = X - X + 2*B/3 ; B = 1" "X" "Y" (2.00005 : ℚ) true =
        .error (.refused (.noTerm "X" "Y")) ∧
      setEdge "Y = X - X + 2*B/3 ; B = 1" "X" "Y" (2.00005 : ℚ) false =
        .ok "Y = 0.6667*B + 2*X\nB = 1" ∧
      FormOf as "Y" form ∧ form.terms.contains "X" = false ∧
      assignments "Y = 0.6667*B + 2*X\nB = 1" = .ok as' ∧ Rewritten as "Y" rhs as' ∧
      HasForm rhs form' ∧ RoundedWith form "X" 2.00005 form' ∧ form'.coefficient "X" = 2 := by
  obtain ⟨as, has⟩ : ∃ as, assignments "Y = X - X + 2*B/3 ; B = 1" = .ok as := ⟨_, rfl⟩
  have haccepted : Accepted ℚ "Y = X - X + 2*B/3 ; B = 1" := by decide +kernel
  have hX : validName? "X" = some "X" := by decide +kernel
  have hY : validName? "Y" = some "Y" := by decide +kernel
  have hunknown : IsUnknown "X" := ⟨by decide +kernel, by decide +kernel⟩
  have hrefused : setEdge "Y = X - X + 2*B/3 ; B = 1" "X" "Y" (2.00005 : ℚ) true =
      .error (.refused (.noTerm "X" "Y")) := by decide +kernel
  have hok : setEdge "Y = X - X + 2*B/3 ; B = 1" "X" "Y" (2.00005 : ℚ) false =
      .ok "Y = 0.6667*B + 2*X\nB = 1" := by decide +kernel
  have hround : Fixed.rounded 4 2.00005 = 2 := by decide +kernel
  obtain ⟨-, form, as', rhs, form', hform, has', hrewritten, hrhs, hrounded, -⟩ :=
    (setEdge_sets haccepted has hX hY hunknown).2.2 _ hok
  have hfails := (setEdge_sets haccepted has hX hY hunknown).1.mp ⟨_, hrefused⟩
  have hparsed := haccepted.parsed has
  refine ⟨form, form', as, as', rhs, has, hrefused, hok, hform, ?_, has', hrewritten, hrhs, hrounded,
    (hrounded.set.unique (Fixed.isRounding_rounded 4 _)).trans hround⟩
  obtain ⟨-, other, hother, hterm⟩ := hfails.resolve_left (hparsed.not_notAffine hform)
  rwa [hparsed.formOf_unique hform hother]

end

end CausalEquations
