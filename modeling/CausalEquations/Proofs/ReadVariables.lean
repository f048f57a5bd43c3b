import CausalEquations.Proofs.CausalOrder
import CausalEquations.Proofs.EditedTexts
import CausalEquations.Proofs.WrittenTrees

/-!
# The variables that edited equations read

An affine equation that is written anew reads the variables of its terms. A variable that was read
without having a term, because its coefficients cancel or are negligible, is no longer read. Where a
name gives way to zero instead, every other variable stays.

* `ReadsIn`, `HasTerm`, `Fades` — how a right-hand side can mention a variable.
* `readsIn_setCoefficient`, `readsIn_dropVariable` — what is read after an edit of an equation.
* `Parsed.mem_keys_iff`, `Parsed.edge_iff` — variables and edges of a text, by its equations.
-/

namespace CausalEquations

variable {α : Type} [Scalar α]

/-! ## One right-hand side -/

section

variable (α)

/-- The right-hand side reads the variable. -/
def ReadsIn (rhs : String) (x : Name) : Prop :=
  ∃ e : Expr α, Expr.read rhs = .ok e ∧ x ∈ e.dependencies

/-- The right-hand side is affine, and the name has a term in its affine form. -/
def HasTerm (rhs : String) (x : Name) : Prop :=
  ∃ (e : Expr α) (a : Affine α), Expr.read rhs = .ok e ∧ Affine.ofExpr? e = some a ∧ x ∈ a.order

/-- The right-hand side is affine and reads the variable, which has no term in its affine form. -/
def Fades (rhs : String) (x : Name) : Prop :=
  ∃ (e : Expr α) (a : Affine α), Expr.read rhs = .ok e ∧ Affine.ofExpr? e = some a ∧
    x ∈ e.dependencies ∧ x ∉ a.order

/-- The right-hand side still reads `v` when `x` has been dropped from it. -/
def ReadsWithout (rhs : String) (x v : Name) : Prop :=
  ReadsIn α rhs v ∧ v ≠ x ∧ ¬ (HasTerm α rhs x ∧ Fades α rhs v)

end

section

variable {rhs : String} {e : Expr α} {a : Affine α} {x : Name}

lemma readsIn_iff (he : Expr.read rhs = .ok e) : ReadsIn α rhs x ↔ x ∈ e.dependencies := by
  simp [ReadsIn, he]

lemma hasTerm_iff (he : Expr.read rhs = .ok e) (ha : Affine.ofExpr? e = some a) :
    HasTerm α rhs x ↔ x ∈ a.order := by
  simp [HasTerm, he, ha]

lemma fades_iff (he : Expr.read rhs = .ok e) (ha : Affine.ofExpr? e = some a) :
    Fades α rhs x ↔ x ∈ e.dependencies ∧ x ∉ a.order := by
  simp [Fades, he, ha]

lemma HasTerm.not_fades (h : HasTerm α rhs x) : ¬ Fades α rhs x := by
  obtain ⟨e, a, he, ha, hx⟩ := h
  rw [fades_iff he ha]
  exact fun hfades => hfades.2 hx

lemma not_hasTerm (he : Expr.read rhs = .ok e) (ha : Affine.ofExpr? e = none) :
    ¬ HasTerm α rhs x := by
  simp [HasTerm, he, ha]

/-- A name with a term is read if it denotes a variable. -/
lemma mem_dependencies_iff_of_term (he : Expr.read rhs = .ok e) (ha : Affine.ofExpr? e = some a)
    (hx : x ∈ a.order) : x ∈ e.dependencies ↔ isVariable x = true := by
  obtain ⟨body, hscans, hforms⟩ := read_eq_ok.mp he
  have hname := (hscans.layout.normal_of_ofExpr? he ha).2 x hx
  rw [dependencies_of_forms hforms, List.mem_eraseDups, List.mem_filter, and_iff_right hname]

lemma normal_of_read (he : Expr.read rhs = .ok e) (ha : Affine.ofExpr? e = some a) : a.Normal := by
  obtain ⟨body, hscans, -⟩ := read_eq_ok.mp he
  exact (hscans.layout.normal_of_ofExpr? he ha).1

/-- What is read is a variable. -/
lemma isVariable_of_mem_dependencies (he : Expr.read rhs = .ok e) (hx : x ∈ e.dependencies) :
    isVariable x = true := by
  obtain ⟨body, -, hforms⟩ := read_eq_ok.mp he
  rw [dependencies_of_forms hforms, List.mem_eraseDups] at hx
  exact (List.mem_filter.mp hx).2

lemma not_readsIn_zero : ¬ ReadsIn α "0" x := by
  have hread : Expr.read "0" = .ok (joinedTree [] : Expr α) := by
    show Expr.read (Affine.joinPieces (pieceTexts [])) = _
    exact read_joinPieces (List.forall_mem_nil _)
  rw [readsIn_iff hread, Expr.dependencies, (joinedTree_names []).2]
  simp

/-- What is not mentioned need not be dropped. -/
lemma Reads.readsWithout_iff (hreads : Reads α rhs) (hx : isName x.toList = true)
    (hmentions : mentions x rhs = false) (v : Name) :
    ReadsWithout α rhs x v ↔ ReadsIn α rhs v := by
  obtain ⟨e, he⟩ := hreads
  obtain ⟨body, hscans, hforms⟩ := read_eq_ok.mp he
  have hsame : substitute x "0" rhs = rhs := substitute_of_not_mentions hmentions
  have hlayout := hscans.layout
  -- replacing the name changes nothing, but it would leave no such name
  have hnames := namesOf_substitute hx (.inr rfl) ⟨e, he⟩ (hsame.symm ▸ ⟨e, he⟩ : Reads α _) hlayout
    (hsame.symm ▸ hlayout)
  have hgone : x ∉ namesOf (body.map Token.lexeme) := by
    rw [hnames, List.mem_flatMap]
    rintro ⟨y, -, hy⟩
    exact (mem_respelled_zero.mp hy).2 rfl
  refine ⟨And.left, fun hread => ⟨hread, ?_, ?_⟩⟩
  · rintro rfl
    rw [readsIn_iff he, dependencies_of_forms hforms, List.mem_eraseDups, List.mem_filter] at hread
    exact hgone hread.1
  · rintro ⟨⟨e', a, he', ha, hmem⟩, -⟩
    exact hgone ((hlayout.normal_of_ofExpr? he' ha).2 x hmem)

/-! ## Edited right-hand sides -/

/-- A written affine form reads the variables of its terms. -/
lemma readsIn_render (h : a.Normal) (hnames : ∀ y ∈ a.order, isName y.toList = true) :
    ReadsIn α a.render x ↔ x ∈ a.order ∧ isVariable x = true := by
  rw [readsIn_iff (Affine.read_render hnames), Affine.dependencies_tree, List.mem_eraseDups,
    List.mem_filter, h.order_normalize]

lemma readsIn_render_setCoefficient (h : a.Normal)
    (hnames : ∀ y ∈ a.order, isName y.toList = true) (hx : isName x.toList = true) (value : α)
    (v : Name) : ReadsIn α (a.setCoefficient x value).render v ↔
      (if v = x then negligible value = false else v ∈ a.order) ∧ isVariable v = true := by
  rw [readsIn_render (Affine.normal_setCoefficient h x value)
    (Affine.names_setCoefficient value hnames hx), Affine.mem_order_setCoefficient h]

/-- **What an affine equation reads after an edit**: the variable in question, unless its new
coefficient is negligible, and of the others those that have a term. -/
theorem readsIn_setCoefficient (he : Expr.read rhs = .ok e) (ha : Affine.ofExpr? e = some a)
    (hx : isName x.toList = true) (value : α) (v : Name) :
    ReadsIn α (a.setCoefficient x value).render v ↔
      if v = x then negligible value = false ∧ isVariable x = true
      else ReadsIn α rhs v ∧ ¬ Fades α rhs v := by
  rw [readsIn_render_setCoefficient (normal_of_read he ha) (isName_of_ofExpr? he ha).1 hx,
    readsIn_iff he, fades_iff he ha]
  by_cases hv : v = x
  · simp [hv]
  · simp only [hv, if_false, not_and, not_not]
    constructor
    · rintro ⟨hterm, hvariable⟩
      exact ⟨(mem_dependencies_iff_of_term he ha hterm).mpr hvariable, fun _ => hterm⟩
    · rintro ⟨hread, hterm⟩
      exact ⟨hterm hread, isVariable_of_mem_dependencies he hread⟩

/-- **What an equation reads after a variable has been dropped**: all other variables, except those
that fade where the equation is written anew. -/
theorem readsIn_dropVariable (hzero : negligible (Scalar.zero : α) = true) {rhs' : String}
    (hx : isName x.toList = true) (hreads : Reads α rhs) (hreads' : Reads α rhs')
    (hdrop : dropVariable α rhs x = .ok rhs') (v : Name) :
    ReadsIn α rhs' v ↔ ReadsWithout α rhs x v := by
  obtain ⟨e, he⟩ := hreads
  obtain ⟨e', he'⟩ := hreads'
  have hsubstitute : substitute x "0" rhs = rhs' → ¬ HasTerm α rhs x →
      (ReadsIn α rhs' v ↔ ReadsWithout α rhs x v) := by
    rintro rfl hterm
    rw [ReadsWithout, readsIn_iff he, readsIn_iff he', mem_dependencies_substitute_zero hx he he']
    simp [hterm]
  simp only [dropVariable, readEquation_of_read he, ok_bind] at hdrop
  cases ha : Affine.ofExpr? e with
  | none =>
      simp only [ha, pure_eq_ok, Except.ok.injEq] at hdrop
      exact hsubstitute hdrop (not_hasTerm he ha)
  | some a =>
      simp only [ha] at hdrop
      have hcontains : a.terms.contains x = true ↔ x ∈ a.order := (normal_of_read he ha).contains_iff
      by_cases hterm : x ∈ a.order
      · rw [if_pos (hcontains.mpr hterm)] at hdrop
        cases hdrop
        rw [readsIn_setCoefficient he ha hx, hzero, ReadsWithout, hasTerm_iff he ha]
        by_cases hv : v = x <;> simp [hv, hterm]
      · rw [if_neg (mt hcontains.mp hterm)] at hdrop
        exact hsubstitute (Except.ok.inj hdrop) (mt (hasTerm_iff he ha).mp hterm)

end

/-! ## Texts -/

section

variable {text : String} {as : List Assignment} {m : Model α}

variable (α) in
/-- The name is assigned, or some equation reads it. -/
def Occurs (as : List Assignment) (x : Name) : Prop :=
  x ∈ as.map Assignment.name ∨ ∃ a ∈ as, ReadsIn α a.rhs x

/-- The variables of a text are the names that occur in it. -/
lemma Parsed.mem_keys_iff (h : Parsed α text as) (hm : Model.ofText text = .ok m) {x : Name} :
    x ∈ m.keys ↔ Occurs α as x := by
  obtain ⟨qs, rfl, hqs, hdescribes⟩ := h.describes hm
  rw [hdescribes.mem_keys, Occurs]
  refine or_congr (by simp) ?_
  constructor
  · rintro ⟨q, hq, hx⟩
    exact ⟨q.1, List.mem_map_of_mem hq, (readsIn_iff (hqs q hq)).mpr hx⟩
  · rintro ⟨_, ha, hx⟩
    obtain ⟨q, hq, rfl⟩ := List.mem_map.mp ha
    exact ⟨q, hq, (readsIn_iff (hqs q hq)).mp hx⟩

/-- The parents of a variable are the variables that its equation reads. -/
lemma Parsed.edge_iff (h : Parsed α text as) (hm : Model.ofText text = .ok m) {parent child : Name} :
    (Graph.ofModel m).Edge parent child ↔ ∃ a ∈ as, a.name = child ∧ ReadsIn α a.rhs parent := by
  have hneighbours : (Graph.ofModel m).neighbours child =
      ((m.get? child).map Entry.dependencies).getD [] := by
    rw [Graph.neighbours, Graph.ofModel, Table.getD, Table.get?_map]
  rw [Graph.Edge, hneighbours]
  constructor
  · intro hparent
    cases hds : (m.get? child).map Entry.dependencies with
    | none => simp [hds] at hparent
    | some ds =>
        rw [hds, Option.getD_some] at hparent
        obtain rfl | ⟨a, ha, rfl, e, he, rfl⟩ := h.dependencies_of_get? hm hds
        · cases hparent
        · exact ⟨a, ha, rfl, (readsIn_iff he).mpr hparent⟩
  · rintro ⟨a, ha, rfl, e, he, hparent⟩
    rwa [h.dependencies_of_mem hm ha he, Option.getD_some]

/-- The assignments after one of them has got another right-hand side. -/
lemma mem_setFirst_iff {name : Name} {rhs : String} (hnodup : (as.map Assignment.name).Nodup)
    (hname : name ∈ as.map Assignment.name) {a : Assignment} :
    a ∈ setFirst name rhs as ↔ a = ⟨name, rhs⟩ ∨ (a ∈ as ∧ a.name ≠ name) := by
  induction as with
  | nil => cases hname
  | cons b rest ih =>
      rw [List.map_cons, List.nodup_cons] at hnodup
      by_cases hb : b.name = name
      · have hrest : ∀ a ∈ rest, a.name ≠ name := fun a ha heq =>
          hnodup.1 (hb ▸ heq ▸ List.mem_map_of_mem ha)
        simp only [setFirst, hb, if_true, List.mem_cons]
        constructor
        · exact Or.imp_right fun ha => ⟨.inr ha, hrest a ha⟩
        · rintro (heq | ⟨rfl | ha, hne⟩)
          · exact .inl heq
          · exact absurd hb hne
          · exact .inr ha
      · have hrest : name ∈ rest.map Assignment.name := by simpa [Ne.symm hb] using hname
        simp only [setFirst, hb, if_false, List.mem_cons, ih hnodup.2 hrest]
        constructor
        · rintro (rfl | heq | ⟨ha, hne⟩)
          · exact .inr ⟨.inl rfl, hb⟩
          · exact .inl heq
          · exact .inr ⟨.inr ha, hne⟩
        · rintro (heq | ⟨rfl | ha, hne⟩)
          · exact .inr (.inl heq)
          · exact .inl rfl
          · exact .inr (.inr ⟨ha, hne⟩)

/-! ## Setting an edge -/

/-- The form that is edited is that of the child's equation, if there is one. -/
lemma Parsed.affineOf_eq_ok (h : Parsed α text as) {child : Name} {form : Affine α}
    (hform : affineOf as child = .ok form) :
    (∃ a ∈ as, a.name = child ∧ ∃ e, Expr.read a.rhs = .ok e ∧ Affine.ofExpr? e = some form) ∨
      (child ∉ as.map Assignment.name ∧ form = Affine.zero) := by
  unfold affineOf at hform
  split at hform
  · rename_i hfind
    refine .inr ⟨?_, (Except.ok.inj hform).symm⟩
    rw [List.mem_map]
    rintro ⟨a, ha, hname⟩
    simpa [hname] using List.find?_eq_none.mp hfind a ha
  · rename_i a hfind
    have ha := List.mem_of_find?_eq_some hfind
    obtain ⟨e, he⟩ := h.reads a ha
    rw [readEquation_of_read he, ok_bind] at hform
    split at hform
    · rename_i form' haffine
      cases hform
      exact .inl ⟨a, ha, by simpa using List.find?_some hfind, e, he, haffine⟩
    · cases hform

/-- **What an edge that is set changes**: the child gets an equation that reads the parent, unless
the coefficient is negligible, and of the variables read before those that do not fade. All other
equations stay. -/
theorem Parsed.readsIn_setEdge (h : Parsed α text as) {parent child text' : String} {x y : Name}
    {coefficient : α} {insistOnTerm : Bool} (hparent : validName? parent = some x)
    (hchild : validName? child = some y)
    (hok : setEdge text parent child coefficient insistOnTerm = .ok text') :
    ∃ as' rhs, Parsed α text' as' ∧
      (∀ a, a ∈ as' ↔ a = ⟨y, rhs⟩ ∨ (a ∈ as ∧ a.name ≠ y)) ∧
      ∀ v, ReadsIn α rhs v ↔
        if v = x then negligible coefficient = false ∧ isVariable x = true
        else ∃ a ∈ as, a.name = y ∧ ReadsIn α a.rhs v ∧ ¬ Fades α a.rhs v := by
  have haccepted := h.accepted_of_setEdge hok
  have hx := isName_of_validName? hparent
  have hy := isName_of_validName? hchild
  simp only [setEdge, requireName_eq_ok.mpr hparent, requireName_eq_ok.mpr hchild, ok_bind] at hok
  split at hok
  · cases hok
  simp only [bind_eq_ok, h.assignments_eq, Except.ok.injEq, exists_eq_left'] at hok
  obtain ⟨form, hform, hok⟩ := hok
  split at hok
  · cases hok
  have hbody : IsBody (form.setCoefficient x coefficient).render.toList :=
    (Affine.isWritten_render (Affine.names_setCoefficient _ (h.isName_of_affineOf hform) hx)).body
  have hreads : ∀ v, ReadsIn α (form.setCoefficient x coefficient).render v ↔
      if v = x then negligible coefficient = false ∧ isVariable x = true
      else ∃ a ∈ as, a.name = y ∧ ReadsIn α a.rhs v ∧ ¬ Fades α a.rhs v := by
    intro v
    rcases h.affineOf_eq_ok hform with ⟨a, ha, rfl, e, he, haffine⟩ | ⟨hnew, rfl⟩
    · have honly : (∃ a' ∈ as, a'.name = a.name ∧ ReadsIn α a'.rhs v ∧ ¬ Fades α a'.rhs v) ↔
          ReadsIn α a.rhs v ∧ ¬ Fades α a.rhs v := by
        constructor
        · rintro ⟨a', ha', hname, hread⟩
          rwa [h.eq_of_name ha' ha hname] at hread
        · exact fun hread => ⟨a, ha, rfl, hread⟩
      rw [readsIn_setCoefficient he haffine hx, honly]
    · have hnone : ¬ ∃ a ∈ as, a.name = y ∧ ReadsIn α a.rhs v ∧ ¬ Fades α a.rhs v := by
        rintro ⟨a, ha, rfl, -⟩
        exact hnew (List.mem_map_of_mem ha)
      rw [readsIn_render_setCoefficient Affine.normal_zero (by simp [Affine.zero]) hx]
      by_cases hv : v = x <;> simp [hv, hnone, Affine.zero]
  split at hok
  · rename_i hassigned
    have hmem := assigns_iff.mp hassigned
    cases hok
    refine ⟨_, _, parsed_render (wellFormed_setFirst h.wellFormed hy hbody) haccepted,
      fun a => mem_setFirst_iff h.nodup hmem, hreads⟩
  · rename_i hnew
    rw [assigns_iff] at hnew
    cases hok
    have hformed : ∀ a ∈ as ++ [(⟨y, (form.setCoefficient x coefficient).render⟩ : Assignment)],
        a.WellFormed := by
      simpa [or_imp, forall_and] using ⟨h.wellFormed, hy, hbody⟩
    refine ⟨_, _, parsed_render hformed haccepted, fun a => ?_, hreads⟩
    have hother : a ∈ as ↔ a ∈ as ∧ a.name ≠ y :=
      ⟨fun ha => ⟨ha, fun heq => hnew (heq ▸ List.mem_map_of_mem ha)⟩, And.left⟩
    rw [List.mem_append, List.mem_singleton, or_comm, ← hother]

end

end CausalEquations
