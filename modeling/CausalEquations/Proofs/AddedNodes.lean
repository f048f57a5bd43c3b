import CausalEquations.Number.Binary64
import CausalEquations.Proofs.Leaves
import CausalEquations.Proofs.ReadVariables

/-!
# Adding a variable and removing it again

A variable that has just been added is read by no equation. Its removal nevertheless looks for its
name in all of them, and finds it where it stands for something else: a function, a constant, a truth
value, or letters and digits within a number. Where it is found, the equation becomes another one.

* `SameEquations` — models with the same variables and the same expressions.
* `withoutVariable_of_not_mentions`, `mem_withoutVariable` — what is left of the equations.
* `dropVariable_changes` — dropping a name that occurs changes the tree.
* `removeNode_addNode_iff` — when the model is restored.
* `removeNode_addNode_changes_number` — a number in which the name occurs.
-/

namespace CausalEquations

variable {α : Type} [Scalar α]

/-- The models have the same variables, with the same expressions. -/
def SameEquations (m m' : Model α) : Prop :=
  ∀ x, (m.get? x).map Entry.expression = (m'.get? x).map Entry.expression

/-! ## What is left of the equations -/

section

variable {as left : List Assignment} {x : Name}

/-- Equations that do not mention the name stay as they are. -/
lemma withoutVariable_of_not_mentions (hnew : x ∉ as.map Assignment.name)
    (h : ∀ a ∈ as, mentions x a.rhs = false) (rhs : String) :
    withoutVariable α x (as ++ [⟨x, rhs⟩]) = .ok as := by
  induction as with
  | nil => simp [withoutVariable]
  | cons a rest ih =>
      obtain ⟨ha, hrest⟩ := List.forall_mem_cons.mp h
      obtain ⟨hne, hnew⟩ : x ≠ a.name ∧ x ∉ rest.map Assignment.name := by simpa using hnew
      rw [List.cons_append, withoutVariable, if_neg (Ne.symm hne), ha, if_neg Bool.false_ne_true,
        ih hnew hrest]
      rfl

/-- In an equation that mentions the name, the name is dropped. -/
lemma mem_withoutVariable (hleft : withoutVariable α x as = .ok left) {a : Assignment} (ha : a ∈ as)
    (hne : a.name ≠ x) (hmentions : mentions x a.rhs = true) :
    ∃ rhs, dropVariable α a.rhs x = .ok rhs ∧ ⟨a.name, rhs⟩ ∈ left := by
  induction as generalizing left with
  | nil => cases ha
  | cons b rest ih =>
      rw [withoutVariable] at hleft
      split at hleft
      · rename_i hname
        rcases List.mem_cons.mp ha with rfl | ha
        · exact absurd hname hne
        · exact ih hleft ha
      · split at hleft
        · obtain ⟨rhs, hdrop, hleft⟩ := bind_eq_ok.mp hleft
          obtain ⟨left', hleft', hleft⟩ := bind_eq_ok.mp hleft
          cases hleft
          rcases List.mem_cons.mp ha with rfl | ha
          · exact ⟨rhs, hdrop, List.mem_cons_self⟩
          · obtain ⟨rhs', hdrop', hmem⟩ := ih hleft' ha
            exact ⟨rhs', hdrop', List.mem_cons_of_mem _ hmem⟩
        · rename_i hnot
          obtain ⟨left', hleft', hleft⟩ := bind_eq_ok.mp hleft
          cases hleft
          rcases List.mem_cons.mp ha with rfl | ha
          · exact absurd hmentions hnot
          · obtain ⟨rhs', hdrop', hmem⟩ := ih hleft' ha
            exact ⟨rhs', hdrop', List.mem_cons_of_mem _ hmem⟩

end

/-! ## Dropping a name -/

section

variable {x : Name} {rhs : String} {e e' : Expr α} {a : Affine α}

/-- The names with a term stand in the tree. -/
lemma mem_identifiers_of_term (ha : Affine.ofExpr? e = some a) (hx : x ∈ a.order) :
    x ∈ e.identifiers := by
  obtain ⟨-, hread, -⟩ :=
    Affine.normal_of_ofExpr? (p := fun y => y ∈ e.identifiers) ha fun _ hy _ => hy
  exact hread x hx

/-- Only names with a term are written. -/
lemma mem_order_of_mem_identifiers_tree (hx : x ∈ a.tree.identifiers) : x ∈ a.order := by
  rw [Affine.tree, (joinedTree_names _).2, Affine.names_signedPieces] at hx
  exact (List.mem_filter.mp (List.mem_filter.mp hx).1).1

/-- The term of the name is gone from the tree. -/
lemma setCoefficient_zero_changes (hzero : negligible (Scalar.zero : α) = true)
    (hx : isName x.toList = true) (he : Expr.read rhs = .ok e) (ha : Affine.ofExpr? e = some a)
    (hterm : x ∈ a.order) (he' : Expr.read (a.setCoefficient x Scalar.zero).render = .ok e') :
    e' ≠ e := by
  have hnames := Affine.names_setCoefficient Scalar.zero (isName_of_ofExpr? he ha).1 hx
  rw [Affine.read_render hnames, Except.ok.injEq] at he'
  rintro rfl
  have hleft := mem_order_of_mem_identifiers_tree (he' ▸ mem_identifiers_of_term ha hterm)
  rw [Affine.mem_order_setCoefficient (normal_of_read he ha), if_pos rfl, hzero] at hleft
  exact Bool.noConfusion hleft

/-- **Dropping a name that occurs changes the tree.** The name may have a term of its own, which is
removed, or it is replaced. -/
theorem dropVariable_changes (hzero : negligible (Scalar.zero : α) = true) {rhs' : String}
    (hx : isName x.toList = true) (hmentions : mentions x rhs = true) (he : Expr.read rhs = .ok e)
    (hdrop : dropVariable α rhs x = .ok rhs') (he' : Expr.read rhs' = .ok e') : e' ≠ e := by
  simp only [dropVariable, readEquation_of_read he, ok_bind] at hdrop
  cases ha : Affine.ofExpr? e with
  | none =>
      simp only [ha, pure_eq_ok, Except.ok.injEq] at hdrop
      subst hdrop
      exact substitute_zero_changes hx hmentions he he'
  | some a =>
      simp only [ha] at hdrop
      by_cases hterm : a.terms.contains x = true
      · rw [if_pos hterm] at hdrop
        cases hdrop
        exact setCoefficient_zero_changes hzero hx he ha
          ((normal_of_read he ha).contains_iff.mp hterm) he'
      · rw [if_neg hterm] at hdrop
        cases hdrop
        exact substitute_zero_changes hx hmentions he he'

end

/-! ## Adding and removing -/

section

variable {text : String} {as : List Assignment} {m : Model α}

/-- A text has the model of its canonical layout. -/
lemma Parsed.ofText_render (h : Parsed α text as) (hm : Model.ofText text = .ok m) :
    Model.ofText (Assignment.render as) = .ok m := by
  obtain ⟨qs, rfl, hqs, hdescribes⟩ := h.describes hm
  exact ofText_eq_ok.mpr ⟨qs, ⟨assignments_render h.wellFormed, hqs⟩, hdescribes⟩

lemma Parsed.addNode_eq_ok (h : Parsed α text as) {name : String} {x : Name}
    (hname : validName? name = some x) (hnew : x ∉ as.map Assignment.name) :
    addNode text name = .ok (Assignment.render (as ++ [⟨x, "0"⟩])) := by
  have hassigns : assigns x as = false := by
    rw [← Bool.not_eq_true, assigns_iff]
    exact hnew
  simp only [addNode, requireName_eq_ok.mpr hname, h.assignments_eq, ok_bind, hassigns]
  rfl

/-- The text with the equation of the new variable. -/
lemma Parsed.added (h : Parsed α text as) {x : Name} (hx : isName x.toList = true)
    (hnew : x ∉ as.map Assignment.name) :
    Parsed α (Assignment.render (as ++ [⟨x, "0"⟩])) (as ++ [⟨x, "0"⟩]) := by
  have hzero := wellFormed_zero hx
  refine parsed_render (List.forall_mem_append.mpr ⟨h.wellFormed, by simpa using hzero⟩) ?_
  exact accepted_append_one h.wellFormed h.rendered hzero isWritten_zero.reads hnew

/-- A variable that has just been added leaves nothing behind when it is removed. -/
lemma Parsed.removeNode_added (h : Parsed α text as) {name : String} {x : Name}
    {left : List Assignment} (hname : validName? name = some x)
    (hnew : x ∉ as.map Assignment.name)
    (hleft : withoutVariable α x (as ++ [⟨x, "0"⟩]) = .ok left) :
    removeNode α (Assignment.render (as ++ [⟨x, "0"⟩])) name = .ok (Assignment.render left) := by
  have hadded := h.added (isName_of_validName? hname) hnew
  have hassigned : assigns x (as ++ [⟨x, "0"⟩]) = true := assigns_iff.mpr (by simp)
  obtain ⟨m, hm⟩ := hadded.accepted.requireModel
  refine hadded.removeNode_of_noDependencies hname hm hleft (by simp [hassigned]) fun ds hds => ?_
  rcases hadded.dependencies_of_get? (requireModel_eq_ok.mp hm) hds with
    hnone | ⟨a, ha, heq, e, he, rfl⟩
  · exact hnone
  · obtain rfl : a = ⟨x, "0"⟩ := hadded.eq_of_name ha (by simp) heq
    refine List.eq_nil_iff_forall_not_mem.mpr fun v hv => ?_
    exact not_readsIn_zero ((readsIn_iff he).mpr hv)

end

/-- **Adding a variable and removing it again** always succeeds. It restores the model if no equation
mentions the name as a whole word, and otherwise the result has no model, or one in which some
variable has another expression. -/
theorem removeNode_addNode_iff (hzero : negligible (Scalar.zero : α) = true) {text name : String}
    {x : Name} {m : Model α} (hm : Model.ofText text = .ok m) (hname : validName? name = some x)
    (hnew : x ∉ m.keys) :
    ∃ as added removed, assignments text = .ok as ∧ addNode text name = .ok added ∧
      removeNode α added name = .ok removed ∧
      ((∃ m', Model.ofText removed = .ok m' ∧ SameEquations m m') ↔
        ∀ a ∈ as, mentions x a.rhs = false) ∧
      ((∀ a ∈ as, mentions x a.rhs = false) → Model.ofText removed = .ok m) := by
  obtain ⟨as, h⟩ := accepted_iff_parsed.mp ⟨m, hm⟩
  have hx := isName_of_validName? hname
  have hnew : x ∉ as.map Assignment.name := by
    intro hmem
    exact hnew ((m.contains_iff_mem_keys x).mp (h.contains_of_mem hm hmem))
  have hadded := h.added hx hnew
  obtain ⟨left, hleft, hformed, -, -⟩ :=
    withoutVariable_eq_ok hx hadded.wellFormed hadded.reads
  have hrestored : (∀ a ∈ as, mentions x a.rhs = false) →
      Model.ofText (Assignment.render left) = .ok m := by
    intro hnone
    rw [withoutVariable_of_not_mentions hnew hnone, Except.ok.injEq] at hleft
    exact hleft ▸ h.ofText_render hm
  refine ⟨as, _, _, h.assignments_eq, h.addNode_eq_ok hname hnew,
    h.removeNode_added hname hnew hleft, ⟨?_, fun hnone => ⟨m, hrestored hnone, fun _ => rfl⟩⟩,
    hrestored⟩
  rintro ⟨m', hm', hsame⟩ a ha
  by_contra hmentions
  rw [Bool.not_eq_false] at hmentions
  have hne : a.name ≠ x := fun heq => hnew (heq ▸ List.mem_map_of_mem ha)
  obtain ⟨rhs, hdrop, hmem⟩ :=
    mem_withoutVariable hleft (List.mem_append_left _ ha) hne hmentions
  have hparsed : Parsed α (Assignment.render left) left := parsed_render hformed ⟨m', hm'⟩
  obtain ⟨e, he⟩ := h.reads a ha
  obtain ⟨e', he'⟩ := hparsed.reads _ hmem
  have hexpression := hsame a.name
  rw [h.get?_of_mem hm ha he, hparsed.get?_of_mem hm' hmem he'] at hexpression
  simp only [Option.map_some, Entry.ofExpr, Option.some.injEq] at hexpression
  exact dropVariable_changes hzero hx hmentions he hdrop he' hexpression.symm

/-- The equations call a function and contain a number with an exponent, but neither is `cos`. -/
theorem removeNode_addNode_iff_cosine :
    ∃ m : Model Float, Model.ofText "Y=1.e5*X; Z = sin(Y)" = .ok m ∧ "cos" ∉ m.keys ∧
      removeNode Float "Y = 1.e5*X\nZ = sin(Y)\ncos = 0" "cos" = .ok "Y = 1.e5*X\nZ = sin(Y)" ∧
      Model.ofText "Y = 1.e5*X\nZ = sin(Y)" = .ok m := by
  have hzero : negligible (Scalar.zero : Float) = true := by decide +kernel
  have hkeys : (Model.ofText "Y=1.e5*X; Z = sin(Y)" : Except ParseError (Model Float)).toOption.map
      Table.keys = some ["Y", "Z", "X"] := by decide +kernel
  have hname : validName? "cos" = some "cos" := by decide +kernel
  have has : assignments "Y=1.e5*X; Z = sin(Y)" = .ok [⟨"Y", "1.e5*X"⟩, ⟨"Z", "sin(Y)"⟩] := by
    decide +kernel
  have hadd : addNode "Y=1.e5*X; Z = sin(Y)" "cos" =
      .ok "Y = 1.e5*X\nZ = sin(Y)\ncos = 0" := by decide +kernel
  have hremove : removeNode Float "Y = 1.e5*X\nZ = sin(Y)\ncos = 0" "cos" =
      .ok "Y = 1.e5*X\nZ = sin(Y)" := by decide +kernel
  obtain ⟨m, hm, hkeys⟩ := exists_of_toOption_map hkeys
  have hnew : "cos" ∉ m.keys := by
    rw [hkeys]
    decide
  obtain ⟨as, added, removed, has', hadded, hremoved, -, hrestores⟩ :=
    removeNode_addNode_iff hzero hm hname hnew
  obtain rfl := Except.ok.inj (has.symm.trans has')
  obtain rfl := Except.ok.inj (hadd.symm.trans hadded)
  obtain rfl := Except.ok.inj (hremove.symm.trans hremoved)
  exact ⟨m, hm, hnew, hremove, hrestores (by decide +kernel)⟩

/-- The name `e5` occurs in the number `1.e5`, which becomes `1.0`. -/
theorem removeNode_addNode_changes_number :
    ∃ m m' : Model Float, Model.ofText "Y = 1.e5*X" = .ok m ∧ validName? "e5" = some "e5" ∧
      "e5" ∉ m.keys ∧ addNode "Y = 1.e5*X" "e5" = .ok "Y = 1.e5*X\ne5 = 0" ∧
      removeNode Float "Y = 1.e5*X\ne5 = 0" "e5" = .ok "Y = 1.0*X" ∧
      Model.ofText "Y = 1.0*X" = .ok m' ∧ ¬ SameEquations m m' := by
  have hleaves : (Model.ofText "Y = 1.e5*X" : Except ParseError (Model Float)).toOption.map
      (fun m => (m.keys, ((m.get? "Y").map Entry.expression).map (Option.map Expr.leaves))) =
      some (["Y", "X"], some (some ["1.e5", "X"])) := by decide +kernel
  have hleaves' : (Model.ofText "Y = 1.0*X" : Except ParseError (Model Float)).toOption.map
      (fun m => ((m.get? "Y").map Entry.expression).map (Option.map Expr.leaves)) =
      some (some (some ["1.0", "X"])) := by decide +kernel
  obtain ⟨m, hm, hm_leaves⟩ := exists_of_toOption_map hleaves
  obtain ⟨m', hm', hm_leaves'⟩ := exists_of_toOption_map hleaves'
  rw [Prod.mk.injEq] at hm_leaves
  refine ⟨m, m', hm, by decide +kernel, ?_, by decide +kernel, by decide +kernel, hm',
    fun hsame => ?_⟩
  · rw [hm_leaves.1]
    decide
  · rw [hsame "Y", hm_leaves'] at hm_leaves
    exact absurd hm_leaves.2 (by decide)

end CausalEquations
