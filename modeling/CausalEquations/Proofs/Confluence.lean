import CausalEquations.Proofs.Solution

/-!
# Passes in different orders

Two neighbours in an order may change places if neither of their equations depends on the value of
the other. So two orders of the same nodes lead to the same values as soon as neither of them
computes a node before another that its equation depends on; which equation fails first may differ.

* `AgreeUpTo` — both computations fail, or both succeed with related values.
* `Model.Consults` — an equation depends on the value of a variable.
* `visit_comm` — neighbours that may change places.
* `propagate_perm` — passes over the same nodes in different orders.
-/

namespace CausalEquations

variable {α β γ ε ε' : Type}

/-! ## Agreement -/

/-- Both computations fail, or both succeed with related values. -/
inductive AgreeUpTo (R : β → γ → Prop) : Except ε β → Except ε' γ → Prop where
  | ok {x : β} {y : γ} : R x y → AgreeUpTo R (.ok x) (.ok y)
  | error (e : ε) (e' : ε') : AgreeUpTo R (.error e) (.error e')

namespace AgreeUpTo

variable {R : β → β → Prop}

lemma of_eq [Std.Refl R] {r r' : Except ε β} (h : r = r') : AgreeUpTo R r r' := by
  subst h
  cases r with
  | ok x => exact .ok (Std.Refl.refl x)
  | error e => exact .error e e

lemma trans [IsTrans β R] {r s t : Except ε β} (h : AgreeUpTo R r s) (h' : AgreeUpTo R s t) :
    AgreeUpTo R r t := by
  cases h with
  | ok hxy =>
      cases h' with
      | ok hyz => exact .ok (IsTrans.trans _ _ _ hxy hyz)
  | error e _ =>
      cases h' with
      | error _ e' => exact .error e e'

lemma symm [Std.Symm R] {r s : Except ε β} (h : AgreeUpTo R r s) : AgreeUpTo R s r := by
  cases h with
  | ok hxy => exact .ok (Std.Symm.symm _ _ hxy)
  | error e e' => exact .error e' e

/-- Steps that agree can follow. -/
lemma bind {r r' : Except ε β} {f f' : β → Except ε β} (h : AgreeUpTo R r r')
    (hstep : ∀ x y, R x y → AgreeUpTo R (f x) (f' y)) : AgreeUpTo R (r >>= f) (r' >>= f') := by
  cases h with
  | ok hxy => exact hstep _ _ hxy
  | error e e' => exact .error e e'

lemma mapError {r r' : Except ε β} (f : ε → ε') (h : AgreeUpTo R r r') :
    AgreeUpTo R (r.mapError f) (r'.mapError f) := by
  cases h with
  | ok hxy => exact .ok hxy
  | error e e' => exact .error (f e) (f e')

end AgreeUpTo

namespace SameValues

variable {t s : Table β}

instance : Std.Refl (@SameValues β) := ⟨fun _ _ => rfl⟩

instance : Std.Symm (@SameValues β) := ⟨fun _ _ h name => (h name).symm⟩

instance : IsTrans (Table β) SameValues := ⟨fun _ _ _ h h' name => (h name).trans (h' name)⟩

lemma insert (h : SameValues t s) (name : Name) (x : β) :
    SameValues (t.insert name x) (s.insert name x) := by
  intro other
  rw [Table.get?_insert, Table.get?_insert, h other]

/-- Insertions under different names may change places. -/
lemma insert_comm (t : Table β) {name name' : Name} (hne : name ≠ name') (x y : β) :
    SameValues ((t.insert name x).insert name' y) ((t.insert name' y).insert name x) := by
  intro other
  simp only [Table.get?_insert]
  by_cases hname : name = other
  · subst hname
    simp [hne.symm]
  · simp [hname]

end SameValues

/-! ## One node -/

/-- The equation of the first variable depends on the value of the second. -/
def Model.Consults [Scalar α] (model : Model α) (name other : Name) : Prop :=
  ∃ e, model.equation? name = some e ∧ e.Reads other

variable [Scalar α] [Elementary α] {lift : Lifting α β} {model : Model α} {setting : Setting β}
  {values values' : Table β} {node other : Name}

lemma visit_of_clamped (h : setting.isClamped node = true) :
    visit lift model setting values node = .ok values := by
  simp only [visit, h, if_true]

lemma visit_of_free (h : setting.isClamped node = false) :
    visit lift model setting values node =
      nodeValue lift model setting values node >>= fun x => .ok (values.insert node x) := by
  simp only [visit, h, Bool.false_eq_true, if_false]
  rfl

variable (lift setting values values') in
/-- The value of a node depends only on the values that its equation depends on. -/
lemma nodeValue_of_consults
    (h : ∀ name, model.Consults node name → values.get? name = values'.get? name) :
    nodeValue lift model setting values node = nodeValue lift model setting values' node := by
  refine (nodeValue_of_reads lift.simulates_eq (fun _ _ => rfl) rfl fun e he name hread => ?_).eq
  rw [Table.getD, Table.getD, h name ⟨e, he, hread⟩]

variable (lift setting values) in
/-- A value that the equation does not depend on may change. -/
lemma nodeValue_insert (h : ¬ model.Consults node other) (x : β) :
    nodeValue lift model setting (values.insert other x) node =
      nodeValue lift model setting values node := by
  refine nodeValue_of_consults _ _ _ _ fun name hconsults => ?_
  have hne : other ≠ name := fun heq => h (heq ▸ hconsults)
  rw [Table.get?_insert, if_neg hne]

omit [Elementary α] in
lemma consults_congr {model' : Model α} (h : ∀ name, model.get? name = model'.get? name)
    (name other : Name) : model.Consults name other ↔ model'.Consults name other := by
  rw [Model.Consults, Model.Consults, Model.equation?, Model.equation?, h]

lemma visit_congr (h : SameValues values values') (node : Name) :
    AgreeUpTo SameValues (visit lift model setting values node)
      (visit lift model setting values' node) := by
  cases hclamped : setting.isClamped node with
  | true =>
      rw [visit_of_clamped hclamped, visit_of_clamped hclamped]
      exact .ok h
  | false =>
      rw [visit_of_free hclamped, visit_of_free hclamped,
        nodeValue_of_consults lift setting values values' fun name _ => h name]
      cases nodeValue lift model setting values' node with
      | ok x => exact .ok (h.insert node x)
      | error e => exact .error e e

/-- **Neighbours may change places** if neither equation depends on the value of the other. -/
lemma visit_comm (hne : node ≠ other) (h : ¬ model.Consults node other)
    (h' : ¬ model.Consults other node) (values : Table β) :
    AgreeUpTo SameValues
      (visit lift model setting values node >>= fun t => visit lift model setting t other)
      (visit lift model setting values other >>= fun t => visit lift model setting t node) := by
  cases hnode : setting.isClamped node with
  | true =>
      simp only [visit_of_clamped hnode]
      exact .of_eq (bind_pure _).symm
  | false =>
      cases hother : setting.isClamped other with
      | true =>
          simp only [visit_of_clamped hother]
          exact .of_eq (bind_pure _)
      | false =>
          simp only [visit_of_free hnode, visit_of_free hother]
          -- Each value is the same whether it is computed first or second.
          have hvalue := nodeValue_insert lift setting values h
          have hvalue' := nodeValue_insert lift setting values h'
          cases hx : nodeValue lift model setting values node with
          | error e =>
              cases hy : nodeValue lift model setting values other with
              | error e' => exact .error e e'
              | ok y =>
                  refine .of_eq ?_
                  simp [bind, Except.bind, hvalue, hx]
          | ok x =>
              cases hy : nodeValue lift model setting values other with
              | error e =>
                  refine .of_eq ?_
                  simp [bind, Except.bind, hvalue', hy]
              | ok y =>
                  simp only [bind, Except.bind, hvalue, hvalue', hx, hy]
                  exact .ok (SameValues.insert_comm values hne x y)

/-! ## Whole passes -/

/-- What a pass does depends on the entries of the model, not on their order. -/
lemma propagate_congr_model {model' : Model α} (h : ∀ name, model.get? name = model'.get? name)
    (order : List Name) (values : Table β) :
    propagate lift model setting order values = propagate lift model' setting order values := by
  have hvisit : visit lift model setting = visit lift model' setting := by
    funext values name
    simp only [visit, nodeValue, h]
  rw [propagate, propagate, hvisit]

omit [Scalar α] [Elementary α] in
lemma sameValues_seeded (zero : β) (seeds : Table β) {order order' : List Name}
    (hperm : order.Perm order') :
    SameValues (seeded zero seeds order) (seeded zero seeds order') := by
  intro name
  rw [get?_seeded, get?_seeded]
  simp only [hperm.mem_iff]

lemma propagate_congr (order : List Name) (h : SameValues values values') :
    AgreeUpTo SameValues (propagate lift model setting order values)
      (propagate lift model setting order values') := by
  induction order generalizing values values' with
  | nil => exact .ok h
  | cons node rest ih =>
      rw [propagate_cons, propagate_cons]
      exact (visit_congr h node).bind fun _ _ => ih

lemma propagate_cons_cons (first second : Name) (rest : List Name) (values : Table β) :
    propagate lift model setting (first :: second :: rest) values =
      (visit lift model setting values first >>= fun t => visit lift model setting t second) >>=
        propagate lift model setting rest := by
  rw [propagate_cons, bind_assoc]
  exact bind_congr fun _ => propagate_cons second rest

/-- A node may come first if neither it nor the nodes before it depend on each other. -/
lemma propagate_front {front back : List Name}
    (h : ∀ other ∈ front, other ≠ node ∧ ¬ model.Consults other node ∧ ¬ model.Consults node other)
    (values : Table β) :
    AgreeUpTo SameValues (propagate lift model setting (front ++ node :: back) values)
      (propagate lift model setting (node :: (front ++ back)) values) := by
  induction front generalizing values with
  | nil => exact propagate_congr _ (fun _ => rfl)
  | cons first front ih =>
      obtain ⟨⟨hne, hfirst, hnode⟩, hfront⟩ := List.forall_mem_cons.mp h
      -- The node comes behind the first one, and then changes places with it.
      have hbehind : AgreeUpTo SameValues
          (propagate lift model setting (first :: (front ++ node :: back)) values)
          (propagate lift model setting (first :: node :: (front ++ back)) values) := by
        rw [propagate_cons, propagate_cons]
        refine (visit_congr (fun _ => rfl) first).bind fun t s hsame => ?_
        exact (ih hfront t).trans (propagate_congr _ hsame)
      refine hbehind.trans ?_
      rw [List.cons_append, propagate_cons_cons, propagate_cons_cons]
      exact (visit_comm hne hfirst hnode values).bind fun _ _ => propagate_congr _

/-- **Passes in different orders agree** if neither order computes a node before another that its
equation depends on. The induction is on the first order: its first node may come first in the
other order as well. -/
theorem propagate_perm {order order' : List Name} (hperm : order.Perm order')
    (hnodup : order.Nodup) (h : order.Pairwise fun u w => ¬ model.Consults u w)
    (h' : order'.Pairwise fun u w => ¬ model.Consults u w) (hvalues : SameValues values values') :
    AgreeUpTo SameValues (propagate lift model setting order values)
      (propagate lift model setting order' values') := by
  induction order generalizing order' values values' with
  | nil =>
      rw [← hperm.nil_eq]
      exact .ok hvalues
  | cons node rest ih =>
      obtain ⟨front, back, rfl⟩ := List.append_of_mem (hperm.subset List.mem_cons_self)
      have hrest : rest.Perm (front ++ back) := (hperm.trans List.perm_middle).cons_inv
      obtain ⟨hfresh, hnodup⟩ := List.nodup_cons.mp hnodup
      obtain ⟨hnode, h⟩ := List.pairwise_cons.mp h
      have hfront : ∀ other ∈ front,
          other ≠ node ∧ ¬ model.Consults other node ∧ ¬ model.Consults node other := by
        intro other hother
        have hmem : other ∈ rest := hrest.symm.subset (List.mem_append_left _ hother)
        refine ⟨fun heq => hfresh (heq ▸ hmem), ?_, hnode other hmem⟩
        exact (List.pairwise_append.mp h').2.2 other hother node List.mem_cons_self
      refine .trans ?_ (propagate_front hfront values').symm
      rw [propagate_cons, propagate_cons]
      refine (visit_congr hvalues node).bind fun t s hsame => ih hrest hnodup h ?_ hsame
      exact h'.sublist (.append_left (List.sublist_cons_self node back) front)

end CausalEquations
