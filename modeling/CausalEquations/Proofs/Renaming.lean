import CausalEquations.Proofs.EditedTexts

/-!
# Renaming a variable

A rename that breaks no numeral gives the same model with other names, unless both names were
variables before: the new name is looked for among the assigned variables only, so a variable that
is merely read can be hit, and two variables become one.

* `Renames` — a model is another one with a name changed.
* `renameNode_renames_iff` — when a rename does that.
-/

namespace CausalEquations

variable {α : Type}

/-- The second model is the first one with `old` called `new`. -/
structure Renames (old new : Name) (m m' : Model α) : Prop where
  names : ∀ x, x ∈ m'.keys ↔ ∃ y ∈ m.keys, renamed old new y = x
  size : m'.size = m.size
  dependencies : ∀ x ∈ m.keys, (m'.get? (renamed old new x)).map Entry.dependencies =
    ((m.get? x).map Entry.dependencies).map (List.map (renamed old new))

/-- No two names become one unless both names are there. -/
lemma renamed_injOn_iff {old new : Name} (hne : old ≠ new) {l : List Name} :
    (∀ a ∈ l, ∀ b ∈ l, renamed old new a = renamed old new b → a = b) ↔
      ¬ (old ∈ l ∧ new ∈ l) := by
  constructor
  · rintro hinj ⟨hold, hnew⟩
    exact hne (hinj old hold new hnew (by simp [renamed]))
  · intro hnot a ha b hb heq
    unfold renamed at heq
    split at heq <;> split at heq
    · simp_all
    · subst heq
      simp_all
    · subst heq
      simp_all
    · exact heq

section Equations

variable {old new : Name} {qs qs' : List (Equation α)}

/-- The equation after the rename. -/
structure RenamesEquation (old new : Name) (q q' : Equation α) : Prop where
  name : q'.1.name = renamed old new q.1.name
  dependencies : q'.2.dependencies = q.2.dependencies.map (renamed old new)

/-- The equations correspond to each other. -/
structure RenamesAll (old new : Name) (qs qs' : List (Equation α)) : Prop where
  forth : ∀ q ∈ qs, ∃ q' ∈ qs', RenamesEquation old new q q'
  back : ∀ q' ∈ qs', ∃ q ∈ qs, RenamesEquation old new q q'

variable {m m' : Model α}

lemma RenamesAll.mem_keys (h : RenamesAll old new qs qs') (hm : Describes m qs)
    (hm' : Describes m' qs') (x : Name) :
    x ∈ m'.keys ↔ ∃ y ∈ m.keys, renamed old new y = x := by
  simp only [hm.mem_keys, hm'.mem_keys]
  constructor
  · rintro (⟨q', hq', rfl⟩ | ⟨q', hq', hx⟩)
    · obtain ⟨q, hq, hrenames⟩ := h.back q' hq'
      exact ⟨q.1.name, .inl ⟨q, hq, rfl⟩, hrenames.name.symm⟩
    · obtain ⟨q, hq, hrenames⟩ := h.back q' hq'
      rw [hrenames.dependencies] at hx
      obtain ⟨y, hy, rfl⟩ := List.mem_map.mp hx
      exact ⟨y, .inr ⟨q, hq, hy⟩, rfl⟩
  · rintro ⟨y, ⟨q, hq, rfl⟩ | ⟨q, hq, hy⟩, rfl⟩
    · obtain ⟨q', hq', hrenames⟩ := h.forth q hq
      exact .inl ⟨q', hq', hrenames.name⟩
    · obtain ⟨q', hq', hrenames⟩ := h.forth q hq
      refine .inr ⟨q', hq', ?_⟩
      rw [hrenames.dependencies]
      exact List.mem_map_of_mem hy

/-- Models of corresponding equations correspond. -/
lemma RenamesAll.renames (h : RenamesAll old new qs qs') (hm : Describes m qs)
    (hm' : Describes m' qs')
    (hinj : ∀ a ∈ m.keys, ∀ b ∈ m.keys, renamed old new a = renamed old new b → a = b) :
    Renames old new m m' where
  names := h.mem_keys hm hm'
  size := by
    have hlength := (length_eq_iff_injOn m.nodup m'.nodup (h.mem_keys hm hm')).mpr hinj
    simpa [Table.size] using hlength
  dependencies := by
    intro x hx
    by_cases hassigned : ∃ q ∈ qs, q.1.name = x
    · obtain ⟨q, hq, rfl⟩ := hassigned
      obtain ⟨q', hq', hrenames⟩ := h.forth q hq
      rw [hm.get?_of_mem hq, ← hrenames.name, hm'.get?_of_mem hq']
      simp [Entry.ofExpr, hrenames.dependencies]
    · have hnot : ∀ q ∈ qs, q.1.name ≠ x := fun q hq hname => hassigned ⟨q, hq, hname⟩
      have hnot' : ∀ q' ∈ qs', q'.1.name ≠ renamed old new x := by
        intro q' hq' hname
        obtain ⟨q, hq, hrenames⟩ := h.back q' hq'
        rw [hrenames.name] at hname
        exact hnot q hq (hinj _ (hm.mem_keys.mpr (.inl ⟨q, hq, rfl⟩)) x hx hname)
      obtain ⟨q, hq, hread⟩ : ∃ q ∈ qs, x ∈ q.2.dependencies :=
        (hm.mem_keys.mp hx).resolve_left hassigned
      obtain ⟨q', hq', hrenames⟩ := h.forth q hq
      have hread' : renamed old new x ∈ q'.2.dependencies := by
        rw [hrenames.dependencies]
        exact List.mem_map_of_mem hread
      rw [hm.get?_of_forall_ne hnot, if_pos ⟨q, hq, hread⟩, hm'.get?_of_forall_ne hnot',
        if_pos ⟨q', hq', hread'⟩]
      rfl

end Equations

/-! ## Renaming in a text -/

variable [Scalar α] {text : String} {as : List Assignment} {old new : Name}

lemma not_callsIn_of_isVariable {rhs : String} (h : isVariable old = true) :
    ¬ CallsIn α rhs old := by
  intro hcalls
  have hfunction : (Builtin.ofName? old).isSome = true := hcalls.isFunction
  simp [isVariable, isReserved, hfunction] at h

/-- The equations after the rename correspond to those before it. -/
lemma renamesAll_of_equations {text' : String} {qs qs' : List (Equation α)} {m : Model α}
    (hold : isName old.toList = true) (hnew : isName new.toList = true)
    (hvariable : isVariable old = true) (hvariable' : isVariable new = true)
    (hqs : Equations text qs) (hm : Describes m qs) (hqs' : Equations text' qs')
    (hmap : qs'.map Prod.fst = renameIn old new (qs.map Prod.fst))
    (hinj : ∀ a ∈ m.keys, ∀ b ∈ m.keys, renamed old new a = renamed old new b → a = b) :
    RenamesAll old new qs qs' := by
  have hpair : ∀ q ∈ qs, ∀ q' ∈ qs',
      q'.1 = ⟨renamed old new q.1.name, substitute old new q.1.rhs⟩ →
      RenamesEquation old new q q' := by
    intro q hq q' hq' heq
    refine ⟨by rw [heq], ?_⟩
    have hread' := hqs'.2 q' hq'
    rw [heq] at hread'
    refine dependencies_substitute hold hnew hvariable hvariable' (hqs.2 q hq) hread' ?_
    intro x hx y hy
    exact hinj x (hm.mem_keys.mpr (.inr ⟨q, hq, hx⟩)) y (hm.mem_keys.mpr (.inr ⟨q, hq, hy⟩))
  rw [renameIn, List.map_map] at hmap
  constructor
  · intro q hq
    have hmem : (⟨renamed old new q.1.name, substitute old new q.1.rhs⟩ : Assignment) ∈
        qs'.map Prod.fst := by
      rw [hmap]
      exact List.mem_map_of_mem hq
    obtain ⟨q', hq', heq⟩ := List.mem_map.mp hmem
    exact ⟨q', hq', hpair q hq q' hq' heq⟩
  · intro q' hq'
    have hmem : q'.1 ∈ qs'.map Prod.fst := List.mem_map_of_mem hq'
    rw [hmap] at hmem
    obtain ⟨q, hq, heq⟩ := List.mem_map.mp hmem
    exact ⟨q, hq, hpair q hq q' hq' heq.symm⟩

/-- **A rename is an isomorphism of models exactly if it breaks no numeral and merges no variables**:
the result has a model, and that is the old one with the name changed, if and only if every numeral
survives and the two names were not both variables before. -/
theorem renameNode_renames_iff {m : Model α} {previous next text' : String}
    (hm : Model.ofText text = .ok m) (hprevious : validName? previous = some old)
    (hnext : validName? next = some new) (hne : old ≠ new) (hvariable : isVariable old = true)
    (hvariable' : isVariable new = true) (hok : renameNode text previous next = .ok text') :
    (∃ m' : Model α, Model.ofText text' = .ok m' ∧ Renames old new m m') ↔
      (∀ as, assignments text = .ok as → ∀ a ∈ as,
        NumeralsSurvive old.toList new.toList a.rhs.toList) ∧ ¬ (old ∈ m.keys ∧ new ∈ m.keys) := by
  obtain ⟨qs, hqs, hdescribes⟩ := ofText_eq_ok.mp hm
  obtain ⟨as, h⟩ := accepted_iff_parsed.mp ⟨m, hm⟩
  obtain rfl : as = qs.map Prod.fst := Except.ok.inj (h.assignments_eq.symm.trans hqs.1)
  have hold := isName_of_validName? hprevious
  have hnew := isName_of_validName? hnext
  rw [renameNode_eq hprevious hnext h.assignments_eq, if_neg hne] at hok
  split at hok
  · cases hok
  split at hok
  · cases hok
  rename_i hfree
  cases hok
  have hformed := wellFormed_renameIn h.wellFormed hold hnew
  have haccepted : Accepted α (Assignment.render (renameIn old new (qs.map Prod.fst))) ↔
      ∀ as, assignments text = .ok as → ∀ a ∈ as,
        NumeralsSurvive old.toList new.toList a.rhs.toList := by
    rw [accepted_renameIn_iff h hold hnew hfree]
    simp [h.assignments_eq, not_callsIn_of_isVariable hvariable]
  rw [← haccepted, ← renamed_injOn_iff hne]
  constructor
  · rintro ⟨m', hm', hrenames⟩
    refine ⟨⟨m', hm'⟩, (length_eq_iff_injOn m.nodup m'.nodup hrenames.names).mp ?_⟩
    simpa [Table.size] using hrenames.size
  · rintro ⟨⟨m', hm'⟩, hinj⟩
    obtain ⟨qs', hqs', hdescribes'⟩ := ofText_eq_ok.mp hm'
    have hmap : qs'.map Prod.fst = renameIn old new (qs.map Prod.fst) :=
      Except.ok.inj (hqs'.1.symm.trans (assignments_render hformed))
    exact ⟨m', hm', (renamesAll_of_equations hold hnew hvariable hvariable' hqs hdescribes hqs' hmap
      hinj).renames hdescribes hdescribes' hinj⟩

/-- The number `2.e5` stays a number when the variable `e5` gets a name of the same form. -/
theorem renameNode_renames_exponent :
    ∃ m m' : Model Rat, Model.ofText "Y = 2.e5 + e5*A" = .ok m ∧
      Model.ofText "Y = 2.e6 + e6*A" = .ok m' ∧ Renames "e5" "e6" m m' := by
  have haccepted : Accepted Rat "Y = 2.e5 + e5*A" := by decide +kernel
  obtain ⟨m, hm⟩ := haccepted
  have hkeys : m.keys = ["Y", "e5", "A"] := by
    have hdecided : (Model.ofText "Y = 2.e5 + e5*A" : Except ParseError (Model Rat)).map Table.keys
        = .ok ["Y", "e5", "A"] := by decide +kernel
    rw [hm] at hdecided
    exact Except.ok.inj hdecided
  have hok : renameNode "Y = 2.e5 + e5*A" " e5" "e6" = .ok "Y = 2.e6 + e6*A" := by decide +kernel
  have hsurvive : ∀ as, assignments "Y = 2.e5 + e5*A" = .ok as → ∀ a ∈ as,
      NumeralsSurvive "e5".toList "e6".toList a.rhs.toList := by
    have hdecided : assignments "Y = 2.e5 + e5*A" = .ok [⟨"Y", "2.e5 + e5*A"⟩] := by decide +kernel
    rw [hdecided]
    rintro as ⟨⟩
    rw [List.forall_mem_singleton]
    unfold NumeralsSurvive
    decide +kernel
  have hboth : ¬ ("e5" ∈ m.keys ∧ "e6" ∈ m.keys) := by
    rw [hkeys]
    decide
  obtain ⟨m', hm', hrenames⟩ := (renameNode_renames_iff hm (by decide +kernel) (by decide +kernel)
    (by decide) (by decide +kernel) (by decide +kernel) hok).mpr ⟨hsurvive, hboth⟩
  exact ⟨m, m', hm, hm', hrenames⟩

/-- A variable that is merely read is hit. -/
theorem renameNode_merges :
    renameNode "Y = A + B" "A" "B" = .ok "Y = B + B" ∧
      (Model.ofText "Y = A + B" : Except ParseError (Model Rat)).map Table.keys
        = .ok ["Y", "A", "B"] ∧
      (Model.ofText "Y = B + B" : Except ParseError (Model Rat)).map Table.keys = .ok ["Y", "B"] := by
  refine ⟨?_, ?_, ?_⟩ <;> decide +kernel

end CausalEquations
