import CausalEquations.Model.Basic
import CausalEquations.Proofs.Scanning
import CausalEquations.Proofs.Statements
import CausalEquations.Proofs.Tables

/-!
# Which texts have a model

A text has a model if it consists of assignments to different variables whose right-hand sides can
all be read. The model gives every assigned variable its equation and knows every variable that an
equation reads.

* `Accepted`, `accepted_iff` — the texts that have a model.
* `Equations`, `Describes` — the equations of a text, and what a model says of them.
* `ofText_eq_ok` — the model of a text describes its equations.
-/

namespace CausalEquations

variable {α : Type}

/-! ## Tables that grow -/

lemma Table.put_of_not_mem {β : Type} {key : Name} {l : List (Name × β)} (value : β)
    (h : key ∉ l.map Prod.fst) : Table.put key value l = l ++ [(key, value)] := by
  induction l with
  | nil => rfl
  | cons e rest ih =>
      obtain ⟨hne, hrest⟩ : key ≠ e.1 ∧ key ∉ rest.map Prod.fst := by simpa using h
      simp [Table.put, Ne.symm hne, ih hrest]

/-- Adding what is missing changes nothing that is there. -/
lemma Table.get?_foldl_insertIfNew {β : Type} (names : List Name) (t : Table β) (value : β)
    (x : Name) :
    (names.foldl (fun t name => t.insertIfNew name value) t).get? x =
      if t.contains x then t.get? x else if x ∈ names then some value else none := by
  induction names generalizing t with
  | nil =>
      rcases Option.eq_none_or_eq_some (t.get? x) with h | ⟨y, h⟩ <;> simp [Table.contains, h]
  | cons name rest ih =>
      simp only [List.foldl_cons, ih, Table.contains, Table.get?_insertIfNew, Table.getD,
        List.mem_cons]
      by_cases hname : name = x
      · subst hname
        rcases Option.eq_none_or_eq_some (t.get? name) with h | ⟨y, h⟩ <;> simp [h]
      · simp [hname, Ne.symm hname]

/-! ## Equations -/

/-- An equation as written, and its tree. -/
abbrev Equation (α : Type) := Assignment × Expr α

/-- What a model says of an equation. -/
def Equation.entry (q : Equation α) : Name × Entry α := (q.1.name, Entry.ofExpr q.2 q.1.rhs)

/-- The model says of the equations what they say, and nothing else but which variables they
read. -/
def Describes (m : Model α) (qs : List (Equation α)) : Prop :=
  ∃ assigned : Model α, assigned.entries = qs.map Equation.entry ∧ Model.withDerived assigned = m

section Describes

variable {m : Model α} {qs : List (Equation α)}

lemma Describes.nodup (h : Describes m qs) : (qs.map fun q => q.1.name).Nodup := by
  obtain ⟨assigned, hentries, -⟩ := h
  have hnodup := assigned.nodup
  rw [hentries, List.map_map] at hnodup
  exact hnodup

lemma exists_describes (h : (qs.map fun q => q.1.name).Nodup) : ∃ m, Describes m qs := by
  have hnodup : ((qs.map Equation.entry).map Prod.fst).Nodup := by
    rw [List.map_map]
    exact h
  exact ⟨_, ⟨qs.map Equation.entry, hnodup⟩, rfl, rfl⟩

lemma get?_withDerived (t : Model α) (x : Name) :
    (Model.withDerived t).get? x =
      if t.contains x then t.get? x
      else if ∃ e ∈ t.entries, x ∈ e.2.dependencies then some Entry.derived else none := by
  simp only [Model.withDerived, Table.get?_foldl_insertIfNew, List.mem_flatMap]

lemma contains_iff {t : Model α} (h : t.entries = qs.map Equation.entry) (x : Name) :
    t.contains x = true ↔ ∃ q ∈ qs, q.1.name = x := by
  rw [Table.contains_iff_mem_keys, Table.keys, h]
  simp [Equation.entry]

lemma exists_reads_iff {t : Model α} (h : t.entries = qs.map Equation.entry) (x : Name) :
    (∃ e ∈ t.entries, x ∈ e.2.dependencies) ↔ ∃ q ∈ qs, x ∈ q.2.dependencies := by
  simp [h, Equation.entry, Entry.ofExpr]

/-- The entry of an assigned variable is its equation. -/
lemma Describes.get?_of_mem (h : Describes m qs) {q : Equation α} (hq : q ∈ qs) :
    m.get? q.1.name = some (Entry.ofExpr q.2 q.1.rhs) := by
  obtain ⟨assigned, hentries, rfl⟩ := h
  have hmem : q.entry ∈ assigned.entries := hentries ▸ List.mem_map_of_mem hq
  rw [get?_withDerived, if_pos ((contains_iff hentries _).mpr ⟨q, hq, rfl⟩)]
  exact Table.get?_of_mem hmem

/-- The entry of a variable that is not assigned. -/
lemma Describes.get?_of_forall_ne (h : Describes m qs) {x : Name}
    (hx : ∀ q ∈ qs, q.1.name ≠ x) :
    m.get? x = if ∃ q ∈ qs, x ∈ q.2.dependencies then some Entry.derived else none := by
  obtain ⟨assigned, hentries, rfl⟩ := h
  rw [get?_withDerived, if_neg]
  · simp only [exists_reads_iff hentries]
  · rw [contains_iff hentries]
    rintro ⟨q, hq, hname⟩
    exact hx q hq hname

/-- Every entry is that of an equation, or derived. -/
lemma Describes.get?_cases (h : Describes m qs) {x : Name} {entry : Entry α}
    (hget : m.get? x = some entry) :
    (∃ q ∈ qs, q.1.name = x ∧ entry = Entry.ofExpr q.2 q.1.rhs) ∨ entry = Entry.derived := by
  by_cases hx : ∃ q ∈ qs, q.1.name = x
  · obtain ⟨q, hq, rfl⟩ := hx
    rw [h.get?_of_mem hq] at hget
    exact .inl ⟨q, hq, rfl, (Option.some.inj hget).symm⟩
  · rw [h.get?_of_forall_ne fun q hq hname => hx ⟨q, hq, hname⟩] at hget
    split at hget
    · exact .inr (Option.some.inj hget).symm
    · cases hget

/-- The variables are those that are assigned and those that are read. -/
lemma Describes.mem_keys (h : Describes m qs) {x : Name} :
    x ∈ m.keys ↔ (∃ q ∈ qs, q.1.name = x) ∨ ∃ q ∈ qs, x ∈ q.2.dependencies := by
  rw [← not_iff_not, ← Table.get?_eq_none_iff, not_or]
  by_cases hx : ∃ q ∈ qs, q.1.name = x
  · obtain ⟨q, hq, rfl⟩ := hx
    rw [h.get?_of_mem hq]
    simp only [reduceCtorEq, false_iff, not_and_or, not_not]
    exact .inl ⟨q, hq, rfl⟩
  · rw [h.get?_of_forall_ne fun q hq hname => hx ⟨q, hq, hname⟩]
    by_cases hreads : ∃ q ∈ qs, x ∈ q.2.dependencies <;> simp [hx, hreads]

end Describes

/-! ## Reading -/

variable [Scalar α]

/-- These are the equations of the text, in order. -/
def Equations (text : String) (qs : List (Equation α)) : Prop :=
  assignments text = .ok (qs.map Prod.fst) ∧ ∀ q ∈ qs, Expr.read q.1.rhs = .ok q.2

lemma addStatement_eq_ok {m m' : Model α} {line : List Char} :
    Model.addStatement m line = .ok m' ↔
      ∃ q : Equation α, Assignment.ofStatement? line = some q.1 ∧ Expr.read q.1.rhs = .ok q.2 ∧
        m'.entries = m.entries ++ [q.entry] := by
  unfold Model.addStatement
  constructor
  · intro h
    split at h
    · cases h
    · rename_i a ha
      split at h
      · cases h
      · rename_i hnew
        split at h
        · cases h
        · rename_i e he
          cases h
          refine ⟨(a, e), ha, he, Table.put_of_not_mem _ ?_⟩
          rwa [Table.contains_iff_mem_keys] at hnew
  · rintro ⟨⟨a, e⟩, ha, he, hentries⟩
    have hnodup := m'.nodup
    rw [hentries, List.map_append, List.nodup_append] at hnodup
    have hnew : a.name ∉ m.entries.map Prod.fst := fun hmem =>
      hnodup.2.2 _ hmem _ (by simp [Equation.entry]) rfl
    have hcontains : ¬ m.contains a.name = true := by
      rwa [Table.contains_iff_mem_keys]
    simp only [ha, hcontains, he]
    exact congrArg Except.ok (Table.ext ((Table.put_of_not_mem _ hnew).trans hentries.symm))

lemma foldlM_addStatement {lines : List (List Char)} {m m' : Model α} :
    lines.foldlM Model.addStatement m = .ok m' ↔
      ∃ qs : List (Equation α),
        List.Forall₂ (fun line a => Assignment.ofStatement? line = some a) lines (qs.map Prod.fst) ∧
          (∀ q ∈ qs, Expr.read q.1.rhs = .ok q.2) ∧
          m'.entries = m.entries ++ qs.map Equation.entry := by
  induction lines generalizing m with
  | nil =>
      show Except.ok m = Except.ok m' ↔ _
      constructor
      · rintro ⟨⟩
        exact ⟨[], .nil, by simp, by simp⟩
      · rintro ⟨qs, hlines, -, hentries⟩
        obtain rfl : qs = [] := by simpa using hlines
        exact congrArg Except.ok (Table.ext (by simpa using hentries.symm))
  | cons line lines ih =>
      rw [List.foldlM_cons, bind_eq_ok]
      simp only [addStatement_eq_ok, ih]
      constructor
      · rintro ⟨m₁, ⟨q, hq, hread, hentries₁⟩, qs, hlines, hreads, hentries⟩
        refine ⟨q :: qs, .cons hq hlines, List.forall_mem_cons.mpr ⟨hread, hreads⟩, ?_⟩
        simp [hentries, hentries₁]
      · rintro ⟨qs, hlines, hreads, hentries⟩
        cases qs with
        | nil => cases hlines
        | cons q qs =>
            obtain ⟨hq, hlines⟩ := List.forall₂_cons.mp hlines
            obtain ⟨hread, hreads⟩ := List.forall_mem_cons.mp hreads
            have hentries : m'.entries = (m.entries ++ [q.entry]) ++ qs.map Equation.entry := by
              simp [hentries]
            have hnodup := m'.nodup
            rw [hentries, List.map_append, List.nodup_append] at hnodup
            exact ⟨⟨m.entries ++ [q.entry], hnodup.1⟩, ⟨q, hq, hread, rfl⟩, qs, hlines, hreads,
              hentries⟩

/-- **The model of a text** describes its equations. -/
theorem ofText_eq_ok {text : String} {m : Model α} :
    Model.ofText text = .ok m ↔ ∃ qs, Equations text qs ∧ Describes m qs := by
  simp only [Model.ofText, bind_eq_ok, foldlM_addStatement, pure_eq_ok, Except.ok.injEq, Equations,
    Describes, assignments_eq_ok]
  constructor
  · rintro ⟨assigned, ⟨qs, hlines, hreads, hentries⟩, hm⟩
    exact ⟨qs, ⟨hlines, hreads⟩, assigned, hentries, hm⟩
  · rintro ⟨qs, ⟨hlines, hreads⟩, assigned, hentries, hm⟩
    exact ⟨assigned, ⟨qs, hlines, hreads, hentries⟩, hm⟩

/-! ## Acceptance -/

variable (α) in
/-- The text has a model. -/
def Accepted (text : String) : Prop := ∃ m : Model α, Model.ofText text = .ok m

lemma isOk_iff_accepted {text : String} :
    (Model.ofText text : Except ParseError (Model α)).isOk = true ↔ Accepted α text := by
  cases h : (Model.ofText text : Except ParseError (Model α)) <;>
    simp [Accepted, h, Except.isOk, Except.toBool]

instance (text : String) : Decidable (Accepted α text) :=
  decidable_of_iff _ isOk_iff_accepted

lemma exists_trees {as : List Assignment} (h : ∀ a ∈ as, Reads α a.rhs) :
    ∃ qs : List (Equation α), qs.map Prod.fst = as ∧ ∀ q ∈ qs, Expr.read q.1.rhs = .ok q.2 := by
  induction as with
  | nil => exact ⟨[], rfl, by simp⟩
  | cons a as ih =>
      obtain ⟨⟨e, he⟩, has⟩ := List.forall_mem_cons.mp h
      obtain ⟨qs, rfl, hqs⟩ := ih has
      exact ⟨(a, e) :: qs, rfl, List.forall_mem_cons.mpr ⟨he, hqs⟩⟩

/-- **The texts that have a model.** -/
theorem accepted_iff {text : String} :
    Accepted α text ↔ ∃ as, assignments text = .ok as ∧ (∀ a ∈ as, Reads α a.rhs) ∧
      (as.map Assignment.name).Nodup := by
  simp only [Accepted, ofText_eq_ok]
  constructor
  · rintro ⟨m, qs, ⟨hassignments, hreads⟩, hdescribes⟩
    refine ⟨_, hassignments, ?_, ?_⟩
    · simp only [List.forall_mem_map]
      exact fun q hq => ⟨q.2, hreads q hq⟩
    · rw [List.map_map]
      exact hdescribes.nodup
  · rintro ⟨as, hassignments, hreads, hnodup⟩
    obtain ⟨qs, rfl, hqs⟩ := exists_trees hreads
    rw [List.map_map] at hnodup
    obtain ⟨m, hm⟩ := exists_describes hnodup
    exact ⟨m, qs, ⟨hassignments, hqs⟩, hm⟩

/-- A written text has a model if its equations can be read and assign different variables. -/
lemma accepted_render_iff {as : List Assignment} (h : ∀ a ∈ as, a.WellFormed) :
    Accepted α (Assignment.render as) ↔
      (∀ a ∈ as, Reads α a.rhs) ∧ (as.map Assignment.name).Nodup := by
  simp [accepted_iff, assignments_render h]

end CausalEquations
