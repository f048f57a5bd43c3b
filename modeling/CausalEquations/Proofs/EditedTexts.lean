import CausalEquations.Proofs.EditedEquations

/-!
# Edits and models

Every edit of a text that has a model gives a text that has one again, but for two things that no
edit looks at: a name is replaced as a word, so it is also replaced where it is the name of a
function that is called, and where it is part of a numeral. Edits that read their result once more
before they give it away are safe from that.

* `Edit`, `Edit.after`, `textsAfter` — edits one after the other; one that fails changes nothing.
* `Edit.Harmless` — neither of the two happens, or the edit notices.
* `Edit.accepted_after_iff` — one edit.
* `edits_keep_models_iff` — any number of edits.
-/

namespace CausalEquations

/-! ## Edits -/

/-- An edit with its arguments. -/
inductive Edit (α : Type) where
  | addNode (name : String)
  | renameNode (previous next : String)
  | removeNode (name : String)
  | removeEdge (parent child : String)
  | setEdge (parent child : String) (coefficient : α) (insistOnTerm : Bool)

variable {α : Type} [Scalar α]

namespace Edit

/-- The outcome of an edit. -/
def apply (text : String) : Edit α → Except EditError String
  | addNode name => CausalEquations.addNode text name
  | renameNode previous next => CausalEquations.renameNode text previous next
  | removeNode name => CausalEquations.removeNode α text name
  | removeEdge parent child => CausalEquations.removeEdge α text parent child
  | setEdge parent child coefficient insistOnTerm =>
    CausalEquations.setEdge text parent child coefficient insistOnTerm

/-- The text after an edit. -/
def after (text : String) (edit : Edit α) : String :=
  match edit.apply text with
  | .ok text' => text'
  | .error _ => text

/-- No call loses its function and no numeral breaks. A rename never looks at its result. The
removal of a variable does so if the variable reads others, and the removal of an edge if the parent
is not assigned. -/
def Harmless (text : String) : Edit α → Prop
  | addNode _ => True
  | renameNode previous next => ∀ old, validName? previous = some old →
      ∀ new, validName? next = some new → ∀ as, assignments text = .ok as →
      old ≠ new → assigns new as = false → ∀ a ∈ as,
        (CallsIn α a.rhs old → Expr.isFunction new = true) ∧
          NumeralsSurvive old.toList new.toList a.rhs.toList
  | removeNode name => ∀ x, validName? name = some x → ∀ as, assignments text = .ok as →
      (∀ a ∈ as, a.name = x → ∀ e : Expr α, Expr.read a.rhs = .ok e → e.dependencies = []) →
      ∀ a ∈ as, a.name ≠ x → ¬ CallsIn α a.rhs x
  | removeEdge parent child => ∀ x, validName? parent = some x →
      ∀ y, validName? child = some y → ∀ as, assignments text = .ok as →
      assigns x as = true → ∀ a ∈ as, a.name = y → ¬ CallsIn α a.rhs x
  | setEdge _ _ _ _ => True

lemma after_of_ok {text text' : String} {edit : Edit α} (h : edit.apply text = .ok text') :
    edit.after text = text' := by
  simp only [after, h]

lemma after_of_error {text : String} {edit : Edit α} {e : EditError}
    (h : edit.apply text = .error e) : edit.after text = text := by
  simp only [after, h]

end Edit

/-! ## Names -/

lemma isName_of_validName? {text : String} {name : Name} (h : validName? text = some name) :
    isName name.toList = true := by
  unfold validName? at h
  dsimp only at h
  split at h
  · rename_i hname
    cases h
    rwa [String.toList_ofList]
  · cases h

lemma requireName_eq_ok {text : String} {name : Name} :
    requireName text = .ok name ↔ validName? text = some name := by
  unfold requireName
  cases validName? text <;> simp

lemma requireName_of_none {text : String} (h : validName? text = none) :
    requireName text = .error (.refused .invalidName) := by
  simp only [requireName, h]

lemma assigns_iff {name : Name} {as : List Assignment} :
    assigns name as = true ↔ name ∈ as.map Assignment.name := by
  simp [assigns]

/-! ## Texts -/

/-- A text that has a model, with its assignments. -/
structure Parsed (α : Type) [Scalar α] (text : String) (as : List Assignment) : Prop where
  assignments_eq : assignments text = .ok as
  reads : ∀ a ∈ as, Reads α a.rhs
  nodup : (as.map Assignment.name).Nodup

lemma accepted_iff_parsed {text : String} : Accepted α text ↔ ∃ as, Parsed α text as := by
  rw [accepted_iff]
  exact ⟨fun ⟨as, h, hreads, hnodup⟩ => ⟨as, h, hreads, hnodup⟩,
    fun ⟨as, h⟩ => ⟨as, h.assignments_eq, h.reads, h.nodup⟩⟩

section

variable {text : String} {as : List Assignment}

lemma Parsed.accepted (h : Parsed α text as) : Accepted α text := accepted_iff_parsed.mpr ⟨as, h⟩

lemma Accepted.parsed (h : Accepted α text) (has : assignments text = .ok as) :
    Parsed α text as := by
  obtain ⟨as', hparsed⟩ := accepted_iff_parsed.mp h
  obtain rfl : as = as' := Except.ok.inj (has.symm.trans hparsed.assignments_eq)
  exact hparsed

lemma Parsed.wellFormed (h : Parsed α text as) : ∀ a ∈ as, a.WellFormed :=
  wellFormed_of_assignments h.assignments_eq

lemma Parsed.rendered (h : Parsed α text as) : Accepted α (Assignment.render as) :=
  (accepted_render_iff h.wellFormed).mpr ⟨h.reads, h.nodup⟩

lemma requireModel_eq_ok {m : Model α} : requireModel α text = .ok m ↔ Model.ofText text = .ok m :=
  mapError_eq_ok

lemma Accepted.requireModel (h : Accepted α text) : ∃ m, requireModel α text = .ok m := by
  obtain ⟨m, hm⟩ := h
  exact ⟨m, requireModel_eq_ok.mpr hm⟩

/-- The assignment of zero to a new variable. -/
lemma wellFormed_zero {name : Name} (h : isName name.toList = true) :
    (⟨name, "0"⟩ : Assignment).WellFormed :=
  ⟨h, (isWritten_zero (α := Rat)).body⟩

/-- Equations for new variables do no harm. -/
lemma accepted_append {bs : List Assignment} (has : ∀ a ∈ as, a.WellFormed)
    (h : Accepted α (Assignment.render as)) (hbs : ∀ b ∈ bs, b.WellFormed)
    (hreads : ∀ b ∈ bs, Reads α b.rhs) (hnodup : (bs.map Assignment.name).Nodup)
    (hnew : ∀ b ∈ bs, b.name ∉ as.map Assignment.name) :
    Accepted α (Assignment.render (as ++ bs)) := by
  obtain ⟨hreads', hnodup'⟩ := (accepted_render_iff has).mp h
  rw [accepted_render_iff (List.forall_mem_append.mpr ⟨has, hbs⟩), List.map_append,
    List.nodup_append]
  refine ⟨List.forall_mem_append.mpr ⟨hreads', hreads⟩, hnodup', hnodup, ?_⟩
  rintro x hx y hy rfl
  obtain ⟨b, hb, rfl⟩ := List.mem_map.mp hy
  exact hnew b hb hx

lemma accepted_append_one {b : Assignment} (has : ∀ a ∈ as, a.WellFormed)
    (h : Accepted α (Assignment.render as)) (hb : b.WellFormed) (hreads : Reads α b.rhs)
    (hnew : b.name ∉ as.map Assignment.name) : Accepted α (Assignment.render (as ++ [b])) := by
  refine accepted_append has h ?_ ?_ (by simp) ?_
  · simpa using hb
  · simpa using hreads
  · simpa using hnew

lemma Edit.after_iff_of_error {edit : Edit α} {e : EditError} {p : Prop} (h : Parsed α text as)
    (herror : edit.apply text = .error e) (hp : p) : Accepted α (edit.after text) ↔ p := by
  rw [after_of_error herror]
  exact iff_of_true h.accepted hp

lemma Edit.after_iff_of_ok {edit : Edit α} {text' : String} {p : Prop}
    (hok : edit.apply text = .ok text') (h : Accepted α text' ↔ p) :
    Accepted α (edit.after text) ↔ p := by
  rwa [after_of_ok hok]

/-- An edit that gives texts with models only is harmless. -/
lemma Parsed.accepted_after (h : Parsed α text as) {edit : Edit α}
    (hok : ∀ text', edit.apply text = .ok text' → Accepted α text') :
    Accepted α (edit.after text) := by
  unfold Edit.after
  split
  · rename_i text' happly
    exact hok text' happly
  · exact h.accepted

/-! ## Adding -/

lemma Parsed.accepted_of_addNode (h : Parsed α text as) {name text' : String}
    (hok : addNode text name = .ok text') : Accepted α text' := by
  simp only [addNode, bind_eq_ok, requireName_eq_ok, h.assignments_eq, Except.ok.injEq,
    exists_eq_left'] at hok
  obtain ⟨x, hname, hok⟩ := hok
  have hx := isName_of_validName? hname
  split at hok
  · cases hok
  · rename_i hnew
    cases hok
    rw [assigns_iff] at hnew
    exact accepted_append_one h.wellFormed h.rendered (wellFormed_zero hx) isWritten_zero.reads hnew

/-! ## Renaming -/

lemma nodup_map_renamed {old new : Name} {names : List Name} (h : names.Nodup)
    (hnew : new ∉ names) : (names.map (renamed old new)).Nodup := by
  refine h.map_on fun x hx y hy heq => ?_
  have hne : ∀ z ∈ names, z ≠ new := by
    rintro z hz rfl
    exact hnew hz
  unfold renamed at heq
  split at heq <;> split at heq
  · simp_all
  · exact absurd heq.symm (hne y hy)
  · exact absurd heq (hne x hx)
  · exact heq

/-- The assignments after a variable has been renamed. -/
def renameIn (old new : Name) (as : List Assignment) : List Assignment :=
  as.map fun a => ⟨if a.name = old then new else a.name, substitute old new a.rhs⟩

lemma wellFormed_renameIn {old new : Name} (has : ∀ a ∈ as, a.WellFormed)
    (hold : isName old.toList = true) (hnew : isName new.toList = true) :
    ∀ a ∈ renameIn old new as, a.WellFormed := by
  simp only [renameIn, List.forall_mem_map]
  intro a ha
  refine ⟨?_, (has a ha).body.substitute hold (.inl hnew)⟩
  show isName (if a.name = old then new else a.name).toList = true
  split
  · exact hnew
  · exact (has a ha).name

lemma accepted_renameIn_iff {old new : Name} (h : Parsed α text as)
    (hold : isName old.toList = true) (hnew : isName new.toList = true)
    (hfree : ¬ assigns new as = true) :
    Accepted α (Assignment.render (renameIn old new as)) ↔
      ∀ a ∈ as, (CallsIn α a.rhs old → Expr.isFunction new = true) ∧
        NumeralsSurvive old.toList new.toList a.rhs.toList := by
  have hnodup : ((renameIn old new as).map Assignment.name).Nodup := by
    rw [assigns_iff] at hfree
    have hnames : ((as.map Assignment.name).map (renamed old new)).Nodup :=
      nodup_map_renamed h.nodup hfree
    rw [List.map_map] at hnames
    rw [renameIn, List.map_map]
    exact hnames
  rw [accepted_render_iff (wellFormed_renameIn h.wellFormed hold hnew)]
  rw [and_iff_left hnodup, renameIn, List.forall_mem_map]
  exact forall₂_congr fun a ha => (h.reads a ha).substitute_iff hold (.inl hnew)

lemma renameNode_eq {previous next : String} {old new : Name} (hold : validName? previous = some old)
    (hnew : validName? next = some new) (has : assignments text = .ok as) :
    renameNode text previous next =
      if old = new then .ok text
      else if (!assigns old as && !as.any fun a => mentions old a.rhs) = true then
        .error (.refused (.unknownVariable old))
      else if assigns new as = true then .error (.refused (.alreadyExists new))
      else .ok (Assignment.render (renameIn old new as)) := by
  simp only [renameNode, requireName_eq_ok.mpr hold, requireName_eq_ok.mpr hnew, ok_bind, has]
  rfl

/-- A variable that is neither assigned nor mentioned. -/
lemma not_mentions_of_unknown {x : Name}
    (h : (!assigns x as && !as.any fun a => mentions x a.rhs) = true) :
    ∀ a ∈ as, mentions x a.rhs = false := by
  intro a ha
  simp only [Bool.and_eq_true, Bool.not_eq_true', List.any_eq_false] at h
  simpa using h.2 a ha

lemma Parsed.harmless_renameNode_iff (h : Parsed α text as) {previous next : String}
    {old new : Name} (hprevious : validName? previous = some old)
    (hnext : validName? next = some new) :
    Edit.Harmless text (.renameNode previous next : Edit α) ↔
      (old ≠ new → ¬ assigns new as = true → ∀ a ∈ as,
        (CallsIn α a.rhs old → Expr.isFunction new = true) ∧
          NumeralsSurvive old.toList new.toList a.rhs.toList) := by
  simp [Edit.Harmless, hprevious, hnext, h.assignments_eq]

lemma Parsed.after_renameNode_iff (h : Parsed α text as) (previous next : String) :
    Accepted α (Edit.after text (.renameNode previous next : Edit α)) ↔
      Edit.Harmless text (.renameNode previous next : Edit α) := by
  rcases hprevious : validName? previous with _ | old
  · refine Edit.after_iff_of_error (e := .refused .invalidName) h ?_
      (by simp [Edit.Harmless, hprevious])
    simp only [Edit.apply, renameNode, requireName_of_none hprevious, error_bind]
  rcases hnext : validName? next with _ | new
  · refine Edit.after_iff_of_error (e := .refused .invalidName) h ?_
      (by simp [Edit.Harmless, hnext])
    simp only [Edit.apply, renameNode, requireName_eq_ok.mpr hprevious, requireName_of_none hnext,
      ok_bind, error_bind]
  have hold := isName_of_validName? hprevious
  have hnew := isName_of_validName? hnext
  have happly : Edit.apply text (.renameNode previous next : Edit α) = _ :=
    renameNode_eq hprevious hnext h.assignments_eq
  rw [h.harmless_renameNode_iff hprevious hnext]
  by_cases hne : old = new
  · rw [if_pos hne] at happly
    exact Edit.after_iff_of_ok happly (iff_of_true h.accepted (fun h => absurd hne h))
  rw [if_neg hne] at happly
  by_cases hunknown : (!assigns old as && !as.any fun a => mentions old a.rhs) = true
  · rw [if_pos hunknown] at happly
    refine Edit.after_iff_of_error h happly fun _ _ a ha => ?_
    rw [← (h.reads a ha).substitute_iff hold (.inl hnew),
      substitute_of_not_mentions (not_mentions_of_unknown hunknown a ha)]
    exact h.reads a ha
  rw [if_neg hunknown] at happly
  by_cases hfree : assigns new as = true
  · rw [if_pos hfree] at happly
    exact Edit.after_iff_of_error h happly fun _ hnot => absurd hfree hnot
  · rw [if_neg hfree] at happly
    refine Edit.after_iff_of_ok happly ?_
    rw [accepted_renameIn_iff h hold hnew hfree]
    simp [hne, hfree]

/-! ## Removing a variable -/

/-- What is left of the assignments can be read unless it calls the function of the removed name. -/
lemma withoutVariable_eq_ok {x : Name} (hx : isName x.toList = true)
    (has : ∀ a ∈ as, a.WellFormed) (hreads : ∀ a ∈ as, Reads α a.rhs) :
    ∃ left, withoutVariable α x as = .ok left ∧ (∀ a ∈ left, a.WellFormed) ∧
      left.map Assignment.name = (as.map Assignment.name).filter (fun y => !y == x) ∧
      ((∀ a ∈ left, Reads α a.rhs) ↔ ∀ a ∈ as, a.name ≠ x → ¬ CallsIn α a.rhs x) := by
  induction as with
  | nil => exact ⟨[], rfl, by simp, rfl, by simp⟩
  | cons a rest ih =>
      obtain ⟨ha, hrest⟩ := List.forall_mem_cons.mp has
      obtain ⟨haReads, hrestReads⟩ := List.forall_mem_cons.mp hreads
      obtain ⟨left, hleft, hformed, hnames, hiff⟩ := ih hrest hrestReads
      by_cases heq : a.name = x
      · refine ⟨left, ?_, hformed, ?_, ?_⟩
        · simp only [withoutVariable, heq, if_true, hleft]
        · simp [heq, hnames]
        · simp [heq, hiff]
      by_cases hmentions : mentions x a.rhs = true
      · obtain ⟨rhs, hdrop, hbody, hdropIff⟩ := dropVariable_eq_ok hx ha.body haReads
        refine ⟨⟨a.name, rhs⟩ :: left, ?_, ?_, ?_, ?_⟩
        · simp only [withoutVariable, heq, if_false, hmentions, if_true, hdrop, hleft, ok_bind,
            pure_eq_ok]
        · exact List.forall_mem_cons.mpr ⟨⟨ha.name, hbody⟩, hformed⟩
        · simp [heq, hnames]
        · simp [heq, hiff, hdropIff]
      · rw [Bool.not_eq_true] at hmentions
        have hnot := haReads.not_callsIn hx hmentions
        refine ⟨a :: left, ?_, ?_, ?_, ?_⟩
        · simp only [withoutVariable, heq, if_false, hmentions, Bool.false_eq_true, hleft, ok_bind,
            pure_eq_ok]
        · exact List.forall_mem_cons.mpr ⟨ha, hformed⟩
        · simp [heq, hnames]
        · simp [heq, hiff, haReads, hnot]

/-- The model of the text describes its assignments with their trees. -/
lemma Parsed.describes (h : Parsed α text as) {m : Model α} (hm : Model.ofText text = .ok m) :
    ∃ qs : List (Equation α), as = qs.map Prod.fst ∧
      (∀ q ∈ qs, Expr.read q.1.rhs = .ok q.2) ∧ Describes m qs := by
  obtain ⟨qs, ⟨hassignments, hqs⟩, hdescribes⟩ := ofText_eq_ok.mp hm
  rw [h.assignments_eq] at hassignments
  exact ⟨qs, Except.ok.inj hassignments, hqs, hdescribes⟩

/-- The variables that the equation of `x` reads. -/
lemma Parsed.dependencies_of_get? (h : Parsed α text as) {m : Model α}
    (hm : Model.ofText text = .ok m) {x : Name} {ds : List Name}
    (hds : (m.get? x).map Entry.dependencies = some ds) :
    ds = [] ∨ ∃ a ∈ as, a.name = x ∧
      ∃ e : Expr α, Expr.read a.rhs = .ok e ∧ e.dependencies = ds := by
  obtain ⟨qs, rfl, hqs, hdescribes⟩ := h.describes hm
  by_cases hx : ∃ q ∈ qs, q.1.name = x
  · obtain ⟨q, hq, rfl⟩ := hx
    rw [hdescribes.get?_of_mem hq] at hds
    refine .inr ⟨q.1, List.mem_map_of_mem hq, rfl, q.2, hqs q hq, ?_⟩
    simpa [Entry.ofExpr] using hds
  · rw [hdescribes.get?_of_forall_ne fun q hq hname => hx ⟨q, hq, hname⟩] at hds
    split at hds
    · exact .inl (by simpa [Entry.derived, eq_comm] using hds)
    · cases hds

/-- The entry of an assigned variable is its equation. -/
lemma Parsed.get?_of_mem (h : Parsed α text as) {m : Model α} (hm : Model.ofText text = .ok m)
    {a : Assignment} (ha : a ∈ as) {e : Expr α} (he : Expr.read a.rhs = .ok e) :
    m.get? a.name = some (Entry.ofExpr e a.rhs) := by
  obtain ⟨qs, rfl, hqs, hdescribes⟩ := h.describes hm
  obtain ⟨q, hq, rfl⟩ := List.mem_map.mp ha
  have heq := hqs q hq
  rw [he] at heq
  rw [hdescribes.get?_of_mem hq, Except.ok.inj heq]

lemma Parsed.dependencies_of_mem (h : Parsed α text as) {m : Model α}
    (hm : Model.ofText text = .ok m) {a : Assignment} (ha : a ∈ as) {e : Expr α}
    (he : Expr.read a.rhs = .ok e) :
    (m.get? a.name).map Entry.dependencies = some e.dependencies := by
  rw [h.get?_of_mem hm ha he]
  rfl

lemma Parsed.contains_of_mem (h : Parsed α text as) {m : Model α} (hm : Model.ofText text = .ok m)
    {x : Name} (hx : x ∈ as.map Assignment.name) : m.contains x = true := by
  obtain ⟨a, ha, rfl⟩ := List.mem_map.mp hx
  obtain ⟨e, he⟩ := h.reads a ha
  rw [Table.contains, h.get?_of_mem hm ha he]
  rfl

/-- The assignments of a written text that has a model. -/
lemma parsed_render (has : ∀ a ∈ as, a.WellFormed) (h : Accepted α (Assignment.render as)) :
    Parsed α (Assignment.render as) as :=
  ⟨assignments_render has, ((accepted_render_iff has).mp h).1, ((accepted_render_iff has).mp h).2⟩

section

variable {m : Model α} {name : String} {x : Name} {left : List Assignment}

lemma Parsed.removeNode_of_unknown (h : Parsed α text as) (hname : validName? name = some x)
    (hm : requireModel α text = .ok m) (hleft : withoutVariable α x as = .ok left)
    (hunknown : (!assigns x as && !as.any fun a => mentions x a.rhs) = true) :
    removeNode α text name = .error (.refused (.unknownVariable x)) := by
  simp only [removeNode, requireName_eq_ok.mpr hname, hm, h.assignments_eq, hleft, ok_bind]
  rw [if_pos hunknown]

/-- A variable that reads nothing leaves nothing behind. -/
lemma Parsed.removeNode_of_noDependencies (h : Parsed α text as) (hname : validName? name = some x)
    (hm : requireModel α text = .ok m) (hleft : withoutVariable α x as = .ok left)
    (hknown : ¬ (!assigns x as && !as.any fun a => mentions x a.rhs) = true)
    (hnone : ∀ ds, (m.get? x).map Entry.dependencies = some ds → ds = []) :
    removeNode α text name = .ok (Assignment.render left) := by
  simp only [removeNode, requireName_eq_ok.mpr hname, hm, h.assignments_eq, hleft, ok_bind]
  rw [if_neg hknown]
  cases hds : (m.get? x).map Entry.dependencies with
  | none => rfl
  | some ds =>
      obtain rfl := hnone ds hds
      rfl

lemma Parsed.removeNode_of_dependencies (h : Parsed α text as) (hname : validName? name = some x)
    (hm : requireModel α text = .ok m) (hleft : withoutVariable α x as = .ok left)
    (hknown : ¬ (!assigns x as && !as.any fun a => mentions x a.rhs) = true)
    {ds : List Name} (hds : (m.get? x).map Entry.dependencies = some ds) (hne : ds ≠ []) :
    removeNode α text name = (requireModel α (Assignment.render left)).bind fun l =>
      .ok (Assignment.render
        (left ++ (ds.filter fun d => !(d == x) && !l.contains d).map fun d => ⟨d, "0"⟩)) := by
  simp only [removeNode, requireName_eq_ok.mpr hname, hm, h.assignments_eq, hleft, ok_bind]
  rw [if_neg hknown, hds]
  cases ds with
  | nil => exact absurd rfl hne
  | cons d ds => rfl

/-- What only the removed variable has read stays in the model. -/
lemma accepted_with_orphans {l : Model α} {ds : List Name} (hleft : ∀ a ∈ left, a.WellFormed)
    (hl : Model.ofText (Assignment.render left) = .ok l) (hds : ∀ d ∈ ds, isName d.toList = true)
    (hnodup : ds.Nodup) :
    Accepted α (Assignment.render
      (left ++ (ds.filter fun d => !(d == x) && !l.contains d).map fun d => ⟨d, "0"⟩)) := by
  have haccepted : Accepted α (Assignment.render left) := ⟨l, hl⟩
  refine accepted_append hleft haccepted ?_ ?_ ?_ ?_
  · simp only [List.forall_mem_map]
    intro d hd
    exact wellFormed_zero (hds d (List.mem_filter.mp hd).1)
  · simp only [List.forall_mem_map]
    exact fun _ _ => isWritten_zero.reads
  · rw [List.map_map]
    show (List.map id _).Nodup
    rw [List.map_id]
    exact hnodup.filter _
  · simp only [List.forall_mem_map]
    intro d hd hmem
    have hnot := (List.mem_filter.mp hd).2
    rw [(parsed_render hleft haccepted).contains_of_mem hl hmem] at hnot
    simp at hnot

end

lemma Parsed.harmless_removeNode_iff (h : Parsed α text as) {name : String} {x : Name}
    (hname : validName? name = some x) :
    Edit.Harmless text (.removeNode name : Edit α) ↔
      ((∀ a ∈ as, a.name = x → ∀ e : Expr α, Expr.read a.rhs = .ok e → e.dependencies = []) →
        ∀ a ∈ as, a.name ≠ x → ¬ CallsIn α a.rhs x) := by
  simp only [Edit.Harmless, hname, h.assignments_eq, Option.some.injEq, Except.ok.injEq,
    forall_eq']

lemma Parsed.after_removeNode_iff (h : Parsed α text as) (name : String) :
    Accepted α (Edit.after text (.removeNode name : Edit α)) ↔
      Edit.Harmless text (.removeNode name : Edit α) := by
  rcases hname : validName? name with _ | x
  · refine Edit.after_iff_of_error (e := .refused .invalidName) h ?_
      (by simp [Edit.Harmless, hname])
    simp only [Edit.apply, removeNode, requireName_of_none hname, error_bind]
  have hx := isName_of_validName? hname
  obtain ⟨m, hrequire⟩ := h.accepted.requireModel
  have hm := requireModel_eq_ok.mp hrequire
  obtain ⟨left, hleft, hformed, hnames, hiff⟩ := withoutVariable_eq_ok hx h.wellFormed h.reads
  rw [h.harmless_removeNode_iff hname]
  by_cases hunknown : (!assigns x as && !as.any fun a => mentions x a.rhs) = true
  · refine Edit.after_iff_of_error h (h.removeNode_of_unknown hname hrequire hleft hunknown)
      fun _ a ha _ => ?_
    exact (h.reads a ha).not_callsIn hx (not_mentions_of_unknown hunknown a ha)
  by_cases hnone : ∀ ds, (m.get? x).map Entry.dependencies = some ds → ds = []
  · have hempty : ∀ a ∈ as, a.name = x → ∀ e : Expr α, Expr.read a.rhs = .ok e →
        e.dependencies = [] := by
      rintro a ha rfl e he
      exact hnone _ (h.dependencies_of_mem hm ha he)
    have hkept : Accepted α (Assignment.render left) ↔
        ∀ a ∈ as, a.name ≠ x → ¬ CallsIn α a.rhs x := by
      have hnodup : (left.map Assignment.name).Nodup := hnames ▸ h.nodup.filter _
      rw [accepted_render_iff hformed, and_iff_left hnodup, hiff]
    exact Edit.after_iff_of_ok (h.removeNode_of_noDependencies hname hrequire hleft hunknown hnone)
      (hkept.trans ⟨fun hsafe _ => hsafe, fun hsafe => hsafe hempty⟩)
  · simp only [not_forall] at hnone
    obtain ⟨ds, hds, hne⟩ := hnone
    obtain hnil | ⟨a, ha, rfl, e, he, rfl⟩ := h.dependencies_of_get? hm hds
    · exact absurd hnil hne
    have happly := h.removeNode_of_dependencies hname hrequire hleft hunknown hds hne
    have hsafe : (∀ a' ∈ as, a'.name = a.name → ∀ e : Expr α, Expr.read a'.rhs = .ok e →
        e.dependencies = []) → ∀ a' ∈ as, a'.name ≠ a.name → ¬ CallsIn α a'.rhs a.name :=
      fun hempty => absurd (hempty a ha rfl e he) hne
    rcases hmodel : requireModel α (Assignment.render left) with cause | l
    · rw [hmodel] at happly
      exact Edit.after_iff_of_error h happly hsafe
    · rw [hmodel] at happly
      have haccepted := accepted_with_orphans (x := a.name) hformed (requireModel_eq_ok.mp hmodel)
        (isName_of_mem_dependencies he) (nodup_eraseDups _)
      exact Edit.after_iff_of_ok happly (iff_of_true haccepted hsafe)

/-! ## Removing and setting an edge -/

lemma map_name_setFirst (name : Name) (rhs : String) (as : List Assignment) :
    (setFirst name rhs as).map Assignment.name = as.map Assignment.name := by
  induction as with
  | nil => rfl
  | cons a rest ih =>
      by_cases h : a.name = name
      · simp [setFirst, h]
      · simp [setFirst, h, ih]

lemma mem_setFirst {name : Name} {rhs : String} {a : Assignment} (h : a ∈ setFirst name rhs as) :
    a = ⟨name, rhs⟩ ∨ a ∈ as := by
  induction as with
  | nil => cases h
  | cons b rest ih =>
      by_cases hb : b.name = name
      · simp only [setFirst, hb, if_true, List.mem_cons] at h
        exact h.imp_right (List.mem_cons_of_mem _)
      · simp only [setFirst, hb, if_false, List.mem_cons] at h
        rcases h with rfl | h
        · exact .inr (by simp)
        · exact (ih h).imp_right (List.mem_cons_of_mem _)

lemma mem_setFirst_self {name : Name} (rhs : String) (h : name ∈ as.map Assignment.name) :
    ⟨name, rhs⟩ ∈ setFirst name rhs as := by
  induction as with
  | nil => cases h
  | cons b rest ih =>
      by_cases hb : b.name = name
      · simp [setFirst, hb]
      · have hrest : name ∈ rest.map Assignment.name := by
          simpa [Ne.symm hb] using h
        simp [setFirst, hb, ih hrest]

/-- Another right-hand side for a variable. -/
lemma wellFormed_setFirst {name : Name} {rhs : String} (has : ∀ a ∈ as, a.WellFormed)
    (hname : isName name.toList = true) (hbody : IsBody rhs.toList) :
    ∀ a ∈ setFirst name rhs as, a.WellFormed := by
  intro a ha
  rcases mem_setFirst ha with rfl | ha
  · exact ⟨hname, hbody⟩
  · exact has a ha

lemma Parsed.accepted_setFirst_iff (h : Parsed α text as) {name : Name} {rhs : String}
    (hname : name ∈ as.map Assignment.name) (hformed : ∀ a ∈ setFirst name rhs as, a.WellFormed) :
    Accepted α (Assignment.render (setFirst name rhs as)) ↔ Reads α rhs := by
  rw [accepted_render_iff hformed, map_name_setFirst, and_iff_left h.nodup]
  constructor
  · intro hreads
    exact hreads ⟨name, rhs⟩ (mem_setFirst_self rhs hname)
  · intro hreads a ha
    rcases mem_setFirst ha with rfl | ha
    · exact hreads
    · exact h.reads a ha

lemma Parsed.eq_of_name (h : Parsed α text as) {a a' : Assignment} (ha : a ∈ as) (ha' : a' ∈ as)
    (hname : a.name = a'.name) : a = a' :=
  List.inj_on_of_nodup_map h.nodup ha ha' hname

lemma Parsed.harmless_removeEdge_iff (h : Parsed α text as) {parent child : String} {x y : Name}
    (hparent : validName? parent = some x) (hchild : validName? child = some y) :
    Edit.Harmless text (.removeEdge parent child : Edit α) ↔
      (assigns x as = true → ∀ a ∈ as, a.name = y → ¬ CallsIn α a.rhs x) := by
  simp only [Edit.Harmless, hparent, hchild, h.assignments_eq, Option.some.injEq, Except.ok.injEq,
    forall_eq']

lemma assigns_setFirst (x name : Name) (rhs : String) (as : List Assignment) :
    assigns x (setFirst name rhs as) = assigns x as := by
  rw [Bool.eq_iff_iff, assigns_iff, assigns_iff, map_name_setFirst]

/-- The result is read once more if the parent is not assigned. -/
lemma Parsed.accepted_of_removeEdge (h : Parsed α text as) {parent child text' : String} {x : Name}
    (hparent : validName? parent = some x) (hnot : assigns x as = false)
    (hok : removeEdge α text parent child = .ok text') : Accepted α text' := by
  have hx := isName_of_validName? hparent
  simp only [removeEdge, requireName_eq_ok.mpr hparent, h.assignments_eq, ok_bind, bind_eq_ok] at hok
  obtain ⟨y, -, hok⟩ := hok
  split at hok
  · cases hok
  rename_i a hfind
  have ha := List.mem_of_find?_eq_some hfind
  obtain rfl : a.name = y := by simpa using List.find?_some hfind
  split at hok
  · cases hok
  obtain ⟨rhs, hdrop, hbody, -⟩ := dropVariable_eq_ok hx (h.wellFormed a ha).body (h.reads a ha)
  have hformed := wellFormed_setFirst h.wellFormed (h.wellFormed a ha).name hbody
  simp only [hdrop, ok_bind, assigns_setFirst, hnot, Bool.false_eq_true, if_false, bind_eq_ok] at hok
  obtain ⟨m, hm, hok⟩ := hok
  have haccepted : Accepted α (Assignment.render (setFirst a.name rhs as)) :=
    ⟨m, requireModel_eq_ok.mp hm⟩
  split at hok
  · cases hok
    exact haccepted
  · cases hok
    refine accepted_append_one hformed haccepted (wellFormed_zero hx) isWritten_zero.reads ?_
    rw [← assigns_iff, assigns_setFirst, hnot]
    exact Bool.false_ne_true

/-- The result is not read again if the parent is assigned. -/
lemma Parsed.removeEdge_of_assigned (h : Parsed α text as) {parent child rhs : String} {x : Name}
    {a : Assignment} (hparent : validName? parent = some x) (hchild : validName? child = some a.name)
    (hfind : (as.find? fun a' => a'.name == a.name) = some a) (hmentions : mentions x a.rhs = true)
    (hdrop : dropVariable α a.rhs x = .ok rhs) (hassigned : assigns x as = true) :
    removeEdge α text parent child = .ok (Assignment.render (setFirst a.name rhs as)) := by
  simp only [removeEdge, requireName_eq_ok.mpr hparent, requireName_eq_ok.mpr hchild, ok_bind,
    h.assignments_eq, hfind, hmentions, Bool.not_true, Bool.false_eq_true, if_false, hdrop,
    assigns_setFirst, hassigned, if_true, pure_eq_ok]

lemma Parsed.after_removeEdge_iff (h : Parsed α text as) (parent child : String) :
    Accepted α (Edit.after text (.removeEdge parent child : Edit α)) ↔
      Edit.Harmless text (.removeEdge parent child : Edit α) := by
  rcases hparent : validName? parent with _ | x
  · refine Edit.after_iff_of_error (e := .refused .invalidName) h ?_
      (by simp [Edit.Harmless, hparent])
    simp only [Edit.apply, removeEdge, requireName_of_none hparent, error_bind]
  rcases hchild : validName? child with _ | y
  · refine Edit.after_iff_of_error (e := .refused .invalidName) h ?_
      (by simp [Edit.Harmless, hchild])
    simp only [Edit.apply, removeEdge, requireName_eq_ok.mpr hparent, requireName_of_none hchild,
      ok_bind, error_bind]
  rw [h.harmless_removeEdge_iff hparent hchild]
  by_cases hassigned : assigns x as = true
  swap
  · refine iff_of_true (h.accepted_after fun _ hok => ?_) fun hyes => absurd hyes hassigned
    exact h.accepted_of_removeEdge hparent (Bool.eq_false_iff.mpr hassigned) hok
  have hx := isName_of_validName? hparent
  rcases hfind : as.find? fun a => a.name == y with _ | a
  · refine Edit.after_iff_of_error (e := .refused (.unknownVariable y)) h ?_ ?_
    · simp only [Edit.apply, removeEdge, requireName_eq_ok.mpr hparent,
        requireName_eq_ok.mpr hchild, ok_bind, h.assignments_eq, hfind]
    · rintro - a ha rfl
      simpa using List.find?_eq_none.mp hfind a ha
  have ha := List.mem_of_find?_eq_some hfind
  obtain rfl : a.name = y := by simpa using List.find?_some hfind
  have hunique : ∀ a' ∈ as, a'.name = a.name → a' = a :=
    fun a' ha' hname => h.eq_of_name ha' ha hname
  rcases hmentions : mentions x a.rhs with _ | _
  · refine Edit.after_iff_of_error (e := .refused (.noEdge x a.name)) h ?_ fun _ a' ha' hname => ?_
    · simp only [Edit.apply, removeEdge, requireName_eq_ok.mpr hparent,
        requireName_eq_ok.mpr hchild, ok_bind, h.assignments_eq, hfind, hmentions, Bool.not_false,
        if_true]
    · rw [hunique a' ha' hname]
      exact (h.reads a ha).not_callsIn hx hmentions
  · obtain ⟨rhs, hdrop, hbody, hdropIff⟩ :=
      dropVariable_eq_ok hx (h.wellFormed a ha).body (h.reads a ha)
    have hformed := wellFormed_setFirst h.wellFormed (h.wellFormed a ha).name hbody
    refine Edit.after_iff_of_ok
      (h.removeEdge_of_assigned hparent hchild hfind hmentions hdrop hassigned) ?_
    rw [h.accepted_setFirst_iff (List.mem_map_of_mem ha) hformed, hdropIff]
    constructor
    · intro hnot _ a' ha' hname
      rwa [hunique a' ha' hname]
    · intro hsafe
      exact hsafe hassigned a ha rfl

/-- The form of an equation that is edited term by term. -/
lemma Parsed.isName_of_affineOf (h : Parsed α text as) {child : Name} {form : Affine α}
    (hform : affineOf as child = .ok form) : ∀ x ∈ form.order, isName x.toList = true := by
  unfold affineOf at hform
  split at hform
  · cases hform
    simp [Affine.zero]
  · rename_i a hfind
    obtain ⟨e, he⟩ := h.reads a (List.mem_of_find?_eq_some hfind)
    rw [readEquation_of_read he, ok_bind] at hform
    split at hform
    · rename_i form' haffine
      cases hform
      exact (isName_of_ofExpr? he haffine).1
    · cases hform

lemma Parsed.accepted_of_setEdge (h : Parsed α text as) {parent child text' : String}
    {coefficient : α} {insistOnTerm : Bool}
    (hok : setEdge text parent child coefficient insistOnTerm = .ok text') : Accepted α text' := by
  simp only [setEdge, bind_eq_ok, requireName_eq_ok] at hok
  obtain ⟨x, hx, y, hy, hok⟩ := hok
  have hx := isName_of_validName? hx
  have hy := isName_of_validName? hy
  split at hok
  · cases hok
  simp only [bind_eq_ok, h.assignments_eq, Except.ok.injEq, exists_eq_left'] at hok
  obtain ⟨form, hform, hok⟩ := hok
  split at hok
  · cases hok
  have hwritten : IsWritten α (form.setCoefficient x coefficient).render :=
    Affine.isWritten_render (Affine.names_setCoefficient _ (h.isName_of_affineOf hform) hx)
  split at hok
  · rename_i hassigned
    cases hok
    rw [h.accepted_setFirst_iff (assigns_iff.mp hassigned)
      (wellFormed_setFirst h.wellFormed hy hwritten.body)]
    exact hwritten.reads
  · rename_i hnew
    cases hok
    rw [assigns_iff] at hnew
    exact accepted_append_one h.wellFormed h.rendered ⟨hy, hwritten.body⟩ hwritten.reads hnew

/-! ## Any number of edits -/

/-- **One edit** of a text that has a model gives a text that has one if it is harmless. -/
theorem Edit.accepted_after_iff (edit : Edit α) (h : Accepted α text) :
    Accepted α (edit.after text) ↔ edit.Harmless text := by
  obtain ⟨as, h⟩ := accepted_iff_parsed.mp h
  cases edit with
  | addNode name => exact iff_of_true (h.accepted_after fun _ => h.accepted_of_addNode) trivial
  | renameNode previous next => exact h.after_renameNode_iff previous next
  | removeNode name => exact h.after_removeNode_iff name
  | removeEdge parent child => exact h.after_removeEdge_iff parent child
  | setEdge parent child coefficient insistOnTerm =>
      exact iff_of_true (h.accepted_after fun _ => h.accepted_of_setEdge) trivial

/-- The texts after each of the edits. -/
def textsAfter (text : String) : List (Edit α) → List String
  | [] => []
  | edit :: edits => edit.after text :: textsAfter (edit.after text) edits

/-- Each of the edits is harmless where it is made. -/
def AllHarmless (text : String) : List (Edit α) → Prop
  | [] => True
  | edit :: edits => edit.Harmless text ∧ AllHarmless (edit.after text) edits

/-- **Edits keep models exactly if they are harmless**: starting from a text that has a model, every
text on the way has one if and only if every edit is harmless where it is made. -/
theorem edits_keep_models_iff (edits : List (Edit α)) (h : Accepted α text) :
    (∀ t ∈ textsAfter text edits, Accepted α t) ↔ AllHarmless text edits := by
  induction edits generalizing text with
  | nil => simp [textsAfter, AllHarmless]
  | cons edit edits ih =>
      simp only [textsAfter, AllHarmless, List.forall_mem_cons]
      constructor
      · rintro ⟨hfirst, hrest⟩
        exact ⟨(edit.accepted_after_iff h).mp hfirst, (ih hfirst).mp hrest⟩
      · rintro ⟨hfirst, hrest⟩
        have haccepted := (edit.accepted_after_iff h).mpr hfirst
        exact ⟨haccepted, (ih haccepted).mpr hrest⟩

/-- A text and one edit of each kind. -/
def fiveEdits : List (Edit Rat) :=
  [.addNode "Z", .renameNode "X" "W", .setEdge "Z" "Y" 2 false, .removeEdge "W" "Y",
    .removeNode "Z"]

theorem edits_keep_models_fiveEdits :
    Accepted Rat "Y = 3*X + 1" ∧ AllHarmless "Y = 3*X + 1" fiveEdits ∧
      textsAfter "Y = 3*X + 1" fiveEdits =
        ["Y = 3*X + 1\nZ = 0", "Y = 3*W + 1\nZ = 0", "Y = 3*W + 2*Z + 1\nZ = 0",
          "Y = 2*Z + 1\nZ = 0\nW = 0", "Y = 1\nW = 0"] := by
  have haccepted : Accepted Rat "Y = 3*X + 1" := by decide +kernel
  have htexts : ∀ t ∈ textsAfter "Y = 3*X + 1" fiveEdits, Accepted Rat t := by decide +kernel
  exact ⟨haccepted, (edits_keep_models_iff fiveEdits haccepted).mp htexts, by decide +kernel⟩

/-- The removal of an edge whose parent is assigned is not checked. -/
theorem removeEdge_loses_model :
    Accepted Rat "sin = 0\nY = sin(X)" ∧
      Edit.after "sin = 0\nY = sin(X)" (.removeEdge "sin" "Y" : Edit Rat) = "sin = 0\nY = 0(X)" ∧
      ¬ Accepted Rat "sin = 0\nY = 0(X)" := by
  refine ⟨?_, ?_, ?_⟩ <;> decide +kernel

end

end CausalEquations
