import CausalEquations.Number.Binary64
import CausalEquations.Proofs.ReadVariables

/-!
# The variables of an edited text

Removing a variable, or removing or setting an edge, is meant to leave all other variables in the
model. An affine equation that is written anew drops the terms that are negligible, though, and with
them the variables that are read nowhere else. Only what the edit itself removes is put back.

* `Disappears` — a variable that fades from all equations that mention it.
* `Parsed.mem_keys_removeNode`, `Parsed.mem_keys_removeEdge`, `Parsed.mem_keys_setEdge` — the
  variables after each kind of edit.
* `edits_keep_variables_iff` — the three together.
-/

namespace CausalEquations

variable {α : Type} [Scalar α]

variable (α) in
/-- The variable is not assigned, and every equation that reads it is written anew by the edit and
has no term of it. -/
structure Disappears (as : List Assignment) (rewritten : Assignment → Prop) (v : Name) : Prop where
  unassigned : v ∉ as.map Assignment.name
  fades : ∀ a ∈ as, ReadsIn α a.rhs v → rewritten a ∧ Fades α a.rhs v

section

variable {text text' : String} {as : List Assignment} {m m' : Model α}

/-- A variable stays exactly if it is assigned or does not fade from some equation. -/
lemma not_disappears_iff {rewritten : Assignment → Prop} {v : Name} :
    ¬ Disappears α as rewritten v ↔ v ∈ as.map Assignment.name ∨
      ∃ a ∈ as, ReadsIn α a.rhs v ∧ ¬ (rewritten a ∧ Fades α a.rhs v) := by
  constructor
  · intro hnot
    by_contra hnone
    rw [not_or] at hnone
    refine hnot ⟨hnone.1, fun a ha hread => ?_⟩
    by_contra hkept
    exact hnone.2 ⟨a, ha, hread, hkept⟩
  · rintro (hassigned | ⟨a, ha, hread, hkept⟩) hgone
    · exact hgone.unassigned hassigned
    · exact hkept (hgone.fades a ha hread)

/-! ## Removing a variable -/

/-- What the equations read that are left when a variable is removed. -/
lemma readsIn_withoutVariable (hzero : negligible (Scalar.zero : α) = true) {x : Name}
    (hx : isName x.toList = true) {left : List Assignment} (has : ∀ a ∈ as, Reads α a.rhs)
    (hleft : withoutVariable α x as = .ok left) (hreads : ∀ a ∈ left, Reads α a.rhs) (v : Name) :
    (∃ a ∈ left, ReadsIn α a.rhs v) ↔ ∃ a ∈ as, a.name ≠ x ∧ ReadsWithout α a.rhs x v := by
  induction as generalizing left with
  | nil =>
      cases hleft
      simp
  | cons a rest ih =>
      obtain ⟨ha, hrest⟩ := List.forall_mem_cons.mp has
      rw [withoutVariable] at hleft
      by_cases hname : a.name = x
      · rw [if_pos hname] at hleft
        simpa [hname] using ih hrest hleft hreads
      rw [if_neg hname] at hleft
      by_cases hmentions : mentions x a.rhs = true
      · rw [if_pos hmentions] at hleft
        obtain ⟨rhs, hdrop, hleft⟩ := bind_eq_ok.mp hleft
        obtain ⟨left', hleft', hleft⟩ := bind_eq_ok.mp hleft
        cases hleft
        obtain ⟨hrhs, hreads⟩ := List.forall_mem_cons.mp hreads
        simp [hname, ih hrest hleft' hreads, readsIn_dropVariable hzero hx ha hrhs hdrop]
      · rw [if_neg hmentions] at hleft
        obtain ⟨left', hleft', hleft⟩ := bind_eq_ok.mp hleft
        cases hleft
        obtain ⟨-, hreads⟩ := List.forall_mem_cons.mp hreads
        rw [Bool.not_eq_true] at hmentions
        simp [hname, ih hrest hleft' hreads, ha.readsWithout_iff hx hmentions]

/-- Equations of zero make variables of the names they assign, and read nothing. -/
lemma occurs_append_zeros {left : List Assignment} {ds : List Name} {v : Name} :
    Occurs α (left ++ ds.map fun d => ⟨d, "0"⟩) v ↔ Occurs α left v ∨ v ∈ ds := by
  have hzeros : ¬ ∃ a ∈ ds.map (fun d => (⟨d, "0"⟩ : Assignment)), ReadsIn α a.rhs v := by
    rintro ⟨a, ha, hread⟩
    obtain ⟨d, -, rfl⟩ := List.mem_map.mp ha
    exact not_readsIn_zero hread
  simp only [Occurs, List.map_append, List.map_map, Function.comp_def, List.map_id', List.mem_append,
    or_and_right, exists_or, hzeros, or_false]
  exact or_right_comm

lemma wellFormed_append_zeros {left : List Assignment} {ds : List Name}
    (hleft : ∀ a ∈ left, a.WellFormed) (hds : ∀ d ∈ ds, isName d.toList = true) :
    ∀ a ∈ left ++ ds.map fun d => (⟨d, "0"⟩ : Assignment), a.WellFormed := by
  refine List.forall_mem_append.mpr ⟨hleft, ?_⟩
  rw [List.forall_mem_map]
  exact fun d hd => wellFormed_zero (hds d hd)

/-- What the removed variable reads stays, together with what is left. -/
lemma Parsed.occurs_removeNode (h : Parsed α text as) {name : String} {x : Name}
    (hname : validName? name = some x) (hok : removeNode α text name = .ok text')
    (haccepted : Accepted α text') : ∃ left as', withoutVariable α x as = .ok left ∧
      (∀ a ∈ left, Reads α a.rhs) ∧
      left.map Assignment.name = (as.map Assignment.name).filter (fun y => !y == x) ∧
      Parsed α text' as' ∧ ∀ v, Occurs α as' v ↔
        Occurs α left v ∨ (v ≠ x ∧ ∃ a ∈ as, a.name = x ∧ ReadsIn α a.rhs v) := by
  have hx := isName_of_validName? hname
  obtain ⟨m, hrequire⟩ := h.accepted.requireModel
  have hm := requireModel_eq_ok.mp hrequire
  obtain ⟨left, hleft, hformed, hnames, -⟩ := withoutVariable_eq_ok hx h.wellFormed h.reads
  by_cases hunknown : (!assigns x as && !as.any fun a => mentions x a.rhs) = true
  · rw [h.removeNode_of_unknown hname hrequire hleft hunknown] at hok
    cases hok
  by_cases hnone : ∀ ds, (m.get? x).map Entry.dependencies = some ds → ds = []
  · rw [h.removeNode_of_noDependencies hname hrequire hleft hunknown hnone] at hok
    cases hok
    have hparsed := parsed_render hformed haccepted
    refine ⟨left, left, hleft, hparsed.reads, hnames, hparsed, fun v => (or_iff_left ?_).symm⟩
    rintro ⟨-, a, ha, rfl, e, he, hv⟩
    rw [hnone _ (h.dependencies_of_mem hm ha he)] at hv
    cases hv
  · simp only [not_forall] at hnone
    obtain ⟨ds, hds, hne⟩ := hnone
    rw [h.removeNode_of_dependencies hname hrequire hleft hunknown hds hne] at hok
    obtain hnil | ⟨a, ha, rfl, e, he, rfl⟩ := h.dependencies_of_get? hm hds
    · exact absurd hnil hne
    obtain ⟨l, hl, hok⟩ := bind_eq_ok.mp hok
    cases hok
    have hl := requireModel_eq_ok.mp hl
    have hparsed := parsed_render hformed ⟨l, hl⟩
    refine ⟨left, _, hleft, hparsed.reads, hnames, parsed_render (wellFormed_append_zeros hformed ?_)
      haccepted, fun v => ?_⟩
    · exact fun d hd => isName_of_mem_dependencies he d (List.mem_filter.mp hd).1
    · have hreadBy : (∃ a' ∈ as, a'.name = a.name ∧ ReadsIn α a'.rhs v) ↔ v ∈ e.dependencies := by
        rw [← readsIn_iff he]
        constructor
        · rintro ⟨a', ha', hname, hread⟩
          rwa [h.eq_of_name ha' ha hname] at hread
        · exact fun hread => ⟨a, ha, rfl, hread⟩
      have hcontains : l.contains v = true ↔ Occurs α left v := by
        rw [Table.contains_iff_mem_keys, hparsed.mem_keys_iff hl]
      rw [occurs_append_zeros, hreadBy, List.mem_filter, Bool.and_eq_true, Bool.not_eq_true',
        Bool.not_eq_true', ← Bool.not_eq_true (l.contains v), hcontains, beq_eq_false_iff_ne]
      constructor
      · exact Or.imp_right fun hv => ⟨hv.2.1, hv.1⟩
      · rintro (hleft | ⟨hne, hv⟩)
        · exact .inl hleft
        · exact (em (Occurs α left v)).imp_right fun hnot => ⟨hv, hne, hnot⟩

/-- **The variables after one has been removed**: the others, except those that disappear. -/
theorem Parsed.mem_keys_removeNode (hzero : negligible (Scalar.zero : α) = true)
    (h : Parsed α text as) (hm : Model.ofText text = .ok m) (hm' : Model.ofText text' = .ok m')
    {name : String} {x : Name} (hname : validName? name = some x)
    (hok : removeNode α text name = .ok text') (v : Name) :
    v ∈ m'.keys ↔ v ∈ m.keys ∧ v ≠ x ∧
      ¬ Disappears α as (fun a => a.name ≠ x ∧ HasTerm α a.rhs x) v := by
  obtain ⟨left, as', hleft, hreads, hnames, hparsed, hoccurs⟩ :=
    h.occurs_removeNode hname hok ⟨m', hm'⟩
  rw [hparsed.mem_keys_iff hm', h.mem_keys_iff hm, hoccurs, not_disappears_iff, Occurs, Occurs,
    hnames, readsIn_withoutVariable hzero (isName_of_validName? hname) h.reads hleft hreads]
  simp only [List.mem_filter, Bool.not_eq_true', beq_eq_false_iff_ne]
  constructor
  · rintro ((⟨hassigned, hne⟩ | ⟨a, ha, hname, hread, hne, hkept⟩) | ⟨hne, a, ha, hname, hread⟩)
    · exact ⟨.inl hassigned, hne, .inl hassigned⟩
    · exact ⟨.inr ⟨a, ha, hread⟩, hne, .inr ⟨a, ha, hread, fun h => hkept ⟨h.1.2, h.2⟩⟩⟩
    · exact ⟨.inr ⟨a, ha, hread⟩, hne, .inr ⟨a, ha, hread, fun h => h.1.1 hname⟩⟩
  · rintro ⟨-, hne, hassigned | ⟨a, ha, hread, hkept⟩⟩
    · exact .inl (.inl ⟨hassigned, hne⟩)
    · by_cases hname : a.name = x
      · exact .inr ⟨hne, a, ha, hname, hread⟩
      · exact .inl (.inr ⟨a, ha, hname, hread, hne, fun h => hkept ⟨⟨hname, h.1⟩, h.2⟩⟩)

/-! ## Removing and setting an edge -/

/-- What occurs once one equation has another right-hand side. -/
lemma occurs_of_mem_iff {as' : List Assignment} {y : Name} {rhs : String}
    (h : ∀ a, a ∈ as' ↔ a = ⟨y, rhs⟩ ∨ (a ∈ as ∧ a.name ≠ y)) (v : Name) :
    Occurs α as' v ↔ v = y ∨ ReadsIn α rhs v ∨
      ∃ a ∈ as, a.name ≠ y ∧ (a.name = v ∨ ReadsIn α a.rhs v) := by
  simp only [Occurs, List.mem_map, h]
  constructor
  · rintro (⟨a, rfl | ⟨ha, hne⟩, rfl⟩ | ⟨a, rfl | ⟨ha, hne⟩, hread⟩)
    · exact .inl rfl
    · exact .inr (.inr ⟨a, ha, hne, .inl rfl⟩)
    · exact .inr (.inl hread)
    · exact .inr (.inr ⟨a, ha, hne, .inr hread⟩)
  · rintro (rfl | hread | ⟨a, ha, hne, rfl | hread⟩)
    · exact .inl ⟨_, .inl rfl, rfl⟩
    · exact .inr ⟨_, .inl rfl, hread⟩
    · exact .inl ⟨a, .inr ⟨ha, hne⟩, rfl⟩
    · exact .inr ⟨a, .inr ⟨ha, hne⟩, hread⟩

/-- An edge is removed by dropping the parent from the child's equation. The parent stays. -/
lemma Parsed.occurs_removeEdge (h : Parsed α text as) {parent child : String} {x y : Name}
    (hparent : validName? parent = some x) (hchild : validName? child = some y)
    (hok : removeEdge α text parent child = .ok text') (haccepted : Accepted α text') :
    ∃ a ∈ as, a.name = y ∧ ∃ rhs as', dropVariable α a.rhs x = .ok rhs ∧ Reads α rhs ∧
      Parsed α text' as' ∧ ∀ v, Occurs α as' v ↔ v = x ∨ Occurs α (setFirst y rhs as) v := by
  have hx := isName_of_validName? hparent
  simp only [removeEdge, requireName_eq_ok.mpr hparent, requireName_eq_ok.mpr hchild,
    h.assignments_eq, ok_bind] at hok
  split at hok
  · cases hok
  rename_i a hfind
  have ha := List.mem_of_find?_eq_some hfind
  obtain rfl : a.name = y := by simpa using List.find?_some hfind
  split at hok
  · cases hok
  obtain ⟨rhs, hdrop, hbody, -⟩ := dropVariable_eq_ok hx (h.wellFormed a ha).body (h.reads a ha)
  have hformed := wellFormed_setFirst h.wellFormed (h.wellFormed a ha).name hbody
  have hself := mem_setFirst_self rhs (List.mem_map_of_mem ha)
  simp only [hdrop, ok_bind, assigns_setFirst] at hok
  refine ⟨a, ha, rfl, rhs, ?_⟩
  -- the parent is assigned, or still read, or assigned zero
  by_cases hassigned : assigns x as = true
  · rw [if_pos hassigned] at hok
    cases hok
    have hparsed := parsed_render hformed haccepted
    have hparent : Occurs α (setFirst a.name rhs as) x :=
      .inl (by rwa [map_name_setFirst, ← assigns_iff])
    have hreads : Reads α rhs := hparsed.reads ⟨a.name, rhs⟩ hself
    refine ⟨_, hdrop, hreads, hparsed, fun v => (or_iff_right_of_imp ?_).symm⟩
    rintro rfl
    exact hparent
  rw [if_neg hassigned] at hok
  obtain ⟨l, hl, hok⟩ := bind_eq_ok.mp hok
  have hl := requireModel_eq_ok.mp hl
  have hparsed := parsed_render hformed ⟨l, hl⟩
  by_cases hcontains : l.contains x = true
  · rw [if_pos hcontains] at hok
    cases hok
    have hparent : Occurs α (setFirst a.name rhs as) x := by
      rwa [← hparsed.mem_keys_iff hl, ← Table.contains_iff_mem_keys]
    have hreads : Reads α rhs := hparsed.reads ⟨a.name, rhs⟩ hself
    refine ⟨_, hdrop, hreads, hparsed, fun v => (or_iff_right_of_imp ?_).symm⟩
    rintro rfl
    exact hparent
  · rw [if_neg hcontains] at hok
    cases hok
    have hzeros : ∀ d ∈ [x], isName d.toList = true := by simpa using hx
    have hreads : Reads α rhs := hparsed.reads ⟨a.name, rhs⟩ hself
    have hparsed' := parsed_render (wellFormed_append_zeros hformed hzeros) haccepted
    refine ⟨_, hdrop, hreads, hparsed', fun v => ?_⟩
    show Occurs α (setFirst a.name rhs as ++ [x].map fun d => ⟨d, "0"⟩) v ↔ _
    rw [occurs_append_zeros, List.mem_singleton, or_comm]

/-- **The variables after an edge has been removed**: all of them, except those that disappear. -/
theorem Parsed.mem_keys_removeEdge (hzero : negligible (Scalar.zero : α) = true)
    (h : Parsed α text as) (hm : Model.ofText text = .ok m) (hm' : Model.ofText text' = .ok m')
    {parent child : String} {x y : Name} (hparent : validName? parent = some x)
    (hchild : validName? child = some y) (hvariable : x ∈ m.keys)
    (hok : removeEdge α text parent child = .ok text') (v : Name) :
    v ∈ m'.keys ↔ v ∈ m.keys ∧
      ¬ Disappears α as (fun a => a.name = y ∧ HasTerm α a.rhs x) v := by
  have hx := isName_of_validName? hparent
  obtain ⟨b, hb, rfl, rhs, as', hdrop, hreads, hparsed, hoccurs⟩ :=
    h.occurs_removeEdge hparent hchild hok ⟨m', hm'⟩
  have hreadsIn := readsIn_dropVariable hzero hx (h.reads b hb) hreads hdrop v
  have hmem : ∀ a, a ∈ setFirst b.name rhs as ↔ a = ⟨b.name, rhs⟩ ∨ (a ∈ as ∧ a.name ≠ b.name) :=
    fun _ => mem_setFirst_iff h.nodup (List.mem_map_of_mem hb)
  rw [hparsed.mem_keys_iff hm', hoccurs, occurs_of_mem_iff hmem, hreadsIn, not_disappears_iff]
  rw [h.mem_keys_iff hm] at hvariable ⊢
  constructor
  · rintro (rfl | rfl | hread | ⟨a, ha, hne, rfl | hread⟩)
    · exact ⟨hvariable, hvariable.imp_right fun ⟨a, ha, hread⟩ =>
        ⟨a, ha, hread, fun h => h.1.2.not_fades h.2⟩⟩
    · have hassigned := List.mem_map_of_mem (f := Assignment.name) hb
      exact ⟨.inl hassigned, .inl hassigned⟩
    · exact ⟨.inr ⟨b, hb, hread.1⟩, .inr ⟨b, hb, hread.1, fun h => hread.2.2 ⟨h.1.2, h.2⟩⟩⟩
    · have hassigned := List.mem_map_of_mem (f := Assignment.name) ha
      exact ⟨.inl hassigned, .inl hassigned⟩
    · exact ⟨.inr ⟨a, ha, hread⟩, .inr ⟨a, ha, hread, fun h => hne h.1.1⟩⟩
  · rintro ⟨-, hassigned | ⟨a, ha, hread, hkept⟩⟩
    · obtain ⟨a, ha, rfl⟩ := List.mem_map.mp hassigned
      by_cases hname : a.name = b.name
      · exact .inr (.inl hname)
      · exact .inr (.inr (.inr ⟨a, ha, hname, .inl rfl⟩))
    · by_cases hv : v = x
      · exact .inl hv
      by_cases hname : a.name = b.name
      · obtain rfl := h.eq_of_name ha hb hname
        exact .inr (.inr (.inl ⟨hread, hv, fun h => hkept ⟨⟨rfl, h.1⟩, h.2⟩⟩))
      · exact .inr (.inr (.inr ⟨a, ha, hname, .inr hread⟩))

/-- **The variables after an edge has been set**: all of them, except those that disappear. The
parent is a case of its own, as setting a negligible coefficient removes its term. -/
theorem Parsed.mem_keys_setEdge (h : Parsed α text as) (hm : Model.ofText text = .ok m)
    (hm' : Model.ofText text' = .ok m') {parent child : String} {x y : Name} {coefficient : α}
    {insistOnTerm : Bool} (hparent : validName? parent = some x)
    (hchild : validName? child = some y)
    (hok : setEdge text parent child coefficient insistOnTerm = .ok text') {v : Name}
    (hv : v ∈ m.keys) (hne : v ≠ x) :
    v ∈ m'.keys ↔ ¬ Disappears α as (fun a => a.name = y) v := by
  obtain ⟨as', rhs, hparsed, hmem, hreads⟩ := h.readsIn_setEdge hparent hchild hok
  rw [h.mem_keys_iff hm] at hv
  rw [hparsed.mem_keys_iff hm', occurs_of_mem_iff hmem, hreads, if_neg hne, not_disappears_iff]
  constructor
  · rintro (rfl | ⟨a, ha, -, hread, hkept⟩ | ⟨a, ha, hname, rfl | hread⟩)
    · rcases hv with hassigned | ⟨a, ha, hread⟩
      · exact .inl hassigned
      · by_cases hname : a.name = v
        · exact .inl (hname ▸ List.mem_map_of_mem ha)
        · exact .inr ⟨a, ha, hread, fun h => hname h.1⟩
    · exact .inr ⟨a, ha, hread, fun h => hkept h.2⟩
    · exact .inl (List.mem_map_of_mem ha)
    · exact .inr ⟨a, ha, hread, fun h => hname h.1⟩
  · rintro (hassigned | ⟨a, ha, hread, hkept⟩)
    · obtain ⟨a, ha, rfl⟩ := List.mem_map.mp hassigned
      by_cases hname : a.name = y
      · exact .inl hname
      · exact .inr (.inr ⟨a, ha, hname, .inl rfl⟩)
    · by_cases hname : a.name = y
      · exact .inr (.inl ⟨a, ha, hname, hread, fun h => hkept ⟨hname, h⟩⟩)
      · exact .inr (.inr ⟨a, ha, hname, .inr hread⟩)

/-- **Edits keep all variables but those that disappear.** A variable disappears if it is not
assigned and fades from every equation that reads it: the edit writes all these equations anew, and
in their affine forms it has no term. Removing a variable removes that variable besides, removing an
edge keeps its parent, and setting an edge keeps everything else. -/
theorem edits_keep_variables_iff (hzero : negligible (Scalar.zero : α) = true)
    (has : assignments text = .ok as) (hm : Model.ofText text = .ok m)
    (hm' : Model.ofText text' = .ok m') :
    (∀ name x, validName? name = some x → removeNode α text name = .ok text' →
      ∀ v, v ∈ m'.keys ↔ v ∈ m.keys ∧ v ≠ x ∧
        ¬ Disappears α as (fun a => a.name ≠ x ∧ HasTerm α a.rhs x) v) ∧
    (∀ parent child x y, validName? parent = some x → validName? child = some y → x ∈ m.keys →
      removeEdge α text parent child = .ok text' →
      ∀ v, v ∈ m'.keys ↔ v ∈ m.keys ∧
        ¬ Disappears α as (fun a => a.name = y ∧ HasTerm α a.rhs x) v) ∧
    (∀ parent child x y, ∀ coefficient : α, ∀ insistOnTerm, validName? parent = some x →
      validName? child = some y →
      setEdge text parent child coefficient insistOnTerm = .ok text' →
      ∀ v ∈ m.keys, v ≠ x → (v ∈ m'.keys ↔ ¬ Disappears α as (fun a => a.name = y) v)) := by
  obtain ⟨as', h⟩ := accepted_iff_parsed.mp ⟨m, hm⟩
  obtain rfl : as = as' := Except.ok.inj (has.symm.trans h.assignments_eq)
  refine ⟨fun name x hname hok v => ?_, fun parent child x y hparent hchild hvariable hok v => ?_,
    fun parent child x y coefficient insistOnTerm hparent hchild hok v hv hne => ?_⟩
  · exact h.mem_keys_removeNode hzero hm hm' hname hok v
  · exact h.mem_keys_removeEdge hzero hm hm' hparent hchild hvariable hok v
  · exact h.mem_keys_setEdge hm hm' hparent hchild hok hv hne

end

variable (α) in
/-- The variables of a text that has a model. -/
def variables? (text : String) : Option (List Name) :=
  (Model.ofText text : Except ParseError (Model α)).toOption.map Table.keys

/-- When the edge from `A` to `Y` is removed, `B` disappears; `C` is read by another equation. -/
theorem edits_keep_variables_twoFaded :
    ∃ (as : List Assignment) (m m' : Model Float),
      assignments "Y = A + 0*B + 0*C\nZ = sin(C)" = .ok as ∧
      Model.ofText "Y = A + 0*B + 0*C\nZ = sin(C)" = .ok m ∧
      removeEdge Float "Y = A + 0*B + 0*C\nZ = sin(C)" "A" "Y" =
        .ok "Y = 0\nZ = sin(C)\nA = 0" ∧
      Model.ofText "Y = 0\nZ = sin(C)\nA = 0" = .ok m' ∧
      ("B" ∈ m.keys ∧ "B" ∉ m'.keys ∧
        Disappears Float as (fun a => a.name = "Y" ∧ HasTerm Float a.rhs "A") "B") ∧
      ("C" ∈ m'.keys ∧
        ¬ Disappears Float as (fun a => a.name = "Y" ∧ HasTerm Float a.rhs "A") "C") := by
  obtain ⟨as, has⟩ : ∃ as, assignments "Y = A + 0*B + 0*C\nZ = sin(C)" = .ok as := ⟨_, rfl⟩
  obtain ⟨m, hm, hkeys⟩ := exists_of_toOption_map (show
    variables? Float "Y = A + 0*B + 0*C\nZ = sin(C)" = some ["Y", "Z", "A", "B", "C"] by
      decide +kernel)
  obtain ⟨m', hm', hkeys'⟩ := exists_of_toOption_map (show
    variables? Float "Y = 0\nZ = sin(C)\nA = 0" = some ["Y", "Z", "A", "C"] by decide +kernel)
  have hok : removeEdge Float "Y = A + 0*B + 0*C\nZ = sin(C)" "A" "Y" =
      .ok "Y = 0\nZ = sin(C)\nA = 0" := by decide +kernel
  have hzero : negligible (Scalar.zero : Float) = true := by decide +kernel
  have hkept := (edits_keep_variables_iff hzero has hm hm').2.1 "A" "Y" "A" "Y" (by decide +kernel)
    (by decide +kernel) (by simp [hkeys]) hok
  refine ⟨as, m, m', has, hm, hok, hm', ⟨by simp [hkeys], by simp [hkeys'], ?_⟩,
    by simp [hkeys'], ?_⟩
  · by_contra hnot
    exact absurd ((hkept "B").mpr ⟨by simp [hkeys], hnot⟩) (by simp [hkeys'])
  · exact ((hkept "C").mp (by simp [hkeys'])).2

/-- All three edits can lose a variable that they are not about. -/
theorem edits_lose_variable :
    variables? Float "Y = A + 0*B" = some ["Y", "A", "B"] ∧
      removeNode Float "Y = A + 0*B" "A" = .ok "Y = 0" ∧
      variables? Float "Y = 0" = some ["Y"] ∧
      removeEdge Float "Y = A + 0*B" "A" "Y" = .ok "Y = 0\nA = 0" ∧
      variables? Float "Y = 0\nA = 0" = some ["Y", "A"] ∧
      setEdge "Y = A + 0*B" "A" "Y" (Scalar.ofNat 2 : Float) false = .ok "Y = 2*A" ∧
      variables? Float "Y = 2*A" = some ["Y", "A"] := by
  refine ⟨?_, ?_, ?_, ?_, ?_, ?_, ?_⟩ <;> decide +kernel

end CausalEquations
