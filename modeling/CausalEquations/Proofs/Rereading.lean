import CausalEquations.Proofs.Listing
import CausalEquations.Proofs.SubstitutedNumerals

/-!
# Reading an edited equation again

An equation in which a name has been replaced can be read again unless the replacement breaks a
numeral or takes the place of a function's name without being one. Its names are the old ones,
renamed.

* `reads_substitute_iff`, `reads_substitute_zero_iff` — when the equation can be read again.
* `Derives.lists` — the names of a tree are those of its tokens.
* `dependencies_substitute`, `mem_dependencies_substitute_zero` — the variables of the new tree.
-/

namespace CausalEquations

variable {α : Type} [Scalar α]

/-! ## Reading again -/

/-- Which names are known functions before the replacement. -/
lemma knownBefore_isFunction (old : Name) {r : Name} (hr : IsReplacement r.toList) (x : Name) :
    knownBefore old.toList r.toList Expr.isFunction x =
      if x = old then Expr.isFunction r else Expr.isFunction x := by
  rw [knownBefore, String.ofList_toList, String.ofList_toList]
  rcases hr with hr | hr
  · rw [hr, Bool.true_and]
  · obtain rfl : r = "0" := String.toList_injective hr
    rw [Expr.isFunction_zero, Bool.and_false]

/-- The machine goes through the tokens of a tree if the replacement is known wherever the replaced
name is called. -/
lemma accepts_knownBefore_iff {old r : Name} (hr : IsReplacement r.toList) {ts : List Token}
    {e : Expr α} (h : Forms Expr.isFunction ts e) :
    Accepts (knownBefore old.toList r.toList Expr.isFunction) (ts.map Token.lexeme) ↔
      (e.Calls old → Expr.isFunction r = true) := by
  obtain ⟨d, hcalls⟩ := h
  have hknown := knownBefore_isFunction old hr
  constructor
  · intro haccepts hcall
    obtain ⟨name, hname, hfunction⟩ := hcalls _ hcall
    obtain rfl := Option.some.inj hname
    have hne : ∀ x, Expr.isFunction x = false → x ≠ old := by
      rintro x hx rfl
      rw [hx] at hfunction
      cases hfunction
    have hunknown : ∀ x, Expr.isFunction x = false →
        knownBefore old.toList r.toList Expr.isFunction x = false := by
      intro x hx
      rw [hknown, if_neg (hne x hx), hx]
    obtain ⟨e', d', hcalls'⟩ := (accepts_iff (α := α) (hunknown _ Expr.isFunction_true)
      (hunknown _ Expr.isFunction_false)).mp haccepts
    rw [d'.unique d] at hcalls'
    obtain ⟨name, hname, hr⟩ := hcalls' _ hcall
    obtain rfl := Option.some.inj hname
    rwa [hknown, if_pos rfl] at hr
  · intro h
    have hcalls' : e.CallsOnly (knownBefore old.toList r.toList Expr.isFunction) := by
      intro f hf
      obtain ⟨name, rfl, hfunction⟩ := hcalls f hf
      refine ⟨name, rfl, ?_⟩
      rw [hknown]
      split
      · rename_i heq
        subst heq
        exact h hf
      · exact hfunction
    obtain ⟨callee, hrun, -⟩ := d.passes hcalls' false []
    exact ⟨callee, hrun⟩

lemma carries_of_read {old r : Name} {rhs : String} {body : List Token} {e : Expr α}
    (hold : isName old.toList = true) (hr : IsReplacement r.toList) (hscans : Scans rhs body)
    (h : Forms Expr.isFunction body e) :
    Carries old.toList r.toList rhs.toList (body.map Token.lexeme) := by
  obtain ⟨callee, hrun, -⟩ := h.1.passes h.2 false []
  exact carries hold hr hscans.layout ⟨_, _, callee, hrun⟩

/-- **When an equation can be read again**: every numeral survives, and where the name is called
the replacement is a function. -/
theorem reads_substitute_iff {old r : Name} {rhs : String} {e : Expr α}
    (hold : isName old.toList = true) (hr : IsReplacement r.toList) (he : Expr.read rhs = .ok e) :
    Reads α (substitute old r rhs) ↔
      (e.Calls old → Expr.isFunction r = true) ∧
        NumeralsSurvive old.toList r.toList rhs.toList := by
  obtain ⟨body, hscans, hforms⟩ := read_eq_ok.mp he
  have hcarries := carries_of_read hold hr hscans hforms
  rw [reads_iff, substitute, String.toList_ofList]
  by_cases hsurvive : NumeralsSurvive old.toList r.toList rhs.toList
  · obtain ⟨ls, hlayout, hfinishes, -⟩ := hcarries.kept hsurvive
    rw [← accepts_knownBefore_iff hr hforms]
    constructor
    · rintro ⟨ls', hlayout', haccepts⟩
      rw [hlayout'.unique hlayout] at haccepts
      exact ⟨(hfinishes _ _).mp haccepts, hsurvive⟩
    · rintro ⟨haccepts, -⟩
      exact ⟨ls, hlayout, (hfinishes _ _).mpr haccepts⟩
  · refine iff_of_false ?_ fun h => hsurvive h.2
    rintro ⟨ls', hlayout', haccepts⟩
    exact hcarries.lost hsurvive ls' hlayout' ⟨_, _, haccepts⟩

/-! ## Zero in the place of a name -/

lemma numeralsSurvive_of_completes {old r cs : List Char} {ls : List Lexeme}
    (hold : isName old = true) (hr : Completes r) (h : Layout cs ls) (hfollows : Follows ls) :
    NumeralsSurvive old r cs := by
  induction h with
  | nil => exact List.forall_mem_nil _
  | blank hblank _ ih =>
      rw [NumeralsSurvive, numeralsFrom_blank hblank]
      exact ih hfollows
  | @lexeme kind text cs ls hlex _ h ih =>
      rw [NumeralsSurvive, numeralsFrom_lexeme hlex]
      split
      · rename_i hkind
        subst hkind
        have hn : IsNumeral text := by
          cases isLexeme_of_lexeme? hlex with
          | number hnumeral => exact (takeNumeral?_eq_some hnumeral).2
          | symbol hmem _ _ => exact absurd rfl (symbolTokens_ne_number hmem)
        refine List.forall_mem_cons.mpr ⟨?_, ih hfollows.tail⟩
        exact survives_of_completes hold hr hn (hfollows.separated_number h)
      · exact ih hfollows.tail

/-- An equation in which a name gives way to zero can be read again unless the name is called. -/
theorem reads_substitute_zero_iff {old : Name} {rhs : String} {e : Expr α}
    (hold : isName old.toList = true) (he : Expr.read rhs = .ok e) :
    Reads α (substitute old "0" rhs) ↔ ¬ e.Calls old := by
  obtain ⟨body, hscans, hforms⟩ := read_eq_ok.mp he
  obtain ⟨callee, hrun, -⟩ := hforms.1.passes hforms.2 false []
  have hsurvive : NumeralsSurvive old.toList "0".toList rhs.toList :=
    numeralsSurvive_of_completes hold (.inl rfl) hscans.layout ⟨_, _, callee, hrun⟩
  rw [reads_substitute_iff hold (.inr rfl) he, Expr.isFunction_zero]
  exact ⟨fun h hcalls => (Bool.false_ne_true (h.1 hcalls)).elim,
    fun h => ⟨fun hcalls => absurd hcalls h, hsurvive⟩⟩

/-! ## Names -/

@[simp] lemma namesOf_append (ls ls' : List Lexeme) :
    namesOf (ls ++ ls') = namesOf ls ++ namesOf ls' := List.filterMap_append

lemma namesOf_cons_of_ne {t : Token} (h : t.kind ≠ .name) (ls : List Lexeme) :
    namesOf (t.lexeme :: ls) = namesOf ls := by
  rw [namesOf_cons]
  simp [namesOf, Token.lexeme, h]

lemma Token.IsMark.ne_name {t : Token} {mark : String} (h : t.IsMark mark) : t.kind ≠ .name := by
  rw [h.1]
  decide

lemma Token.IsBinary.ne_name {table : List (String × Int)} {t : Token} {s : Int}
    (h : t.IsBinary table s) : t.kind ≠ .name := by
  rw [h.1]
  decide

lemma Token.IsUnary.ne_name {t : Token} (h : t.IsUnary) : t.kind ≠ .name := by
  rw [h.1]
  decide

/-- The two truth values look like names. -/
def isTruth (x : Name) : Bool := x == "true" || x == "false"

/-- The names that pass are those that pass among the names of the tokens. -/
def Lists (p : Name → Bool) (ts : List Token) (names : List Name) : Prop :=
  names.filter p = (namesOf (ts.map Token.lexeme)).filter fun x => p x && !isTruth x

section Lists

variable {p : Name → Bool} {ts us : List Token} {xs ys : List Name} {t : Token}

lemma Lists.nil : Lists p [] [] := rfl

lemma Lists.append (hx : Lists p ts xs) (hy : Lists p us ys) : Lists p (ts ++ us) (xs ++ ys) := by
  unfold Lists at hx hy ⊢
  rw [List.filter_append, List.map_append, namesOf_append, List.filter_append, hx, hy]

lemma Lists.skip (ht : t.kind ≠ .name) (h : Lists p ts xs) : Lists p (t :: ts) xs := by
  unfold Lists at h ⊢
  rw [List.map_cons, namesOf_cons_of_ne ht, h]

lemma Lists.name (ht : t.kind = .name) : Lists p [t] (Expr.ofName t.text : Expr α).identifiers := by
  have hnames : namesOf ([t].map Token.lexeme) = [t.text] := by
    simp [namesOf, Token.lexeme, ht]
  unfold Lists Expr.ofName
  rw [hnames]
  split
  · rename_i heq
    simp [Expr.identifiers, isTruth, heq]
  · split
    · rename_i heq
      simp [Expr.identifiers, isTruth, heq]
    · rename_i htrue hfalse
      have htruth : isTruth t.text = false := by simp [isTruth, htrue, hfalse]
      simp only [Expr.identifiers, List.filter_singleton, htruth, Bool.not_false, Bool.and_true]

omit [Scalar α] in
/-- The name of a called function does not pass. -/
lemma Lists.callee {f : Expr α} (h : Lists p ts f.identifiers)
    (hf : Expr.IsCallable (fun x => !p x) f) : Lists p ts [] := by
  obtain ⟨name, rfl, hname⟩ := hf
  have hname : p name = false := by simpa using hname
  unfold Lists at h ⊢
  rw [← h]
  simp [Expr.identifiers, hname]

mutual

/-- The names of a tree are those of its tokens, as far as they are neither called nor truth
values. -/
lemma Derives.lists {phrase : Phrase} {ts : List Token} {e : Expr α} :
    Derives precedence phrase ts e → e.CallsOnly (fun x => !p x) → Lists p ts e.identifiers
  | .choice htest hq ha hc hb, hcalls => by
      obtain ⟨h₁, h₂, h₃⟩ := hcalls.of_choice
      rw [Expr.identifiers, List.append_assoc]
      exact (htest.lists h₁).append (.skip hq.ne_name
        ((ha.lists h₂).append (.skip hc.ne_name (hb.lists h₃))))
  | .ofBinary h, hcalls => h.lists hcalls
  | .binary hl ht _ hr, hcalls => by
      obtain ⟨h₁, h₂⟩ := hcalls.of_binary
      exact (hl.lists h₁).append (.skip ht.ne_name (hr.lists h₂))
  | .ofOperand h, hcalls => h.lists hcalls
  | .unary ht h, hcalls => .skip ht.ne_name (h.lists hcalls)
  | .ofApplied h, hcalls => h.lists hcalls
  | .call hf ho hargs hc, hcalls => by
      simp only [Expr.CallsOnly, Expr.callees, List.forall_mem_cons, List.forall_mem_append]
        at hcalls
      obtain ⟨⟨name, hname, hknown⟩, hcallee, hrest⟩ := hcalls
      have hcallee := (hf.lists hcallee).callee ⟨name, Expr.name?_eq_some.mp hname, hknown⟩
      have hargs := (hargs.lists hrest).append (.skip hc.ne_name .nil)
      rw [List.append_nil] at hargs
      exact hcallee.append (.skip ho.ne_name hargs)
  | .callEmpty hf ho hc, hcalls => by
      simp only [Expr.CallsOnly, Expr.callees, List.forall_mem_cons, List.forall_mem_append]
        at hcalls
      obtain ⟨⟨name, hname, hknown⟩, hcallee, -⟩ := hcalls
      have hcallee := (hf.lists hcallee).callee ⟨name, Expr.name?_eq_some.mp hname, hknown⟩
      exact hcallee.append (.skip ho.ne_name (.skip hc.ne_name .nil))
  | .ofPrimary h, hcalls => h.lists hcalls
  | .number ht, _ => .skip (by rw [ht]; decide) .nil
  | .name ht, _ => .name ht
  | .group ho h hc, hcalls => by
      have hinner := (h.lists hcalls).append (.skip hc.ne_name .nil)
      rw [List.append_nil] at hinner
      exact .skip ho.ne_name hinner

lemma DerivesArguments.lists {ts : List Token} {es : List (Expr α)} :
    DerivesArguments precedence ts es →
      (∀ f ∈ Expr.calleesOfList es, ∃ name, f = some name ∧ (!p name) = true) →
      Lists p ts (Expr.identifiersOfList es)
  | .last h, hcalls => by
      rw [Expr.calleesOfList, Expr.calleesOfList, List.append_nil] at hcalls
      rw [Expr.identifiersOfList, Expr.identifiersOfList, List.append_nil]
      exact h.lists hcalls
  | .more h ht hrest, hcalls => by
      simp only [Expr.calleesOfList, List.forall_mem_append] at hcalls
      exact (h.lists hcalls.1).append (.skip ht.ne_name (hrest.lists hcalls.2))

end

end Lists

/-- A name that denotes a variable. -/
def isVariable (x : Name) : Bool := !isReserved x && !isTruth x

/-- The variables that an equation reads are the variables among its names. -/
lemma dependencies_of_forms {body : List Token} {e : Expr α} (h : Forms Expr.isFunction body e) :
    e.dependencies = ((namesOf (body.map Token.lexeme)).filter isVariable).eraseDups := by
  have hcalls : e.CallsOnly fun x => !!isReserved x := h.2.mono fun name hname => by
    have hfunction : (Builtin.ofName? name).isSome = true := hname
    simp [isReserved, hfunction]
  exact congrArg List.eraseDups (h.1.lists hcalls)

/-- The names of the new equation are those of the old one, respelled. -/
lemma namesOf_substitute {old r : Name} {rhs : String} {ls ls' : List Lexeme}
    (hold : isName old.toList = true) (hr : IsReplacement r.toList) (hreads : Reads α rhs)
    (hreads' : Reads α (substitute old r rhs)) (h : Layout rhs.toList ls)
    (h' : Layout (substitute old r rhs).toList ls') :
    namesOf ls' = (namesOf ls).flatMap (respelled old.toList r.toList) := by
  obtain ⟨e, he⟩ := hreads
  obtain ⟨body, hscans, hforms⟩ := read_eq_ok.mp he
  have hsurvive := ((reads_substitute_iff hold hr he).mp hreads').2
  obtain ⟨ls'', hlayout, -, hnames⟩ := (carries_of_read hold hr hscans hforms).kept hsurvive
  rw [substitute, String.toList_ofList] at h'
  rw [hlayout.unique h'] at hnames
  rw [h.unique hscans.layout, hnames]

lemma mem_respelled_zero {old x y : Name} :
    x ∈ respelled old.toList "0".toList y ↔ x = y ∧ x ≠ old := by
  have hzero : isName "0".toList = false := by decide
  rw [respelled, hzero, String.ofList_toList]
  by_cases hy : y = old
  · simp [hy]
  · simp only [hy, if_false, List.mem_singleton]
    exact ⟨fun h => ⟨h, fun hx => hy (h ▸ hx)⟩, And.left⟩

/-- **The variables of an equation in which a variable has been renamed** are the renamed ones, if
no two of them get the same name. -/
theorem dependencies_substitute {old r : Name} {rhs : String} {e e' : Expr α}
    (hold : isName old.toList = true) (hr : isName r.toList = true)
    (hvariable : isVariable old = true) (hvariable' : isVariable r = true)
    (he : Expr.read rhs = .ok e) (he' : Expr.read (substitute old r rhs) = .ok e')
    (hinj : ∀ x ∈ e.dependencies, ∀ y ∈ e.dependencies,
      renamed old r x = renamed old r y → x = y) :
    e'.dependencies = e.dependencies.map (renamed old r) := by
  obtain ⟨body, hscans, hforms⟩ := read_eq_ok.mp he
  obtain ⟨body', hscans', hforms'⟩ := read_eq_ok.mp he'
  have hnames := namesOf_substitute hold (.inl hr) ⟨e, he⟩ ⟨e', he'⟩ hscans.layout hscans'.layout
  have hrespelled : respelled old.toList r.toList = fun x => [renamed old r x] := by
    funext x
    rw [respelled, if_pos hr, String.ofList_toList, String.ofList_toList, renamed]
    split <;> rfl
  have hkeeps : ∀ x, isVariable (renamed old r x) = isVariable x := by
    intro x
    unfold renamed
    split
    · rename_i heq
      rw [heq, hvariable, hvariable']
    · rfl
  have hfilter : ∀ l : List Name, (l.map (renamed old r)).filter isVariable =
      (l.filter isVariable).map (renamed old r) := by
    intro l
    rw [List.filter_map]
    exact congrArg _ (List.filter_congr fun x _ => hkeeps x)
  rw [dependencies_of_forms hforms] at hinj ⊢
  simp only [List.mem_eraseDups] at hinj
  rw [dependencies_of_forms hforms', hnames, hrespelled, ← List.map_eq_flatMap, hfilter,
    eraseDups_map _ hinj]

/-- Where a name gives way to zero, the other variables remain. -/
theorem mem_dependencies_substitute_zero {old : Name} {rhs : String} {e e' : Expr α}
    (hold : isName old.toList = true) (he : Expr.read rhs = .ok e)
    (he' : Expr.read (substitute old "0" rhs) = .ok e') {x : Name} :
    x ∈ e'.dependencies ↔ x ∈ e.dependencies ∧ x ≠ old := by
  obtain ⟨body, hscans, hforms⟩ := read_eq_ok.mp he
  obtain ⟨body', hscans', hforms'⟩ := read_eq_ok.mp he'
  have hnames := namesOf_substitute hold (.inr rfl) ⟨e, he⟩ ⟨e', he'⟩ hscans.layout hscans'.layout
  simp only [dependencies_of_forms hforms, dependencies_of_forms hforms', hnames,
    List.mem_eraseDups, List.mem_filter, List.mem_flatMap, mem_respelled_zero]
  constructor
  · rintro ⟨⟨y, hy, rfl, hne⟩, hvariable⟩
    exact ⟨⟨hy, hvariable⟩, hne⟩
  · rintro ⟨⟨hx, hvariable⟩, hne⟩
    exact ⟨⟨x, hx, rfl, hne⟩, hvariable⟩

end CausalEquations
