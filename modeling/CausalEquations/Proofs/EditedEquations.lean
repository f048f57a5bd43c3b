import CausalEquations.Proofs.AffineTerms
import CausalEquations.Proofs.Models
import CausalEquations.Proofs.WrittenForms

/-!
# What an edit makes of one equation

An edit replaces a name in a right-hand side, or drops a variable from it. Either way the result is
a right-hand side again, and it is known when it can be read.

* `IsBody.substitute`, `Reads.substitute_iff` — the replacement of a name.
* `CallsIn` — the name of a function that a right-hand side calls.
* `dropVariable_eq_ok` — the removal of a variable.
-/

namespace CausalEquations

/-! ## The last character -/

lemma runs_ne_nil (cs : List Char) : ∀ run ∈ runs cs, run ≠ [] := by
  induction cs with
  | nil => simp [runs]
  | cons c cs ih =>
      intro run hrun
      rw [runs_cons] at hrun
      rcases h : runs cs with _ | ⟨_ | ⟨d, first⟩, more⟩
      · simp_all [joinRun]
      · exact absurd rfl (ih [] (by simp [h]))
      · have hmore : ∀ run ∈ more, run ≠ [] := fun run hmem => ih run (by simp [h, hmem])
        rw [h, joinRun] at hrun
        split at hrun
        · rcases List.mem_cons.mp hrun with rfl | hrun
          · simp
          · exact hmore run hrun
        · rcases List.mem_cons.mp hrun with rfl | hrun
          · simp
          · rcases List.mem_cons.mp hrun with rfl | hrun
            · simp
            · exact hmore run hrun

variable {old r cs : List Char}

/-- The replaced runs end like the runs, or like the replacement. -/
lemma getLast?_flatMap (hr : r ≠ []) {rs : List (List Char)} (hrs : ∀ run ∈ rs, run ≠ []) :
    (rs.flatMap fun run => if run = old then r else run).getLast? = rs.flatten.getLast? ∨
      (rs.flatMap fun run => if run = old then r else run).getLast? = r.getLast? := by
  induction rs with
  | nil => exact .inl rfl
  | cons run rest ih =>
      obtain ⟨-, hrest⟩ := List.forall_mem_cons.mp hrs
      cases rest with
      | nil =>
          by_cases heq : run = old
          · exact .inr (by simp [heq])
          · exact .inl (by simp [heq])
      | cons next rest =>
          have hnext : next ≠ [] := hrest next (by simp)
          have hflatten : (next :: rest).flatten ≠ [] := by simp [hnext]
          have hreplaced :
              ((next :: rest).flatMap fun run => if run = old then r else run) ≠ [] := by
            simp only [List.flatMap_cons, ne_eq, List.append_eq_nil_iff, not_and_or]
            left
            split
            · exact hr
            · exact hnext
          rw [List.flatMap_cons, List.flatten_cons, List.getLast?_append_of_ne_nil _ hreplaced,
            List.getLast?_append_of_ne_nil _ hflatten]
          exact ih hrest

lemma getLast?_replaceWord (hr : r ≠ []) (cs : List Char) :
    (replaceWord old r cs).getLast? = cs.getLast? ∨
      (replaceWord old r cs).getLast? = r.getLast? := by
  have h : (replaceWord old r cs).getLast? = (runs cs).flatten.getLast? ∨
      (replaceWord old r cs).getLast? = r.getLast? := getLast?_flatMap hr (runs_ne_nil cs)
  rwa [flatten_runs] at h

lemma mem_replaceWord {c : Char} (h : c ∈ replaceWord old r cs) : c ∈ cs ∨ c ∈ r := by
  obtain ⟨run, hrun, hc⟩ := List.mem_flatMap.mp h
  split at hc
  · exact .inr hc
  · rw [← flatten_runs cs]
    exact .inl (List.mem_flatten_of_mem hrun hc)

/-! ## Replacing a name -/

/-- What has been edited is a right-hand side again. -/
lemma IsBody.substitute {old r : Name} {rhs : String} (h : IsBody rhs.toList)
    (hold : isName old.toList = true) (hr : IsReplacement r.toList) :
    IsBody (substitute old r rhs).toList := by
  have hword := isWord_of_isName hold
  have hblank : ∀ c ∈ r.toList, isBlank c = false :=
    fun c hc => isBlank_of_isWordChar (hr.isWord.2 c hc)
  rw [CausalEquations.substitute, String.toList_ofList]
  refine ⟨?_, ⟨?_, ?_⟩, ?_⟩
  · intro hnil
    rcases head_replaceWord hword hr.ne_nil rhs.toList with hhead | ⟨hhead, -⟩
    · rw [hnil, List.head?_nil] at hhead
      exact h.ne_nil (List.head?_eq_none_iff.mp hhead.symm)
    · rw [hnil, List.head?_nil] at hhead
      exact hr.ne_nil (List.head?_eq_none_iff.mp hhead.symm)
  · intro c hc
    rcases head_replaceWord hword hr.ne_nil rhs.toList with hhead | ⟨hhead, -⟩
    · exact h.trimmed.1 c (hhead ▸ hc)
    · exact hblank c (List.mem_of_head? (hhead ▸ hc))
  · intro c hc
    rcases getLast?_replaceWord hr.ne_nil rhs.toList with hlast | hlast
    · exact h.trimmed.2 c (hlast ▸ hc)
    · exact hblank c (List.mem_of_getLast? (hlast ▸ hc))
  · intro c hc
    rcases mem_replaceWord hc with hc | hc
    · exact h.inline c hc
    · exact endsStatement_of_isWordChar (hr.isWord.2 c hc)

lemma substitute_of_not_mentions {old r : Name} {rhs : String} (h : mentions old rhs = false) :
    substitute old r rhs = rhs := by
  rw [substitute, replaceWord_of_hasWord h, String.ofList_toList]

variable {α : Type} [Scalar α]

variable (α) in
/-- The right-hand side calls the function of this name. -/
def CallsIn (rhs : String) (name : Name) : Prop :=
  ∃ e : Expr α, Expr.read rhs = .ok e ∧ e.Calls name

lemma callsIn_iff {rhs : String} {name : Name} {e : Expr α} (he : Expr.read rhs = .ok e) :
    CallsIn α rhs name ↔ e.Calls name := by
  simp [CallsIn, he]

/-- A name that is called is the name of a function. -/
lemma CallsIn.isFunction {rhs : String} {name : Name} (h : CallsIn α rhs name) :
    Expr.isFunction name = true := by
  obtain ⟨e, he, hcalls⟩ := h
  obtain ⟨known, heq, hknown⟩ := (Expr.read_eq_ok.mp he).2 _ hcalls
  rwa [Option.some.inj heq]

lemma Reads.substitute_iff {old r : Name} {rhs : String} (h : Reads α rhs)
    (hold : isName old.toList = true) (hr : IsReplacement r.toList) :
    Reads α (substitute old r rhs) ↔
      (CallsIn α rhs old → Expr.isFunction r = true) ∧
        NumeralsSurvive old.toList r.toList rhs.toList := by
  obtain ⟨e, he⟩ := h
  rw [reads_substitute_iff hold hr he, callsIn_iff he]

lemma Reads.substitute_zero_iff {old : Name} {rhs : String} (h : Reads α rhs)
    (hold : isName old.toList = true) :
    Reads α (substitute old "0" rhs) ↔ ¬ CallsIn α rhs old := by
  obtain ⟨e, he⟩ := h
  rw [reads_substitute_zero_iff hold he, callsIn_iff he]

/-- What is called is mentioned. -/
lemma Reads.not_callsIn {old : Name} {rhs : String} (h : Reads α rhs)
    (hold : isName old.toList = true) (hmentions : mentions old rhs = false) :
    ¬ CallsIn α rhs old := by
  rw [← h.substitute_zero_iff hold, substitute_of_not_mentions hmentions]
  exact h

/-! ## Dropping a variable -/

/-- The names among the tokens of a text have the form of names. -/
lemma Layout.isName_of_mem {ls : List Lexeme} (h : Layout cs ls) :
    ∀ x ∈ namesOf ls, isName x.toList = true := by
  induction h with
  | nil => simp [namesOf]
  | blank _ _ ih => exact ih
  | @lexeme kind text cs ls hlex _ _ ih =>
      rw [namesOf_cons, List.forall_mem_append]
      refine ⟨fun x hx => ?_, ih⟩
      cases kind with
      | name =>
          obtain rfl : x = String.ofList text := by simpa [namesOf] using hx
          rw [String.toList_ofList]
          exact isName_of_isLexeme (isLexeme_of_lexeme? hlex)
      | _ => simp [namesOf] at hx

/-- The variables that an equation reads have names. -/
lemma isName_of_mem_dependencies {rhs : String} {e : Expr α} (he : Expr.read rhs = .ok e) :
    ∀ x ∈ e.dependencies, isName x.toList = true := by
  obtain ⟨body, hscans, hforms⟩ := read_eq_ok.mp he
  intro x hx
  rw [dependencies_of_forms hforms, List.mem_eraseDups] at hx
  exact hscans.layout.isName_of_mem x (List.mem_filter.mp hx).1

/-- Where nothing is called, the names of a tree are names among the tokens and no truth values. -/
lemma Derives.mem_identifiers {phrase : Phrase} {ts : List Token} {e : Expr α}
    (h : Derives precedence phrase ts e) (hnone : e.callees = []) :
    ∀ x ∈ e.identifiers, x ∈ namesOf (ts.map Token.lexeme) ∧ isTruth x = false := by
  have hlists : Lists (fun _ => true) ts e.identifiers :=
    h.lists (by simp [Expr.CallsOnly, hnone])
  intro x hx
  have hx : x ∈ e.identifiers.filter fun _ => true := by simpa using hx
  rw [hlists] at hx
  simpa using hx

/-- The affine form of a text is normal, and its variables are names of the text. -/
lemma Layout.normal_of_ofExpr? {rhs : String} {ls : List Lexeme} {e : Expr α} {a : Affine α}
    (h : Layout rhs.toList ls) (he : Expr.read rhs = .ok e) (ha : Affine.ofExpr? e = some a) :
    a.Normal ∧ ∀ x ∈ a.order, x ∈ namesOf ls := by
  obtain ⟨body, hscans, hforms⟩ := read_eq_ok.mp he
  obtain ⟨-, -, hnone⟩ := Affine.normal_of_ofExpr? (p := fun _ => True) ha fun _ _ _ => trivial
  have hnames : ∀ x ∈ e.identifiers, x ∈ namesOf ls := by
    intro x hx
    rw [h.unique hscans.layout]
    exact (hforms.1.mem_identifiers hnone x hx).1
  obtain ⟨hnormal, horder, -⟩ := Affine.normal_of_ofExpr? ha fun x hx _ => hnames x hx
  exact ⟨hnormal, horder⟩

/-- The variables of an affine form have names, and where there is one nothing is called. -/
lemma isName_of_ofExpr? {rhs : String} {e : Expr α} {a : Affine α} (he : Expr.read rhs = .ok e)
    (ha : Affine.ofExpr? e = some a) :
    (∀ x ∈ a.order, isName x.toList = true) ∧ ∀ name, ¬ e.Calls name := by
  obtain ⟨body, hscans, -⟩ := read_eq_ok.mp he
  obtain ⟨-, hnames⟩ := hscans.layout.normal_of_ofExpr? he ha
  obtain ⟨-, -, hnone⟩ := Affine.normal_of_ofExpr? (p := fun _ => True) ha fun _ _ _ => trivial
  exact ⟨fun x hx => hscans.layout.isName_of_mem x (hnames x hx), by simp [Expr.Calls, hnone]⟩

lemma readEquation_of_read {rhs : String} {e : Expr α} (he : Expr.read rhs = .ok e) :
    readEquation α rhs = .ok e :=
  mapError_eq_ok.mpr (Expr.read_eq_ok.mp he).1

/-- A variable can be dropped from every equation, and the equation can be read again unless it
calls the function of that name. -/
lemma dropVariable_eq_ok {rhs : String} {name : Name} (hname : isName name.toList = true)
    (hbody : IsBody rhs.toList) (hreads : Reads α rhs) :
    ∃ rhs', dropVariable α rhs name = .ok rhs' ∧ IsBody rhs'.toList ∧
      (Reads α rhs' ↔ ¬ CallsIn α rhs name) := by
  obtain ⟨e, he⟩ := hreads
  have hsubstitute : IsBody (substitute name "0" rhs).toList ∧
      (Reads α (substitute name "0" rhs) ↔ ¬ CallsIn α rhs name) :=
    ⟨hbody.substitute hname (.inr rfl), Reads.substitute_zero_iff ⟨e, he⟩ hname⟩
  simp only [dropVariable, readEquation_of_read he, ok_bind]
  cases ha : Affine.ofExpr? e with
  | none => exact ⟨_, rfl, hsubstitute⟩
  | some a =>
      by_cases hterm : a.terms.contains name = true
      · simp only [hterm, if_true, pure_eq_ok]
        obtain ⟨hnames, hnone⟩ := isName_of_ofExpr? he ha
        have hwritten : IsWritten α (a.setCoefficient name Scalar.zero).render :=
          Affine.isWritten_render (Affine.names_setCoefficient _ hnames hname)
        refine ⟨_, rfl, hwritten.body, ?_⟩
        rw [callsIn_iff he]
        exact iff_of_true hwritten.reads (hnone name)
      · simp only [hterm, Bool.false_eq_true, if_false, pure_eq_ok]
        exact ⟨_, rfl, hsubstitute⟩

end CausalEquations
