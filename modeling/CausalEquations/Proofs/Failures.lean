import CausalEquations.Number.Binary64
import CausalEquations.Proofs.Calls
import CausalEquations.Proofs.ModelGraphs
import CausalEquations.Proofs.Parsing
import CausalEquations.Proofs.Tables

/-!
# How a computation can fail

Whatever the grammar lets into an expression, evaluation knows: every operator and, after the check
of calls, every function. Only the number of arguments is left to the evaluation. So on numbers an
expression fails exactly if some call in it, wherever it stands, has not one argument, and a pass
over a model stops at the first variable in causal order whose equation has such a call.

* `Expr.Miscalls` — somewhere a function is called with a number of arguments other than one.
* `Expr.Meaningful`, `meaningful_of_read` — known operators and functions only, as in all that is
  read.
* `Expr.Meaningful.exists_evaluate_iff`, `Expr.Meaningful.arity_of_error` — when such an expression
  has a value, and why it has none.
* `Faulty`, `Blames` — the variables at which a pass stops, and the error that names one of them.
* `exists_propagate_iff`, `propagate_error` — a pass stops at the first faulty variable.
* `computeValues_fails_by_arity` — both for the model of a text.
-/

namespace CausalEquations

open CausalEquations.Expr (isFunction)

variable {α : Type}

/-! ## Expressions -/

namespace Expr

/-- Somewhere in the expression a function is called with a number of arguments other than one. -/
inductive Miscalls : Expr α → Prop where
  | here {f : Expr α} {args : List (Expr α)} : args.length ≠ 1 → Miscalls (.call f args)
  | callee {f : Expr α} {args : List (Expr α)} : Miscalls f → Miscalls (.call f args)
  | argument {f a : Expr α} {args : List (Expr α)} : a ∈ args → Miscalls a → Miscalls (.call f args)
  | operand {op : String} {a : Expr α} : Miscalls a → Miscalls (.unary op a)
  | left {op : String} {a b : Expr α} : Miscalls a → Miscalls (.binary op a b)
  | right {op : String} {a b : Expr α} : Miscalls b → Miscalls (.binary op a b)
  | test {t a b : Expr α} : Miscalls t → Miscalls (.choice t a b)
  | consequent {t a b : Expr α} : Miscalls a → Miscalls (.choice t a b)
  | alternate {t a b : Expr α} : Miscalls b → Miscalls (.choice t a b)

@[simp] lemma miscalls_literal (value : α) (raw : String) : ¬ (literal value raw).Miscalls := nofun

@[simp] lemma miscalls_identifier (name : Name) : ¬ (identifier name : Expr α).Miscalls := nofun

@[simp] lemma miscalls_unary {op : String} {a : Expr α} : (unary op a).Miscalls ↔ a.Miscalls :=
  ⟨fun | .operand h => h, .operand⟩

@[simp] lemma miscalls_binary {op : String} {a b : Expr α} :
    (binary op a b).Miscalls ↔ a.Miscalls ∨ b.Miscalls :=
  ⟨fun | .left h => .inl h | .right h => .inr h, fun h => h.elim .left .right⟩

@[simp] lemma miscalls_choice {t a b : Expr α} :
    (choice t a b).Miscalls ↔ t.Miscalls ∨ a.Miscalls ∨ b.Miscalls :=
  ⟨fun | .test h => .inl h | .consequent h => .inr (.inl h) | .alternate h => .inr (.inr h),
    fun h => h.elim .test fun h => h.elim .consequent .alternate⟩

@[simp] lemma miscalls_call {f : Expr α} {args : List (Expr α)} :
    (call f args).Miscalls ↔ args.length ≠ 1 ∨ f.Miscalls ∨ ∃ a ∈ args, a.Miscalls :=
  ⟨fun
    | .here h => .inl h
    | .callee h => .inr (.inl h)
    | .argument hmem h => .inr (.inr ⟨_, hmem, h⟩),
  fun h => h.elim .here fun h => h.elim .callee fun ⟨_, hmem, h⟩ => .argument hmem h⟩

/-- The operators and the functions are known ones, and only names are called. -/
inductive Meaningful : Expr α → Prop where
  | literal (value : α) (raw : String) : Meaningful (.literal value raw)
  | identifier (name : Name) : Meaningful (.identifier name)
  | unary {op : String} {a : Expr α} :
      (UnaryOp.ofSymbol? op).isSome = true → Meaningful a → Meaningful (.unary op a)
  | binary {op : String} {a b : Expr α} :
      (BinaryOp.ofSymbol? op).isSome = true → Meaningful a → Meaningful b →
      Meaningful (.binary op a b)
  | choice {t a b : Expr α} :
      Meaningful t → Meaningful a → Meaningful b → Meaningful (.choice t a b)
  | call {name : Name} {args : List (Expr α)} :
      isFunction name = true → (∀ a ∈ args, Meaningful a) →
        Meaningful (.call (.identifier name) args)

lemma mem_calleesOfList {f : Option Name} {args : List (Expr α)} :
    f ∈ calleesOfList args ↔ ∃ a ∈ args, f ∈ a.callees := by
  induction args with
  | nil => simp [calleesOfList]
  | cons a rest ih => simp [calleesOfList, ih]

/-- A call that is allowed calls a known function by name, and so do its arguments. -/
lemma CallsOnly.of_call {known : Name → Bool} {f : Expr α} {args : List (Expr α)}
    (h : (Expr.call f args).CallsOnly known) :
    (∃ name, f = .identifier name ∧ known name = true) ∧ ∀ a ∈ args, a.CallsOnly known := by
  simp only [CallsOnly, callees, List.forall_mem_cons, List.forall_mem_append] at h
  obtain ⟨⟨name, hname, hknown⟩, -, hargs⟩ := h
  exact ⟨⟨name, name?_eq_some.mp hname, hknown⟩, fun a ha g hg =>
    hargs g (mem_calleesOfList.mpr ⟨a, ha, hg⟩)⟩

end Expr

/-! ## Variables at which a pass stops -/

/-- A pass stops at this variable: it is not clamped, and its equation miscalls something. -/
def Faulty (model : Model α) (setting : Setting α) (v : Name) : Prop :=
  setting.isClamped v = false ∧ ∃ e, model.equation? v = some e ∧ e.Miscalls

/-- The error names the variable and its equation as written, and gives a number of arguments as the
reason. -/
def Blames (model : Model α) (error : EvaluationError) (v : Name) : Prop :=
  ∃ entry f count, model.get? v = some entry ∧ count ≠ 1 ∧
    error = ⟨v, entry.source, .arity f count⟩

lemma Blames.variableName_eq {model : Model α} {error : EvaluationError} {v : Name}
    (h : Blames model error v) : error.variableName = v := by
  obtain ⟨entry, f, count, -, -, rfl⟩ := h
  rfl

/-! ## What is read is meaningful -/

/-- The table of binding strengths has known operators only. -/
lemma isSome_ofSymbol?_of_strength? {op : String} {s : Int} (h : strength? precedence op = some s) :
    (BinaryOp.ofSymbol? op).isSome = true := by
  have hknown : ∀ entry ∈ precedence, (BinaryOp.ofSymbol? entry.1).isSome = true := by decide
  obtain ⟨entry, hfind, -⟩ := Option.map_eq_some_iff.mp h
  have heq : entry.1 = op := by simpa using List.find?_some hfind
  exact heq ▸ hknown entry (List.mem_of_find?_eq_some hfind)

lemma meaningful_ofName (text : String) [Scalar α] : (Expr.ofName text : Expr α).Meaningful := by
  unfold Expr.ofName
  split
  · exact .literal _ _
  · split
    · exact .literal _ _
    · exact .identifier _

variable [Scalar α]

mutual

/-- A phrase of the grammar is meaningful if it calls known functions only. -/
lemma Derives.meaningful {phrase : Phrase} {ts : List Token} {e : Expr α} :
    Derives precedence phrase ts e → e.CallsOnly isFunction → e.Meaningful
  | .choice ht _ ha _ hb, h =>
      .choice (ht.meaningful h.of_choice.1) (ha.meaningful h.of_choice.2.1)
        (hb.meaningful h.of_choice.2.2)
  | .ofBinary d, h => d.meaningful h
  | .binary hl ht _ hr, h =>
      .binary (isSome_ofSymbol?_of_strength? ht.2) (hl.meaningful h.of_binary.1)
        (hr.meaningful h.of_binary.2)
  | .ofOperand d, h => d.meaningful h
  | .unary ht d, h => .unary ht.2 (d.meaningful h)
  | .ofApplied d, h => d.meaningful h
  | .call _ _ hargs _, h => by
      obtain ⟨⟨name, rfl, hknown⟩, hcalls⟩ := h.of_call
      exact .call hknown (hargs.meaningful hcalls)
  | .callEmpty _ _ _, h => by
      obtain ⟨⟨name, rfl, hknown⟩, -⟩ := h.of_call
      exact .call hknown (by simp)
  | .ofPrimary d, h => d.meaningful h
  | .number _, _ => .literal _ _
  | .name _, _ => meaningful_ofName _
  | .group _ d _, h => d.meaningful h

lemma DerivesArguments.meaningful {ts : List Token} {es : List (Expr α)} :
    DerivesArguments precedence ts es → (∀ a ∈ es, a.CallsOnly isFunction) →
      ∀ a ∈ es, a.Meaningful
  | .last d, h => by
      rw [List.forall_mem_singleton] at h ⊢
      exact d.meaningful h
  | .more d _ hrest, h => by
      rw [List.forall_mem_cons] at h ⊢
      exact ⟨d.meaningful h.1, hrest.meaningful h.2⟩

end

/-- **Reading gives meaningful expressions.** -/
theorem meaningful_of_read {text : String} {e : Expr α} (h : Expr.read text = .ok e) :
    e.Meaningful := by
  obtain ⟨hparse, hcalls⟩ := Expr.read_eq_ok.mp h
  obtain ⟨body, fin, -, -, d⟩ := parseWith_eq_ok.mp hparse
  exact d.meaningful hcalls

/-- The equations of a model that was read are meaningful. -/
lemma meaningful_of_equation {text : String} {model : Model α}
    (hmodel : Model.ofText text = .ok model) {v : Name} {e : Expr α}
    (he : model.equation? v = some e) : e.Meaningful := by
  obtain ⟨entry, hentry, hexpression⟩ := Option.bind_eq_some_iff.mp he
  obtain ⟨qs, hequations, hdescribes⟩ := ofText_eq_ok.mp hmodel
  rcases hdescribes.get?_cases hentry with ⟨q, hq, -, rfl⟩ | rfl
  · cases hexpression
    exact meaningful_of_read (hequations.2 q hq)
  · cases hexpression

/-! ## Evaluation on numbers -/

variable [Elementary α]

namespace Expr

/-- **A meaningful expression has a value** exactly if it miscalls nothing. The values of its names
play no part, and neither does which branch of a choice is taken. -/
theorem Meaningful.exists_evaluate_iff {e : Expr α} (h : e.Meaningful) (scope : Scope α) :
    (∃ x, e.evaluate Lifting.single scope = .ok x) ↔ ¬ e.Miscalls := by
  induction h with
  | literal value raw => simp [evaluate]
  | identifier name => simp [evaluate]
  | unary hop _ ih =>
      obtain ⟨meaning, hmeaning⟩ := Option.isSome_iff_exists.mp hop
      simp [evaluate, hmeaning, bind_eq_ok, ← ih]
  | binary hop _ _ iha ihb =>
      obtain ⟨meaning, hmeaning⟩ := Option.isSome_iff_exists.mp hop
      simp [evaluate, hmeaning, bind_eq_ok, Lifting.single, mapError_eq_ok, ← iha, ← ihb]
  | choice _ _ _ iht iha ihb =>
      simp [evaluate, bind_eq_ok, Lifting.single, mapError_eq_ok, ← iht, ← iha, ← ihb]
  | @call name args hknown _ ih =>
      obtain ⟨function, hfunction⟩ := Option.isSome_iff_exists.mp hknown
      rcases args with _ | ⟨argument, _ | ⟨second, rest⟩⟩
      · simp [evaluate, hfunction]
      · simp [evaluate, hfunction, bind_eq_ok, ← ih argument List.mem_cons_self]
      · simp [evaluate, hfunction]

/-- Nothing but a number of arguments keeps a meaningful expression from having a value. -/
theorem Meaningful.arity_of_error {e : Expr α} (h : e.Meaningful) {scope : Scope α} {cause : Fault}
    (herror : e.evaluate Lifting.single scope = .error cause) :
    ∃ name count, count ≠ 1 ∧ cause = .arity name count := by
  induction h with
  | literal value raw => cases herror
  | identifier name => cases herror
  | unary hop _ ih =>
      obtain ⟨meaning, hmeaning⟩ := Option.isSome_iff_exists.mp hop
      simp only [evaluate, hmeaning] at herror
      rcases bind_eq_error.mp herror with ha | ⟨x, -, hx⟩
      · exact ih ha
      · cases hx
  | binary hop _ _ iha ihb =>
      obtain ⟨meaning, hmeaning⟩ := Option.isSome_iff_exists.mp hop
      simp only [evaluate, hmeaning] at herror
      rcases bind_eq_error.mp herror with ha | ⟨x, -, hx⟩
      · exact iha ha
      rcases bind_eq_error.mp hx with hb | ⟨y, -, hy⟩
      · exact ihb hb
      · cases hy
  | choice _ _ _ iht iha ihb =>
      simp only [evaluate] at herror
      rcases bind_eq_error.mp herror with ht | ⟨t, -, ht⟩
      · exact iht ht
      rcases bind_eq_error.mp ht with ha | ⟨x, -, hx⟩
      · exact iha ha
      rcases bind_eq_error.mp hx with hb | ⟨y, -, hy⟩
      · exact ihb hb
      · cases hy
  | @call name args hknown _ ih =>
      obtain ⟨function, hfunction⟩ := Option.isSome_iff_exists.mp hknown
      rcases args with _ | ⟨argument, _ | ⟨second, rest⟩⟩
      · simp only [evaluate, hfunction, Except.error.injEq] at herror
        exact ⟨name, 0, by simp, herror.symm⟩
      · simp only [evaluate, hfunction] at herror
        rcases bind_eq_error.mp herror with ha | ⟨x, -, hx⟩
        · exact ih argument List.mem_cons_self ha
        · cases hx
      · simp only [evaluate, hfunction, Except.error.injEq] at herror
        exact ⟨name, _, by simp, herror.symm⟩

end Expr

/-! ## A pass -/

/-- All equations of the model are meaningful. -/
def MeaningfulModel (model : Model α) : Prop :=
  ∀ v e, model.equation? v = some e → e.Meaningful

variable {model : Model α} {setting : Setting α} {values : Table α}

variable (setting values) in
/-- A node has a value unless its equation miscalls something. -/
lemma exists_nodeValue_iff (hm : MeaningfulModel model) (v : Name) :
    (∃ x, nodeValue Lifting.single model setting values v = .ok x) ↔
      ¬ ∃ e, model.equation? v = some e ∧ e.Miscalls := by
  cases he : model.equation? v with
  | none =>
      refine iff_of_true ?_ (by simp)
      by_cases hnoise : model.get? v = none ∧ isNoise v = true
      · exact ⟨_, nodeValue_of_noiseNode hnoise.1 hnoise.2⟩
      · exact ⟨_, nodeValue_of_noEquation he hnoise⟩
  | some e =>
      obtain ⟨entry, -, -, hvalue⟩ := nodeValue_of_equation Lifting.single setting values he
      simp only [hvalue, mapError_eq_ok, (hm v e he).exists_evaluate_iff, Option.some.injEq,
        exists_eq_left']

lemma blames_of_nodeValue (hm : MeaningfulModel model) {v : Name} {error : EvaluationError}
    (h : nodeValue Lifting.single model setting values v = .error error) :
    Blames model error v := by
  cases he : model.equation? v with
  | none =>
      obtain ⟨x, hx⟩ := (exists_nodeValue_iff setting values hm v).mpr (by simp [he])
      rw [hx] at h
      cases h
  | some e =>
      obtain ⟨entry, hentry, -, hvalue⟩ := nodeValue_of_equation Lifting.single setting values he
      rw [hvalue, mapError_eq_error] at h
      obtain ⟨cause, hcause, rfl⟩ := h
      obtain ⟨f, count, hcount, rfl⟩ := (hm v e he).arity_of_error hcause
      exact ⟨entry, f, count, hentry, hcount, rfl⟩

variable (values) in
/-- The step over one variable succeeds unless the variable is faulty. -/
lemma exists_visit_iff (hm : MeaningfulModel model) (v : Name) :
    (∃ next, visit Lifting.single model setting values v = .ok next) ↔
      ¬ Faulty model setting v := by
  unfold visit Faulty
  cases hclamped : setting.isClamped v with
  | true => simp
  | false => simpa [bind_eq_ok] using exists_nodeValue_iff setting values hm v

lemma blames_of_visit (hm : MeaningfulModel model) {v : Name} {error : EvaluationError}
    (h : visit Lifting.single model setting values v = .error error) : Blames model error v := by
  unfold visit at h
  split at h
  · cases h
  · rcases bind_eq_error.mp h with h | ⟨x, -, h⟩
    · exact blames_of_nodeValue hm h
    · cases h

variable (values) in
/-- A pass succeeds unless it meets a faulty variable. -/
lemma exists_propagate_iff (hm : MeaningfulModel model) (order : List Name) :
    (∃ final, propagate Lifting.single model setting order values = .ok final) ↔
      ∀ v ∈ order, ¬ Faulty model setting v := by
  induction order generalizing values with
  | nil => simp [propagate]
  | cons v rest ih =>
      simp only [propagate_cons, bind_eq_ok, List.forall_mem_cons]
      constructor
      · rintro ⟨final, next, hvisit, hrest⟩
        exact ⟨(exists_visit_iff values hm v).mp ⟨next, hvisit⟩, (ih next).mp ⟨final, hrest⟩⟩
      · rintro ⟨hv, hrest⟩
        obtain ⟨next, hvisit⟩ := (exists_visit_iff values hm v).mpr hv
        obtain ⟨final, hfinal⟩ := (ih next).mpr hrest
        exact ⟨final, next, hvisit, hfinal⟩

lemma exists_error_iff (hm : MeaningfulModel model) (order : List Name) :
    (∃ error, propagate Lifting.single model setting order values = .error error) ↔
      ∃ v ∈ order, Faulty model setting v := by
  rw [← not_iff_not]
  push Not
  rw [← exists_propagate_iff values hm order]
  cases propagate Lifting.single model setting order values <;> simp

/-- **A pass fails at the first faulty variable** and blames it. -/
theorem propagate_error (hm : MeaningfulModel model) {order : List Name} {error : EvaluationError}
    (h : propagate Lifting.single model setting order values = .error error) :
    ∃ before v after, order = before ++ v :: after ∧ (∀ u ∈ before, ¬ Faulty model setting u) ∧
      Faulty model setting v ∧ Blames model error v := by
  induction order generalizing values with
  | nil => cases h
  | cons v rest ih =>
      rw [propagate_cons] at h
      rcases bind_eq_error.mp h with hvisit | ⟨next, hvisit, hrest⟩
      · have hfaulty : Faulty model setting v := by
          by_contra hv
          obtain ⟨next, hnext⟩ := (exists_visit_iff values hm v).mpr hv
          rw [hvisit] at hnext
          cases hnext
        exact ⟨[], v, rest, rfl, by simp, hfaulty, blames_of_visit hm hvisit⟩
      · obtain ⟨before, w, after, rfl, hbefore, hw⟩ := ih hrest
        refine ⟨v :: before, w, after, rfl, ?_, hw⟩
        exact List.forall_mem_cons.mpr ⟨(exists_visit_iff values hm v).mp ⟨next, hvisit⟩, hbefore⟩

/-! ## Which names have values -/

section

variable {β : Type} {lift : Lifting α β} {setting : Setting β} {values final : Table β}

/-- A pass over nodes that have values changes nothing but values. -/
lemma keys_of_propagate {order : List Name} (hsub : ∀ v ∈ order, v ∈ values.keys)
    (h : propagate lift model setting order values = .ok final) : final.keys = values.keys := by
  induction order generalizing values with
  | nil => cases h; rfl
  | cons v rest ih =>
      rw [propagate_cons] at h
      obtain ⟨next, hvisit, hrest⟩ := bind_eq_ok.mp h
      obtain ⟨hv, hsub⟩ := List.forall_mem_cons.mp hsub
      have hkeys : next.keys = values.keys := by
        unfold visit at hvisit
        split at hvisit
        · rw [Except.ok.inj hvisit]
        · obtain ⟨x, -, hx⟩ := bind_eq_ok.mp hvisit
          rw [← Except.ok.inj hx, Table.keys_insert, if_pos hv]
      rw [ih (fun u hu => hkeys ▸ hsub u hu) hrest, hkeys]

lemma mem_keys_seeded {zero : β} {seeds : Table β} {order : List Name} {name : Name} :
    name ∈ (seeded zero seeds order).keys ↔ name ∈ order ∨ name ∈ seeds.keys := by
  rw [← not_iff_not, ← Table.get?_eq_none_iff, get?_seeded, not_or, ← Table.get?_eq_none_iff]
  split <;> simp_all

end

/-- **What is read fails by a number of arguments only.** The model of a text whose graph is acyclic
has no values exactly if the equation of some variable that is not clamped miscalls something. The
error then blames the first such variable in causal order. Otherwise the variables of the model and
the names with given values are those that have a value in the end. -/
theorem computeValues_fails_by_arity {text : String} (hmodel : Model.ofText text = .ok model)
    (hacyclic : (Graph.ofModel model).Acyclic) (setting : Setting α) (seeds : Table α) :
    ∃ order, (Graph.ofModel model).order = .ok order ∧
      ((∃ error, computeValues model (Graph.ofModel model) setting seeds =
          .error (.evaluation error)) ↔ ∃ v, Faulty model setting v) ∧
      (∀ error, computeValues model (Graph.ofModel model) setting seeds = .error error →
        ∃ before v after cause, order = before ++ v :: after ∧
          (∀ u ∈ before, ¬ Faulty model setting u) ∧ Faulty model setting v ∧
          error = .evaluation cause ∧ Blames model cause v) ∧
      ((¬ ∃ v, Faulty model setting v) → ∃ values,
        computeValues model (Graph.ofModel model) setting seeds = .ok values ∧
          ∀ name, name ∈ values.keys ↔ name ∈ model.keys ∨ name ∈ seeds.keys) := by
  obtain ⟨order, horder⟩ := Graph.exists_order_of_acyclic hacyclic
  have hm : MeaningfulModel model := fun v e he => meaningful_of_equation hmodel he
  have hnodes : ∀ v, v ∈ order ↔ v ∈ model.keys := fun v =>
    ((Graph.isCausalOrder_of_order horder).mem_iff v).trans (mem_nodes_ofModel_iff hmodel v)
  have hvisited : ∀ v, Faulty model setting v → v ∈ order := by
    rintro v ⟨-, e, he, -⟩
    obtain ⟨entry, hentry, -⟩ := Option.bind_eq_some_iff.mp he
    exact (hnodes v).mpr (Table.mem_keys_iff.mpr ⟨entry, hentry⟩)
  simp only [computeValues, horder, mapError_eq_error, mapError_eq_ok]
  refine ⟨order, rfl, ?_, ?_, fun hnone => ?_⟩
  · simp only [ComputeError.evaluation.injEq, exists_eq_right, exists_error_iff hm]
    constructor
    · rintro ⟨v, -, hv⟩
      exact ⟨v, hv⟩
    · rintro ⟨v, hv⟩
      exact ⟨v, hvisited v hv, hv⟩
  · rintro _ ⟨cause, hcause, rfl⟩
    obtain ⟨before, v, after, hsplit, hbefore, hv, hblames⟩ := propagate_error hm hcause
    exact ⟨before, v, after, cause, hsplit, hbefore, hv, rfl, hblames⟩
  · obtain ⟨final, hrun⟩ := (exists_propagate_iff (seeded Scalar.zero seeds order) hm order).mpr
      fun v _ hv => hnone ⟨v, hv⟩
    refine ⟨final, hrun, fun name => ?_⟩
    rw [keys_of_propagate (fun v hv => mem_keys_seeded.mpr (.inl hv)) hrun,
      mem_keys_seeded, hnodes]

/-- The variable whose equation has no value, if that is why there are no values. -/
def failingVariable? (model : Model α) (setting : Setting α) (seeds : Table α) : Option Name :=
  match computeValues model (Graph.ofModel model) setting seeds with
  | .error (.evaluation error) => some error.variableName
  | _ => none

/-- The branch that is not taken counts, and what is clamped does not. -/
theorem computeValues_fails_by_arity_choice :
    ∃ (model : Model Float) (order before after : List Name) (error : EvaluationError),
      Model.ofText "C = abs()\nB = A\nA = 1 ? 2 : abs(C, 3)" = .ok model ∧
      (Graph.ofModel model).Acyclic ∧ order = before ++ "A" :: after ∧
      (∀ u ∈ before, ¬ Faulty model ⟨Table.empty.insert "C" true, Table.empty⟩ u) ∧
      computeValues model (Graph.ofModel model) ⟨Table.empty.insert "C" true, Table.empty⟩
        Table.empty = .error (.evaluation error) ∧ Blames model error "A" := by
  obtain ⟨model, hmodel⟩ : Accepted Float "C = abs()\nB = A\nA = 1 ? 2 : abs(C, 3)" := by
    decide +kernel
  have hdecided : (Model.ofText "C = abs()\nB = A\nA = 1 ? 2 : abs(C, 3)" :
      Except ParseError (Model Float)).toOption.map (fun m => ((Graph.ofModel m).order.toOption,
        failingVariable? m ⟨Table.empty.insert "C" true, Table.empty⟩ Table.empty)) =
          some (some ["C", "A", "B"], some "A") := by
    decide +kernel
  simp only [hmodel, Except.toOption, Option.map_some, Option.some.injEq, Prod.mk.injEq] at hdecided
  obtain ⟨horder, hfails⟩ := hdecided
  have hacyclic : (Graph.ofModel model).Acyclic := by
    cases h : (Graph.ofModel model).order with
    | error e => simp [h] at horder
    | ok order => exact (Graph.isCausalOrder_of_order h).acyclic
  obtain ⟨order, -, -, hfirst, -⟩ := computeValues_fails_by_arity hmodel hacyclic
    ⟨Table.empty.insert "C" true, Table.empty⟩ Table.empty
  unfold failingVariable? at hfails
  split at hfails
  · rename_i error herror
    obtain ⟨before, v, after, cause, hsplit, hbefore, -, hcause, hblames⟩ := hfirst _ herror
    cases hcause
    obtain rfl : v = "A" := hblames.variableName_eq.symm.trans (Option.some.inj hfails)
    exact ⟨model, order, before, after, _, hmodel, hacyclic, hsplit, hbefore, herror, hblames⟩
  · cases hfails

end CausalEquations
