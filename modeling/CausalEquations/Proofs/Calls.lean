import CausalEquations.Expr.Parser
import CausalEquations.Proofs.Outcomes
import Mathlib.Data.List.Basic

/-!
# Calls

Which functions an expression calls. The check of an expression looks at nothing else.

* `Expr.callees` — what is called, from left to right; `none` stands for anything but a name.
* `Expr.CallsOnly`, `Expr.IsCallable` — only names of some class are called; one of these names.
* `Expr.check_eq_ok` — the check asks for the known functions.
-/

namespace CausalEquations

variable {α : Type}

namespace Expr

/-- The name, if the expression is a name. -/
def name? : Expr α → Option Name
  | identifier name => some name
  | _ => none

mutual

/-- What is called, from left to right. -/
def callees : Expr α → List (Option Name)
  | literal _ _ => []
  | identifier _ => []
  | unary _ a => a.callees
  | binary _ a b => a.callees ++ b.callees
  | choice t a b => t.callees ++ (a.callees ++ b.callees)
  | call callee args => callee.name? :: (callee.callees ++ calleesOfList args)

/-- What is called in a list of arguments. -/
def calleesOfList : List (Expr α) → List (Option Name)
  | [] => []
  | a :: rest => a.callees ++ calleesOfList rest

end

/-- Whatever is called is a name with the property `known`. -/
def CallsOnly (known : Name → Bool) (e : Expr α) : Prop :=
  ∀ f ∈ e.callees, ∃ name, f = some name ∧ known name = true

/-- The name is called. -/
def Calls (e : Expr α) (name : Name) : Prop := some name ∈ e.callees

/-- The names of the functions that an equation may call. -/
def isFunction (name : Name) : Bool := (Builtin.ofName? name).isSome

lemma isFunction_true : isFunction "true" = false := by decide

lemma isFunction_false : isFunction "false" = false := by decide

lemma isFunction_zero : isFunction "0" = false := by decide

lemma name?_eq_some {e : Expr α} {name : Name} : e.name? = some name ↔ e = identifier name := by
  cases e <;> simp [name?]

/-! ## Calls of a compound expression -/

variable {known : Name → Bool}

lemma CallsOnly.mono {known' : Name → Bool} {e : Expr α} (h : e.CallsOnly known)
    (hle : ∀ name, known name = true → known' name = true) : e.CallsOnly known' := by
  intro f hf
  obtain ⟨name, rfl, hknown⟩ := h f hf
  exact ⟨name, rfl, hle name hknown⟩

/-- The expression is a function's name. -/
def IsCallable (known : Name → Bool) (e : Expr α) : Prop :=
  ∃ name, e = .identifier name ∧ known name = true

lemma CallsOnly.binary {op : String} {a b : Expr α} (ha : a.CallsOnly known)
    (hb : b.CallsOnly known) : (Expr.binary op a b).CallsOnly known := by
  simp only [CallsOnly, callees, List.forall_mem_append]
  exact ⟨ha, hb⟩

lemma CallsOnly.of_binary {op : String} {a b : Expr α}
    (h : (Expr.binary op a b).CallsOnly known) : a.CallsOnly known ∧ b.CallsOnly known := by
  simpa only [CallsOnly, callees, List.forall_mem_append] using h

lemma CallsOnly.choice {t a b : Expr α} (ht : t.CallsOnly known) (ha : a.CallsOnly known)
    (hb : b.CallsOnly known) : (Expr.choice t a b).CallsOnly known := by
  simp only [CallsOnly, callees, List.forall_mem_append]
  exact ⟨ht, ha, hb⟩

lemma CallsOnly.of_choice {t a b : Expr α} (h : (Expr.choice t a b).CallsOnly known) :
    t.CallsOnly known ∧ a.CallsOnly known ∧ b.CallsOnly known := by
  simpa only [CallsOnly, callees, List.forall_mem_append] using h

lemma CallsOnly.call {x : Expr α} {es : List (Expr α)} (hx : IsCallable known x)
    (hes : ∀ f ∈ calleesOfList es, ∃ name, f = some name ∧ known name = true) :
    (Expr.call x es).CallsOnly known := by
  obtain ⟨name, rfl, hknown⟩ := hx
  simp only [CallsOnly, callees, name?, List.nil_append, List.forall_mem_cons]
  exact ⟨⟨name, rfl, hknown⟩, hes⟩

/-! ## The check -/

mutual

/-- The check of an expression is about its calls. -/
lemma check_eq_ok : ∀ e : Expr α, e.check = .ok () ↔ e.CallsOnly isFunction
  | literal _ _ => by simp [check, CallsOnly, callees]
  | identifier _ => by simp [check, CallsOnly, callees]
  | unary _ a => by
      rw [check, check_eq_ok a]
      rfl
  | binary _ a b => by
      rw [check, bind_eq_ok]
      simp only [CallsOnly, callees, List.forall_mem_append, check_eq_ok a, check_eq_ok b]
      exact ⟨fun ⟨_, ha, hb⟩ => ⟨ha, hb⟩, fun ⟨ha, hb⟩ => ⟨(), ha, hb⟩⟩
  | choice t a b => by
      rw [check, bind_eq_ok]
      simp only [bind_eq_ok, CallsOnly, callees, List.forall_mem_append, check_eq_ok t,
        check_eq_ok a, check_eq_ok b]
      exact ⟨fun ⟨_, ht, _, ha, hb⟩ => ⟨ht, ha, hb⟩, fun ⟨ht, ha, hb⟩ => ⟨(), ht, (), ha, hb⟩⟩
  | call callee args => by
      have hargs := checkList_eq_ok args
      cases callee with
      | identifier name =>
          simp only [check, CallsOnly, callees, name?, List.nil_append, List.forall_mem_cons,
            Option.some.injEq, exists_eq_left', ← hargs]
          show (if isFunction name = true then _ else _) = _ ↔ _
          split
          · rename_i hknown
            simp only [hknown, true_and]
          · rename_i hunknown
            simp [hunknown]
      | _ => simp [check, CallsOnly, callees, name?]

lemma checkList_eq_ok : ∀ es : List (Expr α), checkList es = .ok () ↔
    ∀ f ∈ calleesOfList es, ∃ name, f = some name ∧ isFunction name = true
  | [] => by simp [checkList, calleesOfList]
  | a :: rest => by
      rw [checkList, bind_eq_ok]
      simp only [calleesOfList, List.forall_mem_append, checkList_eq_ok rest, check_eq_ok a]
      exact ⟨fun ⟨_, ha, hb⟩ => ⟨ha, hb⟩, fun ⟨ha, hb⟩ => ⟨(), ha, hb⟩⟩

end

/-- A text is read if it has a tree that calls known functions only. -/
lemma read_eq_ok [Scalar α] {text : String} {tree : Expr α} :
    Expr.read text = .ok tree ↔ Expr.parse text = .ok tree ∧ tree.CallsOnly isFunction := by
  unfold Expr.read
  rw [bind_eq_ok]
  constructor
  · rintro ⟨tree', hparse, h⟩
    split at h
    · rename_i hcheck
      cases h
      exact ⟨hparse, (check_eq_ok _).mp hcheck⟩
    · cases h
  · rintro ⟨hparse, hcalls⟩
    refine ⟨tree, hparse, ?_⟩
    rw [(check_eq_ok tree).mpr hcalls]
    rfl

end Expr

end CausalEquations
