import CausalEquations.Proofs.Batches
import Mathlib.Data.Rat.Init

/-!
# An evaluation seen at one position

Take one position of every batch in a scope and evaluate there: what comes out is that position of
what the whole scope gives. Constants, single numbers and batches may be mixed in any way. A fault
of the one evaluation is the same fault of the other.

* `Value.Fits`, `Scope.Fits` — single numbers, and batches of one length.
* `Value.pick`, `Value.project`, `Scope.pick`, `Scope.project` — the number at a position.
* `Expr.evaluate_pick` — evaluation at a position, on numbers.
* `Expr.evaluate_project` — evaluation at a position, on values.
-/

namespace CausalEquations

variable {α : Type}

/-! ## Values and scopes at a position -/

/-- The value is a single number, or a batch of length `n`. -/
def Value.Fits (n : ℕ) : Value α → Prop
  | .single _ => True
  | .batch xs => xs.length = n

/-- Every value in the scope is a single number or a batch of length `n`. -/
structure Scope.Fits (n : ℕ) (scope : Scope (Value α)) : Prop where
  values : ∀ name v, scope.values.get? name = some v → v.Fits n
  error : scope.error.Fits n

variable [Scalar α]

/-- The number at position `i` of a value; a batch that is too short has zero there. -/
def Value.pick (i : ℕ) : Value α → α
  | .single x => x
  | .batch xs => xs.getD i Scalar.zero

/-- The number at position `i` of a value, as a value. -/
def Value.project (i : ℕ) (v : Value α) : Value α := .single (v.pick i)

/-- The scope in which every name stands for the number at position `i`. -/
def Scope.pick (i : ℕ) (scope : Scope (Value α)) : Scope α :=
  ⟨scope.values.map fun _ v => v.pick i, scope.error.pick i⟩

/-- The scope in which every batch is replaced by its element at position `i`. -/
def Scope.project (i : ℕ) (scope : Scope (Value α)) : Scope (Value α) :=
  ⟨scope.values.map fun _ v => v.project i, scope.error.project i⟩

namespace Value

variable {n i : ℕ} {v : Value α} {x : α}

lemma Fits.shows (h : v.Fits n) (hi : i < n) : v.Shows n i (v.pick i) := by
  cases v with
  | single x => rfl
  | batch xs =>
      have hlength : xs.length = n := h
      refine ⟨hlength, ?_⟩
      rw [pick, List.getD_eq_getElem?_getD, List.getElem?_eq_getElem (hlength ▸ hi),
        Option.getD_some]

omit [Scalar α] in
lemma Shows.fits (h : v.Shows n i x) : v.Fits n := by
  cases v with
  | single _ => trivial
  | batch xs => exact h.1

lemma Shows.pick_eq (h : v.Shows n i x) : v.pick i = x := by
  cases v with
  | single _ => exact h
  | batch xs => rw [pick, List.getD_eq_getElem?_getD, h.2, Option.getD_some]

end Value

omit [Scalar α] in
/-- Operations on single numbers as values are the operations on numbers. -/
lemma Lifting.single_simulates_batched :
    (Lifting.single (α := α)).Simulates (fun x v => v = .single x) Lifting.batched where
  const _ := rfl
  map f _ _ h := by rw [h]; rfl
  map₂ f _ _ _ _ h h' := by
    rw [h, h']
    exact .ok rfl
  map₃ f _ _ _ _ _ _ h h' h'' := by
    rw [h, h', h'']
    exact .ok rfl

namespace Scope.Fits

variable {n i : ℕ} {scope : Scope (Value α)}

/-- A name stands for a value that shows what the name stands for at the position. -/
lemma resolve_shows (h : scope.Fits n) (hi : i < n) (name : Name) :
    (scope.resolve .batched name).Shows n i ((scope.pick i).resolve .single name) := by
  refine Scope.resolve_simulates (Lifting.batched_simulates n i) (h.error.shows hi) fun _ _ => ?_
  rw [Scope.pick, Table.getD, Table.getD, Table.get?_map]
  cases hget : scope.values.get? name with
  | none => rfl
  | some v => exact (h.values name v hget).shows hi

end Scope.Fits

/-- The values at a position are the numbers there. -/
lemma Scope.resolve_project (scope : Scope (Value α)) (i : ℕ) (name : Name) :
    (scope.project i).resolve .batched name = .single ((scope.pick i).resolve .single name) := by
  refine Scope.resolve_simulates Lifting.single_simulates_batched rfl fun _ _ => ?_
  rw [Scope.pick, Scope.project, Table.getD, Table.getD, Table.get?_map, Table.get?_map]
  cases scope.values.get? name <;> rfl

/-! ## Evaluation at a position -/

variable [Elementary α] {n i : ℕ} {scope : Scope (Value α)}

/-- **Evaluation on numbers at a position** gives the number at that position, or the same fault. -/
theorem Expr.evaluate_pick (e : Expr α) (h : scope.Fits n) (hi : i < n) :
    e.evaluate .single (scope.pick i) = (e.evaluate .batched scope).map (Value.pick i) := by
  have hsame := e.evaluate_simulates (Lifting.batched_simulates n i) fun name _ =>
    h.resolve_shows hi name
  exact hsame.eq_map fun _ _ hshows => hshows.pick_eq.symm

/-- Evaluation on single numbers as values is evaluation on numbers. -/
lemma Expr.evaluate_project_eq (e : Expr α) (scope : Scope (Value α)) (i : ℕ) :
    e.evaluate .batched (scope.project i) =
      (e.evaluate .single (scope.pick i)).map Value.single := by
  have hsame := e.evaluate_simulates Lifting.single_simulates_batched fun name _ =>
    scope.resolve_project i name
  exact hsame.eq_map fun _ _ hvalue => hvalue

/-- What an evaluation gives fits the values of its scope. -/
lemma Expr.fits_of_evaluate {e : Expr α} {v : Value α} (h : scope.Fits n) (hn : 0 < n)
    (hv : e.evaluate .batched scope = .ok v) : v.Fits n := by
  have hsame := e.evaluate_simulates (Lifting.batched_simulates n 0) fun name _ =>
    h.resolve_shows hn name
  rw [hv] at hsame
  obtain ⟨x, -, hshows⟩ := hsame.of_ok
  exact hshows.fits

/-- **Evaluation on batches is evaluation at each position.** A scope of single numbers and of
batches of one length gives a fault exactly if the scope at any one position does, and then the same
fault; otherwise it gives a single number or a batch of that length, which shows at each position
what the scope gives there. -/
theorem Expr.evaluate_project (e : Expr α) (hn : 0 < n) (h : scope.Fits n) :
    (∀ i < n, ∀ fault, e.evaluate .batched scope = .error fault ↔
      e.evaluate .batched (scope.project i) = .error fault) ∧
    ∀ v, e.evaluate .batched scope = .ok v →
      v.Fits n ∧ ∀ i < n, e.evaluate .batched (scope.project i) = .ok (v.project i) := by
  have hproject : ∀ i < n, e.evaluate .batched (scope.project i) =
      (e.evaluate .batched scope).map (Value.project i) := by
    intro i hi
    rw [e.evaluate_project_eq, e.evaluate_pick h hi]
    cases e.evaluate .batched scope <;> rfl
  refine ⟨fun i hi fault => ?_, fun v hv => ⟨fits_of_evaluate h hn hv, fun i hi => ?_⟩⟩
  · rw [hproject i hi, map_eq_error]
  · rw [hproject i hi, hv]
    rfl

/-- Where `A` stands for a batch and `B` for a single number, the choice is made at each position:
what is read at the second position is the second number of the outcome. A call without arguments
is the same fault everywhere. -/
theorem Expr.evaluate_project_choice :
    letI : Elementary ℚ := ⟨fun x _ => x, fun x _ => x, id, id, id, id⟩
    let scope : Scope (Value ℚ) :=
      ⟨Table.ofList [("A", .batch [1, 3]), ("B", .single 4)], .batch [10, 20]⟩
    let fault : Expr ℚ := .binary "+" (.identifier "A") (.call (.identifier "sin") [])
    0 < 2 ∧ scope.Fits 2 ∧
      (∃ choice : Expr ℚ, Expr.parse "A > 2 ? A : B/2 + error" = .ok choice ∧
        choice.evaluate .batched scope = .ok (.batch [12, 3]) ∧
        choice.evaluate .batched (scope.project 1) = .ok (.single 3)) ∧
      fault.evaluate .batched (scope.project 1) = .error (.arity "sin" 0) ∧
      fault.evaluate .batched scope = .error (.arity "sin" 0) := by
  let operations : Elementary ℚ := ⟨fun x _ => x, fun x _ => x, id, id, id, id⟩
  intro scope fault
  have hfits : scope.Fits 2 := by
    refine ⟨fun name v hv => ?_, rfl⟩
    have hentries : scope.values.entries = [("A", .batch [1, 3]), ("B", .single 4)] := by
      decide +kernel
    have hmem := Table.mem_of_get? hv
    simp only [hentries, List.mem_cons, Prod.mk.injEq, List.not_mem_nil, or_false] at hmem
    rcases hmem with ⟨-, rfl⟩ | ⟨-, rfl⟩
    · rfl
    · trivial
  have hchoice : (Expr.parse "A > 2 ? A : B/2 + error" :
      Except SyntaxError (Expr ℚ)).toOption.map
        (fun e => (e.evaluate .batched scope).toOption.map fun v => (v, v.project 1)) =
      some (some (.batch [12, 3], .single 3)) := by
    decide +kernel
  obtain ⟨choice, hparsed, houtcome⟩ := exists_of_toOption_map hchoice
  obtain ⟨v, hv, hvalues⟩ := exists_of_toOption_map houtcome
  simp only [Prod.mk.injEq] at hvalues
  obtain ⟨rfl, hsecond⟩ := hvalues
  have hfault : fault.evaluate .batched (scope.project 1) = .error (.arity "sin" 0) := by
    decide +kernel
  refine ⟨by decide, hfits, ⟨choice, hparsed, hv, ?_⟩, hfault, ?_⟩
  · rw [((choice.evaluate_project (by decide) hfits).2 _ hv).2 1 (by decide), hsecond]
  · exact ((fault.evaluate_project (by decide) hfits).1 1 (by decide) _).mpr hfault

end CausalEquations
