import CausalEquations.Number.Binary64
import CausalEquations.Proofs.Models

/-!
# Canonical layout

A text of assignments can be written anew with one assignment to a line and single blanks around the
equals sign. This changes nothing but the layout: the assignments are the same, and so is the model,
if there is one. If there is none, the cause is the same, and only the statement that a message
quotes is the one that has been written.

* `SameAssignment`, `sameAssignment_render` — the statements of a text and of its canonical layout
  are read alike.
* `addStatement_congr`, `foldlM_addStatement_congr` — statements that are read alike have the same
  effect on a model, one by one and all together.
* `ofText_render` — so a text and its canonical layout have the same outcome.
* `render_assignments` — assignments and models survive canonical layout.
-/

namespace CausalEquations

/-! ## Statements that are read alike -/

/-- Both statements are read as the same assignment. -/
def SameAssignment (line line' : List Char) : Prop :=
  ∃ a, Assignment.ofStatement? line = some a ∧ Assignment.ofStatement? line' = some a

/-- A text is read if all its statements are assignments. -/
lemma exists_assignments {text : String}
    (h : ∀ line ∈ statements text, (Assignment.ofStatement? line).isSome = true) :
    ∃ as, assignments text = .ok as := by
  have hlines : ∀ lines : List (List Char),
      (∀ line ∈ lines, (Assignment.ofStatement? line).isSome = true) →
        List.Forall₂ (fun line a => Assignment.ofStatement? line = some a) lines
          (lines.filterMap Assignment.ofStatement?) := by
    intro lines
    induction lines with
    | nil => exact fun _ => .nil
    | cons line rest ih =>
        intro h
        obtain ⟨hline, hrest⟩ := List.forall_mem_cons.mp h
        obtain ⟨a, ha⟩ := Option.isSome_iff_exists.mp hline
        rw [List.filterMap_cons_some ha]
        exact .cons ha (ih hrest)
  exact ⟨_, assignments_eq_ok.mpr (hlines _ h)⟩

/-- The statements of the canonical layout are read as those of the text. -/
lemma sameAssignment_render {text : String} {as : List Assignment}
    (has : assignments text = .ok as) :
    List.Forall₂ SameAssignment (statements text) (statements (Assignment.render as)) := by
  have hformed := wellFormed_of_assignments has
  have hmem : ∀ {lines : List (List Char)} {as : List Assignment}, (∀ a ∈ as, a.WellFormed) →
      List.Forall₂ (fun line a => Assignment.ofStatement? line = some a) lines as →
        List.Forall₂ SameAssignment lines (as.map fun a => a.line.toList) := by
    intro lines as hformed h
    induction h with
    | nil => exact .nil
    | @cons line a _ _ ha _ ih =>
        obtain ⟨hfirst, hrest⟩ := List.forall_mem_cons.mp hformed
        exact .cons ⟨a, ha, hfirst.ofStatement?_line⟩ (ih hrest)
  rw [statements_render hformed]
  exact hmem hformed (assignments_eq_ok.mp has)

/-! ## Their effect on a model -/

/-- The cause of a refusal, without the statement that its message quotes. -/
def ParseError.withoutStatement : ParseError → ParseError
  | malformed _ => malformed ""
  | duplicate name => duplicate name
  | invalid cause _ => invalid cause ""

/-- Steps that differ in details of their errors only can follow each other. -/
lemma mapError_bind_congr {ε ε' β γ : Type} {x y : Except ε β} {f : ε → ε'}
    {k k' : β → Except ε γ} (h : x.mapError f = y.mapError f)
    (hk : ∀ b, (k b).mapError f = (k' b).mapError f) :
    (x >>= k).mapError f = (y >>= k').mapError f := by
  cases x <;> cases y <;> simp_all [Except.mapError]

variable {α : Type} [Scalar α]

/-- A statement counts as the assignment that it is read as. -/
lemma addStatement_congr {line line' : List Char} (h : SameAssignment line line') (m : Model α) :
    (Model.addStatement m line).mapError ParseError.withoutStatement =
      (Model.addStatement m line').mapError ParseError.withoutStatement := by
  obtain ⟨a, ha, ha'⟩ := h
  simp only [Model.addStatement, ha, ha']
  by_cases hcontains : m.contains a.name = true
  · simp [hcontains]
  · cases (Expr.read a.rhs : Except SyntaxError (Expr α)) <;>
      simp [hcontains, Except.mapError, ParseError.withoutStatement]

lemma foldlM_addStatement_congr {lines lines' : List (List Char)}
    (h : List.Forall₂ SameAssignment lines lines') (m : Model α) :
    (lines.foldlM Model.addStatement m).mapError ParseError.withoutStatement =
      (lines'.foldlM Model.addStatement m).mapError ParseError.withoutStatement := by
  induction h generalizing m with
  | nil => rfl
  | cons hline _ ih =>
      rw [List.foldlM_cons, List.foldlM_cons]
      exact mapError_bind_congr (addStatement_congr hline m) ih

/-- **The layout of a text makes no difference** to its model, or to why it has none. -/
theorem ofText_render {text : String} {as : List Assignment} (has : assignments text = .ok as) :
    (Model.ofText (Assignment.render as) : Except ParseError (Model α)).mapError
        ParseError.withoutStatement =
      (Model.ofText text).mapError ParseError.withoutStatement :=
  mapError_bind_congr (foldlM_addStatement_congr (sameAssignment_render has) Table.empty).symm
    fun _ => rfl

/-- **Canonical layout preserves meaning.** If all statements of a text are assignments, they are
the assignments of its canonical layout. Either text has a model if the other one has, and the two
models are equal, with their variables in the same order, and the same equations, dependencies and
right-hand sides as written; otherwise both texts are refused for the same cause. -/
theorem render_assignments {text : String}
    (h : ∀ line ∈ statements text, (Assignment.ofStatement? line).isSome = true) :
    ∃ as, assignments text = .ok as ∧ assignments (Assignment.render as) = .ok as ∧
      (∀ m : Model α, Model.ofText (Assignment.render as) = .ok m ↔ Model.ofText text = .ok m) ∧
      (Model.ofText (Assignment.render as) : Except ParseError (Model α)).mapError
          ParseError.withoutStatement =
        (Model.ofText text).mapError ParseError.withoutStatement := by
  obtain ⟨as, has⟩ := exists_assignments h
  refine ⟨as, has, assignments_render (wellFormed_of_assignments has), fun m => ?_,
    ofText_render has⟩
  rw [← mapError_eq_ok (f := ParseError.withoutStatement), ofText_render has, mapError_eq_ok]

/-- The wide blank, the empty statement and the no-break space go, and the carriage return inside a
right-hand side stays. -/
theorem render_assignments_blanks :
    (∀ line ∈ statements "A=\u2003X\r*2;;\u00a0B =A^2 \n",
      (Assignment.ofStatement? line).isSome = true) ∧
    assignments "A = X\r*2\nB = A^2" = .ok [⟨"A", "X\r*2"⟩, ⟨"B", "A^2"⟩] ∧
    ∃ m : Model Float, Model.ofText "A=\u2003X\r*2;;\u00a0B =A^2 \n" = .ok m ∧
      Model.ofText "A = X\r*2\nB = A^2" = .ok m := by
  have h : ∀ line ∈ statements "A=\u2003X\r*2;;\u00a0B =A^2 \n",
      (Assignment.ofStatement? line).isSome = true := by decide +kernel
  have hread : assignments "A=\u2003X\r*2;;\u00a0B =A^2 \n" =
      .ok [⟨"A", "X\r*2"⟩, ⟨"B", "A^2"⟩] := by decide +kernel
  obtain ⟨m, hm⟩ : Accepted Float "A=\u2003X\r*2;;\u00a0B =A^2 \n" := by decide +kernel
  obtain ⟨as, has, hrender, hmodel, -⟩ := render_assignments (α := Float) h
  cases has.symm.trans hread
  exact ⟨h, hrender, m, hm, (hmodel m).mpr hm⟩

end CausalEquations
