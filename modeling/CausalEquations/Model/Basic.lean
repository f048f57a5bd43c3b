import CausalEquations.Expr.Parser
import CausalEquations.Model.Statement

/-!
# Models

A model gives every variable an entry: its equation, or none if the variable is only read by other
equations.

* `Entry`, `Model` — the entries by variable, in order.
* `ParseError` — why a text is no model.
* `Model.ofText` — the model of a text: first the assigned variables in the order of their
  statements, then those that are only read, in the order of first reading.
-/

namespace CausalEquations

/-- What a model knows of one variable. -/
structure Entry (α : Type) where
  /-- The equation, if the variable has one. -/
  expression : Option (Expr α)
  /-- The variables that the equation reads. -/
  dependencies : List Name
  /-- The right-hand side as written. -/
  source : String
  /-- Whether the variable is read without being assigned. -/
  isDerived : Bool := false

/-- The entry of a variable with an equation. -/
def Entry.ofExpr {α : Type} (e : Expr α) (source : String) : Entry α :=
  ⟨some e, e.dependencies, source, false⟩

/-- The entry of a variable that is read but never assigned. -/
def Entry.derived {α : Type} : Entry α := ⟨none, [], "", true⟩

/-- Entries by variable. -/
abbrev Model (α : Type) := Table (Entry α)

/-- Why a text is no model. -/
inductive ParseError where
  /-- A statement is no assignment. -/
  | malformed (statement : String)
  /-- A variable is assigned a second time. -/
  | duplicate (name : Name)
  /-- A right-hand side is refused. -/
  | invalid (cause : SyntaxError) (statement : String)
  deriving DecidableEq, Repr

/-- The wording of a refusal. -/
def ParseError.message : ParseError → String
  | malformed statement => "Cannot parse: \"" ++ statement ++ "\""
  | duplicate name => "Duplicate definition for " ++ name
  | invalid cause statement => cause.message ++ " In line: \"" ++ statement ++ "\""

namespace Model

variable {α : Type}

/-- Adds the equation of one statement. -/
def addStatement [Scalar α] (model : Model α) (line : List Char) : Except ParseError (Model α) :=
  match Assignment.ofStatement? line with
  | none => .error (.malformed (String.ofList line))
  | some a =>
    if model.contains a.name then .error (.duplicate a.name)
    else
      match Expr.read a.rhs with
      | .error cause => .error (.invalid cause (String.ofList line))
      | .ok e => .ok (model.insert a.name (Entry.ofExpr e a.rhs))

/-- Adds a derived entry for every variable that is read but not assigned. -/
def withDerived (model : Model α) : Model α :=
  (model.entries.flatMap fun e => e.2.dependencies).foldl
    (fun m name => m.insertIfNew name Entry.derived) model

/-- The model that a text describes. -/
def ofText [Scalar α] (text : String) : Except ParseError (Model α) := do
  let assigned ← (statements text).foldlM addStatement Table.empty
  return withDerived assigned

end Model

end CausalEquations
