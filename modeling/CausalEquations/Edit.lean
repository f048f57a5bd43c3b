import CausalEquations.Affine
import CausalEquations.Model.Basic
import CausalEquations.Text.Word

/-!
# Editing models as text

Edits take the text of a model and give a new text in canonical layout. An equation is written anew
from its affine form if that has the term in question; otherwise the name is replaced as a whole
word. An edit that fails gives an error and no text.

* `validName?` — the name that a user may have typed, trimmed.
* `addNode`, `renameNode`, `removeNode`, `removeEdge`, `setEdge` — the edits.
* `EditError` — why an edit fails.
-/

namespace CausalEquations

/-! ## Errors -/

/-- Requests that cannot be carried out on a text. -/
inductive EditRefusal where
  | invalidName
  | alreadyExists (name : Name)
  | unknownVariable (name : Name)
  | noEdge (parent child : Name)
  | coefficientNotFinite
  | notAffine
  | noTerm (parent child : Name)
  deriving DecidableEq, Repr

/-- The wording of a refusal. -/
def EditRefusal.message : EditRefusal → String
  | invalidName =>
    "Names must start with a letter or underscore and contain only " ++
      "letters, numbers, or underscores."
  | alreadyExists name => "Variable \"" ++ name ++ "\" already exists."
  | unknownVariable name => "Variable \"" ++ name ++ "\" does not exist."
  | noEdge parent child => "No edge from \"" ++ parent ++ "\" to \"" ++ child ++ "\"."
  | coefficientNotFinite => "Coefficient must be a finite number."
  | notAffine => "Only simple linear equations can be edited from the DAG."
  | noTerm parent child => "No linear term for " ++ parent ++ " exists in " ++ child ++ "."

/-- Why an edit fails. -/
inductive EditError where
  | refused (cause : EditRefusal)
  /-- The text is no model, or would become none. -/
  | text (cause : ParseError)
  /-- The equation to be edited cannot be read. -/
  | equation (cause : SyntaxError)
  deriving DecidableEq, Repr

/-! ## Names and statements -/

/-- Whether the characters form a name. -/
def isName : List Char → Bool
  | [] => false
  | c :: rest => isNameStart c && rest.all isNameChar

/-- The name in a text, without blanks around it. -/
def validName? (text : String) : Option Name :=
  let trimmed := strip text.toList
  if isName trimmed then some (String.ofList trimmed) else none

/-- The name in a text, or a refusal. -/
def requireName (text : String) : Except EditError Name :=
  match validName? text with
  | some name => .ok name
  | none => .error (.refused .invalidName)

/-- The assignments of a text, in order. -/
def assignments (text : String) : Except EditError (List Assignment) :=
  (statements text).mapM fun line =>
    match Assignment.ofStatement? line with
    | some a => .ok a
    | none => .error (.text (.malformed (String.ofList line)))

/-- Whether a variable is assigned. -/
def assigns (name : Name) (as : List Assignment) : Bool := as.any fun a => a.name == name

/-- Gives the first assignment of a variable another right-hand side. -/
def setFirst (name : Name) (rhs : String) : List Assignment → List Assignment
  | [] => []
  | a :: rest => if a.name = name then ⟨name, rhs⟩ :: rest else a :: setFirst name rhs rest

/-- Whether a right-hand side mentions a name as a whole word. -/
def mentions (name : Name) (rhs : String) : Bool := hasWord name.toList rhs.toList

/-- Replaces a name in a right-hand side wherever it is a whole word. -/
def substitute (old new : Name) (rhs : String) : String :=
  String.ofList (replaceWord old.toList new.toList rhs.toList)

/-! ## Adding and renaming -/

/-- Appends a variable with the equation `0`. -/
def addNode (text name : String) : Except EditError String := do
  let name ← requireName name
  let as ← assignments text
  if assigns name as then .error (.refused (.alreadyExists name))
  else return Assignment.render (as ++ [⟨name, "0"⟩])

/-- Renames a variable in its assignment and in all equations. A text in which nothing has to be
renamed is not touched. -/
def renameNode (text previous next : String) : Except EditError String := do
  let old ← requireName previous
  let new ← requireName next
  if old = new then return text
  else
    let as ← assignments text
    if !assigns old as && !as.any (fun a => mentions old a.rhs) then
      .error (.refused (.unknownVariable old))
    else if assigns new as then .error (.refused (.alreadyExists new))
    else
      return Assignment.render (as.map fun a =>
        ⟨if a.name = old then new else a.name, substitute old new a.rhs⟩)

/-! ## Edits through affine forms -/

variable (α : Type) [Scalar α]

/-- The expression of a right-hand side. -/
def readEquation (rhs : String) : Except EditError (Expr α) :=
  (Expr.parse rhs).mapError .equation

/-- The model of a text. -/
def requireModel (text : String) : Except EditError (Model α) :=
  (Model.ofText text).mapError .text

/-- Drops a variable from an equation: its term if there is one, else every mention becomes `0`. -/
def dropVariable (rhs : String) (name : Name) : Except EditError String := do
  let e ← readEquation α rhs
  match Affine.ofExpr? e with
  | some a =>
    if a.terms.contains name then return (a.setCoefficient name Scalar.zero).render
    else return substitute name "0" rhs
  | none => return substitute name "0" rhs

/-- Removes the assignment of a variable and drops the variable from the other equations. -/
def withoutVariable (name : Name) : List Assignment → Except EditError (List Assignment)
  | [] => .ok []
  | a :: rest =>
    if a.name = name then withoutVariable name rest
    else if mentions name a.rhs then do
      let rhs ← dropVariable α a.rhs name
      let rest ← withoutVariable name rest
      return ⟨a.name, rhs⟩ :: rest
    else do
      let rest ← withoutVariable name rest
      return a :: rest

/-- Removes a variable. What it alone has read stays in the model with the equation `0`. -/
def removeNode (text name : String) : Except EditError String := do
  let name ← requireName name
  let model ← requireModel α text
  let as ← assignments text
  let remaining ← withoutVariable α name as
  if !assigns name as && !as.any (fun a => mentions name a.rhs) then
    .error (.refused (.unknownVariable name))
  else
    match (model.get? name).map Entry.dependencies with
    | none | some [] => return Assignment.render remaining
    | some dependencies =>
      let left ← requireModel α (Assignment.render remaining)
      let orphans := dependencies.filter fun d => !(d == name) && !left.contains d
      return Assignment.render (remaining ++ orphans.map fun d => ⟨d, "0"⟩)

/-- Removes the edge from a parent to a child by dropping the parent from the child's equation. A
parent that is then mentioned nowhere stays in the model with the equation `0`. -/
def removeEdge (text parent child : String) : Except EditError String := do
  let parent ← requireName parent
  let child ← requireName child
  let as ← assignments text
  match as.find? fun a => a.name == child with
  | none => .error (.refused (.unknownVariable child))
  | some a =>
    if !mentions parent a.rhs then .error (.refused (.noEdge parent child))
    else
      let rhs ← dropVariable α a.rhs parent
      let edited := setFirst child rhs as
      if assigns parent edited then return Assignment.render edited
      else
        let model ← requireModel α (Assignment.render edited)
        if model.contains parent then return Assignment.render edited
        else return Assignment.render (edited ++ [⟨parent, "0"⟩])

variable {α}

/-- The affine form of a child's equation; a child without an equation has the empty one. -/
def affineOf (as : List Assignment) (child : Name) : Except EditError (Affine α) :=
  match as.find? fun a => a.name == child with
  | none => .ok Affine.zero
  | some a => do
    let e ← readEquation α a.rhs
    match Affine.ofExpr? e with
    | some form => return form
    | none => .error (.refused .notAffine)

/-- Sets the coefficient of a parent in the child's equation, which is created if there is none. A
new term is introduced only if the edit does not insist on an existing one. -/
def setEdge (text parent child : String) (coefficient : α) (insistOnTerm : Bool) :
    Except EditError String := do
  let parent ← requireName parent
  let child ← requireName child
  if !Scalar.isFinite coefficient then .error (.refused .coefficientNotFinite)
  else
    let as ← assignments text
    let form ← affineOf as child
    if insistOnTerm && !form.terms.contains parent then .error (.refused (.noTerm parent child))
    else
      let rhs := (form.setCoefficient parent coefficient).render
      if assigns child as then return Assignment.render (setFirst child rhs as)
      else return Assignment.render (as ++ [⟨child, rhs⟩])

end CausalEquations
