import CausalEquations.Table
import CausalEquations.Text.Blank
import CausalEquations.Text.Letter

/-!
# Statements

A model is written as assignments `NAME = RHS`, one to a line or several with semicolons between
them.

* `statements` — the non-blank statements of a text, trimmed.
* `Assignment` — a name and its right-hand side, as text.
* `Assignment.ofStatement?` — reads one statement.
* `Assignment.render` — the canonical layout of a list of assignments.
-/

namespace CausalEquations

/-- The pieces of a text between separators. -/
def pieces (isSeparator : Char → Bool) : List Char → List (List Char)
  | [] => [[]]
  | c :: cs =>
    if isSeparator c then [] :: pieces isSeparator cs
    else match pieces isSeparator cs with
      | [] => [[c]]
      | piece :: rest => (c :: piece) :: rest

/-- Statements end at a semicolon or a line feed. -/
def endsStatement (c : Char) : Bool := c == ';' || c == '\n'

/-- The trimmed statements of a text; blank ones do not count. -/
def statements (text : String) : List (List Char) :=
  ((pieces endsStatement text.toList).map strip).filter fun line => !line.isEmpty

/-- An assignment as written: the right-hand side is text. -/
structure Assignment where
  name : Name
  rhs : String
  deriving DecidableEq, Repr

namespace Assignment

/-- The name at the front of a text, and the rest. -/
def takeName? : List Char → Option (List Char × List Char)
  | [] => none
  | c :: rest =>
    if isNameStart c then some (c :: rest.takeWhile isNameChar, rest.dropWhile isNameChar) else none

/-- Reads `NAME = RHS`, with blanks allowed around each part and a right-hand side that is not
blank. -/
def ofStatement? (line : List Char) : Option Assignment :=
  match takeName? (line.dropWhile isBlank) with
  | none => none
  | some (name, rest) =>
    match rest.dropWhile isBlank with
    | [] => none
    | c :: rest =>
      if c = '=' then
        let rhs := strip rest
        if rhs.isEmpty then none else some ⟨String.ofList name, String.ofList rhs⟩
      else none

/-- One statement in canonical layout. -/
def line (a : Assignment) : String := a.name ++ " = " ++ a.rhs

/-- The assignments one to a line. -/
def render (assignments : List Assignment) : String := "\n".intercalate (assignments.map line)

end Assignment

end CausalEquations
