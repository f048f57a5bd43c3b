import CausalEquations.Vocabulary

/-!
# Expressions

The right-hand side of an equation is a tree of numbers, names, operators, a choice and calls.
Operators are kept as they are written; what a symbol means is decided when the tree is evaluated.

* `Expr` — the tree.
* `Expr.identifiers` — the names it mentions, from left to right.
* `Expr.dependencies` — the variables among them, each once.
* `Expr.check` — every call is a call of a known function by name.
-/

namespace CausalEquations

/-- An expression over the numbers `α`. -/
inductive Expr (α : Type) where
  /-- A number and the text it was written as. -/
  | literal (value : α) (raw : String)
  /-- A variable, a constant or the noise of the variable that is being computed. -/
  | identifier (name : Name)
  | unary (op : String) (argument : Expr α)
  | binary (op : String) (left right : Expr α)
  /-- `test ? consequent : alternate`. -/
  | choice (test consequent alternate : Expr α)
  | call (callee : Expr α) (arguments : List (Expr α))
  deriving Inhabited

namespace Expr

variable {α : Type}

/-! ## Names -/

mutual

/-- The names that occur, from left to right, with repetitions. The name of a called function is
not among them. -/
def identifiers : Expr α → List Name
  | literal _ _ => []
  | identifier name => [name]
  | unary _ a => a.identifiers
  | binary _ a b => a.identifiers ++ b.identifiers
  | choice t a b => t.identifiers ++ a.identifiers ++ b.identifiers
  | call _ args => identifiersOfList args

/-- The names that occur in a list of arguments. -/
def identifiersOfList : List (Expr α) → List Name
  | [] => []
  | a :: rest => a.identifiers ++ identifiersOfList rest

end

/-- The variables that an expression reads: its names that are not reserved, each once, in the
order of first occurrence. -/
def dependencies (e : Expr α) : List Name :=
  (e.identifiers.filter fun name => !isReserved name).eraseDups

end Expr

end CausalEquations
