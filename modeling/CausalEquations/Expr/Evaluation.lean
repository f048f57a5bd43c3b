import CausalEquations.Expr.Basic
import CausalEquations.Expr.SyntaxError
import CausalEquations.Expr.Value

/-!
# Evaluation

An expression is evaluated in a scope that gives values to variables. Nothing is skipped: both
branches of a choice and both sides of a connective are evaluated, so a fault anywhere in the tree
is a fault of the whole. An operator or a call is examined before its operands.

* `Scope` — the values of the variables, and the noise that `error` stands for.
* `Fault` — why an expression has no value.
* `Expr.evaluate` — the value of an expression.
-/

namespace CausalEquations

/-- What the names of an expression stand for. -/
structure Scope (β : Type) where
  /-- The values of variables; a variable without one counts as zero. -/
  values : Table β
  /-- The value of the name `error`. -/
  error : β

/-- Why an expression has no value. -/
inductive Fault where
  | unknownUnary (op : String)
  | unknownBinary (op : String)
  | forbiddenCall (cause : CallError)
  /-- A function is called with a number of arguments other than one. -/
  | arity (name : Name) (count : Nat)
  | sizeMismatch (sizes : SizeMismatch)
  deriving DecidableEq, Repr

/-- The wording of a fault. -/
def Fault.message : Fault → String
  | unknownUnary op => "Unsupported unary operator \"" ++ op ++ "\"."
  | unknownBinary op => "Unsupported operator \"" ++ op ++ "\"."
  | forbiddenCall cause => cause.message
  | arity name count =>
    "Function \"" ++ name ++ "\" expects exactly one argument, got " ++ toString count ++ "."
  | sizeMismatch sizes =>
    "The size of tensor a (" ++ toString sizes.left ++ ") must match the size of tensor b ("
      ++ toString sizes.right ++ ") at non-singleton dimension 0"

variable {α β : Type} [Scalar α]

/-- The value of a name: a constant, the noise, or a variable. -/
def Scope.resolve (lift : Lifting α β) (scope : Scope β) (name : Name) : β :=
  match Constant.ofName? name with
  | some c => lift.const c.value
  | none =>
    if name = errorName then scope.error else scope.values.getD name (lift.const Scalar.zero)

/-- `consequent` where the test is true, `alternate` elsewhere. -/
def choose (test consequent alternate : α) : α :=
  if Scalar.isTrue test then consequent else alternate

variable [Elementary α]

/-- The value of an expression in a scope. -/
def Expr.evaluate (lift : Lifting α β) (scope : Scope β) : Expr α → Except Fault β
  | literal value _ => .ok (lift.const value)
  | identifier name => .ok (scope.resolve lift name)
  | unary op argument =>
    match UnaryOp.ofSymbol? op with
    | none => .error (.unknownUnary op)
    | some meaning => do
      let x ← argument.evaluate lift scope
      return lift.map meaning.apply x
  | binary op left right =>
    match BinaryOp.ofSymbol? op with
    | none => .error (.unknownBinary op)
    | some meaning => do
      let x ← left.evaluate lift scope
      let y ← right.evaluate lift scope
      (lift.map₂ meaning.apply x y).mapError .sizeMismatch
  | choice test consequent alternate => do
    let t ← test.evaluate lift scope
    let x ← consequent.evaluate lift scope
    let y ← alternate.evaluate lift scope
    (lift.map₃ choose t x y).mapError .sizeMismatch
  | call callee arguments =>
    match callee with
    | identifier name =>
      match Builtin.ofName? name with
      | none => .error (.forbiddenCall (.unknownFunction name))
      | some function =>
        match arguments with
        | [argument] => do
          let x ← argument.evaluate lift scope
          return lift.map function.apply x
        | _ => .error (.arity name arguments.length)
    | _ => .error (.forbiddenCall .computedCallee)

end CausalEquations
