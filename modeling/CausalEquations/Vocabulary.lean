import CausalEquations.Table
import CausalEquations.Number.Scalar

/-!
# The vocabulary of equations

The closed lists of what an equation may say: operators with their binding strength, functions,
named constants, and the name that stands for a variable's own noise.

* `BinaryOp`, `UnaryOp` — operators, their symbols and what they compute.
* `precedence` — how strongly each binary symbol binds.
* `Builtin` — the functions of one argument; their names are not case-sensitive.
* `Constant` — `PI` and `E`; their names are case-sensitive.
* `isReserved` — whether a name can never be a variable.
-/

namespace CausalEquations

/-! ## Operators -/

/-- The operators between two operands. -/
inductive BinaryOp where
  | add | sub | mul | div | pow | rem
  | greater | greaterEq | less | lessEq | equal | unequal
  | both | either
  deriving DecidableEq, Repr

namespace BinaryOp

/-- How an operator is written. -/
def symbol : BinaryOp → String
  | add => "+"
  | sub => "-"
  | mul => "*"
  | div => "/"
  | pow => "^"
  | rem => "%"
  | greater => ">"
  | greaterEq => ">="
  | less => "<"
  | lessEq => "<="
  | equal => "=="
  | unequal => "!="
  | both => "&&"
  | either => "||"

/-- Every binary operator. -/
def all : List BinaryOp :=
  [add, sub, mul, div, pow, rem, greater, greaterEq, less, lessEq, equal, unequal, both, either]

/-- The operator that is written as `text`. -/
def ofSymbol? (text : String) : Option BinaryOp := all.find? fun op => op.symbol == text

variable {α : Type} [Scalar α] [Elementary α]

/-- What an operator computes. Comparisons and connectives give one or zero. -/
def apply : BinaryOp → α → α → α
  | add, a, b => a + b
  | sub, a, b => a - b
  | mul, a, b => a * b
  | div, a, b => a / b
  | pow, a, b => Elementary.pow a b
  | rem, a, b => Elementary.rem a b
  | greater, a, b => Scalar.ofBool (Scalar.lt b a)
  | greaterEq, a, b => Scalar.ofBool (Scalar.le b a)
  | less, a, b => Scalar.ofBool (Scalar.lt a b)
  | lessEq, a, b => Scalar.ofBool (Scalar.le a b)
  | equal, a, b => Scalar.ofBool (a == b)
  | unequal, a, b => Scalar.ofBool (!(a == b))
  | both, a, b => Scalar.ofBool (Scalar.isTrue a && Scalar.isTrue b)
  | either, a, b => Scalar.ofBool (Scalar.isTrue a || Scalar.isTrue b)

end BinaryOp

/-- The operators before one operand. -/
inductive UnaryOp where
  | minus | plus | negation
  deriving DecidableEq, Repr

namespace UnaryOp

/-- How an operator is written. -/
def symbol : UnaryOp → String
  | minus => "-"
  | plus => "+"
  | negation => "!"

/-- Every unary operator. -/
def all : List UnaryOp := [minus, plus, negation]

/-- The operator that is written as `text`. -/
def ofSymbol? (text : String) : Option UnaryOp := all.find? fun op => op.symbol == text

/-- What an operator computes. -/
def apply {α : Type} [Scalar α] : UnaryOp → α → α
  | minus, a => -a
  | plus, a => a
  | negation, a => Scalar.ofBool (!Scalar.isTrue a)

end UnaryOp

/-- How strongly each binary operator binds: a larger number binds tighter. A power binds like a
product. -/
def precedence : List (String × Int) :=
  [("||", 1), ("&&", 2), ("==", 6), ("!=", 6), ("<", 7), (">", 7), ("<=", 7), (">=", 7),
   ("+", 9), ("-", 9), ("*", 10), ("/", 10), ("%", 10), ("^", 10)]

/-! ## Functions and constants -/

/-- The functions that an equation may call. -/
inductive Builtin where
  | abs | sin | cos | log | exp
  deriving DecidableEq, Repr

namespace Builtin

/-- The name of a function. -/
def name : Builtin → Name
  | abs => "abs"
  | sin => "sin"
  | cos => "cos"
  | log => "log"
  | exp => "exp"

/-- Every function, in the order in which messages list them. -/
def all : List Builtin := [abs, sin, cos, log, exp]

/-- The function called `text` in any mixture of upper and lower case. -/
def ofName? (text : Name) : Option Builtin :=
  all.find? fun f => f.name.toList == text.toList.map Char.toLower

/-- What a function computes. -/
def apply {α : Type} [Scalar α] [Elementary α] : Builtin → α → α
  | abs => Scalar.abs
  | sin => Elementary.sin
  | cos => Elementary.cos
  | log => Elementary.log
  | exp => Elementary.exp

/-- The list of functions that messages show. -/
def listing : String := ", ".intercalate (all.map name)

end Builtin

/-- The named constants. -/
inductive Constant where
  | pi | euler
  deriving DecidableEq, Repr

namespace Constant

/-- The name of a constant. -/
def name : Constant → Name
  | pi => "PI"
  | euler => "E"

/-- Every constant. -/
def all : List Constant := [pi, euler]

/-- The constant called `text`. -/
def ofName? (text : Name) : Option Constant := all.find? fun c => c.name == text

/-- The value of a constant. -/
def value {α : Type} [Scalar α] : Constant → α
  | pi => Scalar.pi
  | euler => Scalar.euler

end Constant

/-- The name that stands for a variable's own noise. -/
def errorName : Name := "error"

/-- A reserved name never denotes a variable inside an equation. -/
def isReserved (name : Name) : Bool :=
  (Builtin.ofName? name).isSome || (Constant.ofName? name).isSome || name == errorName

end CausalEquations
