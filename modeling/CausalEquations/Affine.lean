import CausalEquations.Expr.Basic
import CausalEquations.Number.Fixed

/-!
# Affine forms

An equation that is a constant plus multiples of variables can be edited term by term. Its affine
form keeps the terms in the order in which their variables first occur, so that the edited equation
is written the same way each time.

* `Affine` — coefficients, the order in which they are written, and a constant.
* `Affine.ofExpr?` — the affine form of an expression, if it has one.
* `Affine.setCoefficient` — sets or removes one term.
* `Affine.render` — the equation as text.
* `negligible` — the numbers that leave no term.
-/

namespace CausalEquations

variable {α : Type} [Scalar α]

/-- A number leaves no trace in an affine form if it is not finite or of a magnitude below
`Scalar.epsilon`. -/
def negligible (x : α) : Bool :=
  !Scalar.isFinite x || Rat.blt (Rat.abs (Scalar.toRat x)) (Scalar.toRat (Scalar.epsilon : α))

/-- A number in the text of an equation: at most four decimals. -/
def formatNumber (x : α) : String :=
  if Scalar.isFinite x then String.ofList (Fixed.text 4 (Scalar.toRat x)) else "0"

/-- The magnitude of a number in the text of an equation. -/
def formatMagnitude (x : α) : String := String.ofList (Fixed.text 4 (Rat.abs (Scalar.toRat x)))

/-- `constant + ∑ terms[name] · name`. -/
structure Affine (α : Type) where
  /-- The coefficients by variable. -/
  terms : Table α
  /-- The variables in the order in which their terms are written. -/
  order : List Name
  constant : α

namespace Affine

/-! ## Arithmetic -/

/-- The affine form without terms and with constant zero. -/
def zero : Affine α := ⟨Table.empty, [], Scalar.zero⟩

/-- The number itself if it is finite, else zero. -/
def finiteOrZero (x : α) : α := if Scalar.isFinite x then x else Scalar.zero

/-- A constant. -/
def ofConstant (x : α) : Affine α := ⟨Table.empty, [], finiteOrZero x⟩

/-- A variable with coefficient one. -/
def ofVariable (name : Name) : Affine α := ⟨Table.empty.insert name Scalar.one, [name], Scalar.zero⟩

/-- The coefficient of a variable; zero if it has no term. -/
def coefficient (a : Affine α) (name : Name) : α := a.terms.getD name Scalar.zero

/-- Whether there is a term, be it with coefficient zero. -/
def hasTerms (a : Affine α) : Bool := !a.terms.keys.isEmpty

/-- Adds or subtracts term by term: new variables follow those of the left side. -/
def combine (op : α → α → α) (a b : Affine α) : Affine α :=
  let (terms, order) := b.terms.entries.foldl
    (fun (terms, order) e =>
      (terms.insert e.1 (op (terms.getD e.1 Scalar.zero) e.2),
        if terms.contains e.1 then order else order ++ [e.1]))
    (a.terms, a.order)
  ⟨terms, order, finiteOrZero (op a.constant b.constant)⟩

/-- The multiple by a finite factor. -/
def scale? (a : Affine α) (factor : α) : Option (Affine α) :=
  if Scalar.isFinite factor then
    some ⟨a.terms.map fun _ c => c * factor, a.order, finiteOrZero (a.constant * factor)⟩
  else none

/-- The product, if a side has no terms. -/
def mul? (a b : Affine α) : Option (Affine α) :=
  if a.hasTerms && b.hasTerms then none
  else if a.hasTerms then a.scale? b.constant
  else if b.hasTerms then b.scale? a.constant
  else some (ofConstant (a.constant * b.constant))

/-- The quotient, if the divisor has no terms and its constant is not negligible. -/
def div? (a b : Affine α) : Option (Affine α) :=
  if b.hasTerms || negligible b.constant then none else a.scale? (Scalar.one / b.constant)

/-! ## The affine form of an expression -/

/-- Reduces an expression; terms that cancel remain, with coefficient zero. -/
def reduce? : Expr α → Option (Affine α)
  | .literal value _ => if Scalar.isFinite value then some (ofConstant value) else none
  | .identifier name =>
    match Constant.ofName? name with
    | some c => some (ofConstant c.value)
    | none => some (ofVariable name)
  | .unary op argument => do
    let a ← reduce? argument
    if op = "+" then some a
    else if op = "-" then a.scale? (-Scalar.one)
    else none
  | .binary op left right => do
    let a ← reduce? left
    let b ← reduce? right
    if op = "+" then some (combine (· + ·) a b)
    else if op = "-" then some (combine (· - ·) a b)
    else if op = "*" then a.mul? b
    else if op = "/" then a.div? b
    else none
  | _ => none

/-- Drops the terms with negligible coefficients. -/
def normalize (a : Affine α) : Affine α :=
  let terms := a.terms.filter fun _ c => !negligible c
  ⟨terms, a.order.filter fun name => terms.contains name, finiteOrZero a.constant⟩

/-- The affine form of an expression. It has none if two terms are multiplied, if a divisor has
terms or a negligible value, or if anything but the four operations of arithmetic occurs. -/
def ofExpr? (e : Expr α) : Option (Affine α) := (reduce? e).map normalize

/-! ## Editing and writing -/

/-- Gives a variable a coefficient; a negligible one removes its term. A new term comes last. -/
def setCoefficient (a : Affine α) (name : Name) (value : α) : Affine α :=
  let terms := if negligible value then a.terms.erase name else a.terms.insert name value
  let order := if a.order.contains name then a.order else a.order ++ [name]
  normalize ⟨terms, order, a.constant⟩

/-- The term of a variable without its sign; a coefficient of magnitude one is not written. -/
def termText (name : Name) (value : α) : String :=
  if Rat.abs (Scalar.toRat value) = 1 then name else formatMagnitude value ++ "*" ++ name

/-- The signed pieces of the text: the terms in order, and the constant unless it is negligible. -/
def pieces (a : Affine α) : List (Bool × String) :=
  a.order.map (fun name =>
    let c := a.coefficient name
    (Rat.blt (Scalar.toRat c) 0, termText name c)) ++
  if negligible a.constant then []
  else [(Rat.blt (Scalar.toRat a.constant) 0, formatMagnitude a.constant)]

/-- Joins signed pieces: a leading minus sign is attached, the other signs stand between blanks. -/
def joinPieces : List (Bool × String) → String
  | [] => "0"
  | (negative, piece) :: rest =>
    " ".intercalate ((if negative then "-" ++ piece else piece) ::
      rest.map fun p => (if p.1 then "- " else "+ ") ++ p.2)

/-- The equation as text. -/
def render (a : Affine α) : String := joinPieces a.normalize.pieces

end Affine

end CausalEquations
