import CausalEquations.Number.Scalar

/-!
# Linear systems

A square system is solved by elimination with the largest pivot of each column, and back
substitution. A column whose largest entry is too small makes the system singular.

* `Row` — a linear equation.
* `Row.eliminate` — the triangular system, each row starting at its diagonal.
* `Row.backSubstitute` — the solution of a triangular system.
* `solve` — the solution of a square system.
-/

namespace CausalEquations

variable {α : Type} [Scalar α]

/-- A linear equation: `∑ coefficients · unknowns = value`. -/
structure Row (α : Type) where
  coefficients : List α
  value : α

namespace Row

/-- The coefficient of the first unknown. -/
def lead (row : Row α) : α := row.coefficients.headD Scalar.zero

/-- Whether `a` makes a better pivot than `b`: it is larger, or undefined where `b` is not. -/
def outranks (a b : α) : Bool :=
  Scalar.lt b a || (Scalar.isUndefined a && !Scalar.isUndefined b)

/-- The position of the first row with the best pivot among those from position `i` on, given the
best so far. -/
def bestFrom (best : Nat) (bestLead : α) (i : Nat) : List (Row α) → Nat
  | [] => best
  | row :: rest =>
    if outranks (Scalar.abs row.lead) bestLead then bestFrom i (Scalar.abs row.lead) (i + 1) rest
    else bestFrom best bestLead (i + 1) rest

/-- The position of the first row with the largest leading coefficient in magnitude. -/
def pivotIndex : List (Row α) → Nat
  | [] => 0
  | row :: rest => bestFrom 0 (Scalar.abs row.lead) 1 rest

/-- Exchanges the first element with the one at a position. -/
def bringToFront {β : Type} (position : Nat) : List β → List β
  | [] => []
  | first :: rest =>
    match position with
    | 0 => first :: rest
    | i + 1 =>
      match rest[i]? with
      | none => first :: rest
      | some chosen => chosen :: rest.set i first

/-- Subtracts the multiple of the pivot row that removes the first unknown, which is left out. -/
def reduceBy (pivot row : Row α) : Row α :=
  let factor := row.lead / pivot.lead
  ⟨List.zipWith (fun a p => a - factor * p) row.coefficients.tail pivot.coefficients.tail,
    row.value - factor * pivot.value⟩

/-- Removes one unknown after the other. Each remaining row starts at its diagonal; there is none
if a pivot is smaller than `tolerance`. -/
def eliminate (tolerance : α) : (size : Nat) → List (Row α) → Option (List (Row α))
  | 0, _ => some []
  | size + 1, rows =>
    match bringToFront (pivotIndex rows) rows with
    | [] => some []
    | pivot :: others =>
      if Scalar.lt (Scalar.abs pivot.lead) tolerance then none
      else (eliminate tolerance size (others.map (reduceBy pivot))).map (pivot :: ·)

/-- Solves a triangular system from its last row, unless a diagonal is smaller than `tolerance`. -/
def backSubstitute (tolerance : α) : List (Row α) → Option (List α)
  | [] => some []
  | row :: rest =>
    match backSubstitute tolerance rest with
    | none => none
    | some solution =>
      if Scalar.lt (Scalar.abs row.lead) tolerance then none
      else some ((row.value - Scalar.dot row.coefficients.tail solution) / row.lead :: solution)

end Row

/-- The solution of `matrix · x = vector` for a square matrix, or none if the matrix is empty or
singular. -/
def solve (matrix : List (List α)) (vector : List α) (tolerance : α) : Option (List α) :=
  if matrix.isEmpty then none
  else
    (Row.eliminate tolerance matrix.length (List.zipWith Row.mk matrix vector)).bind
      (Row.backSubstitute tolerance)

end CausalEquations
