import CausalEquations.Number.Scalar

/-!
# Straight lines through points

* `Point` — an observation.
* `Line.fit?` — the line with the least sum of squared vertical distances.
* `Line.segment?` — the part of that line over the observed range.
-/

namespace CausalEquations

/-- An observation of two variables. -/
structure Point (α : Type) where
  x : α
  y : α
  deriving DecidableEq, Repr

variable {α : Type} [Scalar α]

/-- The arithmetic mean. -/
def mean (xs : List α) : α := Scalar.sum xs / Scalar.ofNat xs.length

/-- The deviations from the mean. -/
def deviations (xs : List α) : List α := xs.map fun x => x - mean xs

/-- Whether a sum of squares is too small to divide by. -/
def vanishes (x : α) : Bool := Scalar.lt (Scalar.abs x) Scalar.epsilon

/-- The line `y = intercept + slope · x`. -/
structure Line (α : Type) where
  slope : α
  intercept : α
  deriving DecidableEq, Repr

namespace Line

/-- The height of the line at `x`. -/
def height (line : Line α) (x : α) : α := line.intercept + line.slope * x

/-- The line of least squares; none for fewer than two points, or if the `x` do not vary. -/
def fit? (points : List (Point α)) : Option (Line α) :=
  if points.length < 2 then none
  else
    let xs := points.map Point.x
    let ys := points.map Point.y
    let dx := deviations xs
    let spread := Scalar.dot dx dx
    if vanishes spread then none
    else
      let slope := Scalar.dot dx (deviations ys) / spread
      some ⟨slope, mean ys - slope * mean xs⟩

end Line

/-- The smallest of the numbers, the first of equal ones. -/
def least (first : α) (rest : List α) : α :=
  rest.foldl (fun m x => if Scalar.lt x m then x else m) first

/-- The largest of the numbers, the first of equal ones. -/
def greatest (first : α) (rest : List α) : α :=
  rest.foldl (fun m x => if Scalar.lt m x then x else m) first

/-- The ends of the line of least squares at the smallest and the largest `x`. -/
def Line.segment? (points : List (Point α)) : Option (Point α × Point α) :=
  match Line.fit? points, points with
  | some line, first :: rest =>
    let low := least first.x (rest.map Point.x)
    let high := greatest first.x (rest.map Point.x)
    if Scalar.isFinite low && Scalar.isFinite high then
      some (⟨low, line.height low⟩, ⟨high, line.height high⟩)
    else none
  | _, _ => none

end CausalEquations
