import CausalEquations.Statistics.LeastSquares
import CausalEquations.Statistics.Student

/-!
# Correlation

Pearson's correlation of two variables with its two-sided p-value, in floating point. The p-value is
that of Student's t distribution with `n - 2` degrees of freedom.

* `correlationPValue` — the p-value of a correlation.
* `Correlation.ofPoints?` — correlation, slope and p-value of points.
-/

namespace CausalEquations

/-- The two-sided p-value of a correlation of `n` points. It is undefined for fewer than three
points, and zero for points on a line. -/
def correlationPValue (r : Float) (n : Int) : Float :=
  if n < 3 || !r.isFinite then 0.0 / 0.0
  else if Scalar.le (1.0 - Scalar.epsilon) r.abs then 0.0
  else
    let freedom := Float.ofInt (n - 2)
    let t := r.abs * Float.sqrt (freedom / (1.0 - r * r))
    if t.isFinite then Student.twoSided t freedom else 0.0 / 0.0

/-- Correlation, slope of the line of least squares, p-value and number of points. -/
structure Correlation where
  r : Float
  slope : Float
  pValue : Float
  count : Nat

/-- The correlation of points; none for fewer than three, or if a variable does not vary. -/
def Correlation.ofPoints? (points : List (Point Float)) : Option Correlation :=
  if points.length < 3 then none
  else
    let dx := deviations (points.map Point.x)
    let dy := deviations (points.map Point.y)
    let spreadX := Scalar.dot dx dx
    let spreadY := Scalar.dot dy dy
    if vanishes spreadX || vanishes spreadY then none
    else
      let common := Scalar.dot dx dy
      let r := common / Float.sqrt (spreadX * spreadY)
      some ⟨r, common / spreadX, correlationPValue r points.length, points.length⟩

end CausalEquations
