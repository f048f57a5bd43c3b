import CausalEquations.Statistics.Insertion
import CausalEquations.Statistics.LeastSquares

/-!
# Smooth curves through points

At each of evenly spaced positions a line is fitted to the nearest points, which weigh less the
farther they are.

* `tricubeWeights` — the weights of the points seen from a position.
* `Loess.fitAt?` — the height of the local line at a position.
* `Loess.curve?` — the curve.
-/

namespace CausalEquations

variable {α : Type} [Scalar α]

/-- Ascending order with undefined numbers last. -/
def ascending (a b : α) : Bool := Scalar.le a b || Scalar.isUndefined b

/-- The third power. -/
def cube (x : α) : α := x * x * x

/-- The element at a position, counted from the end if the position is negative. -/
def pick? {β : Type} (xs : List β) (position : Int) : Option β :=
  if position < 0 then
    if position + xs.length < 0 then none else xs[(position + xs.length).toNat]?
  else xs[position.toNat]?

/-- The weights of positions seen from `target`. The radius is the distance of the farthest of the
nearest `neighbours`; the weight falls from one to zero at the radius, and stays zero beyond. If the
radius is zero all weigh the same. -/
def tricubeWeights (xs : List α) (target : α) (neighbours : Int) : List α :=
  let distances := xs.map fun x => Scalar.abs (x - target)
  match pick? (distances.mergeSort ascending) (min neighbours xs.length - 1) with
  | none => []
  | some radius =>
    if radius == Scalar.zero then distances.map fun _ => Scalar.one
    else
      distances.map fun d =>
        if Scalar.lt radius d then Scalar.zero else cube (Scalar.one - cube (d / radius))

namespace Loess

/-- Below this fraction of the points no local fit is attempted. -/
def leastBandwidth : α := Scalar.ofDecimal 2 (-1)

/-- The fraction of the points in a local fit, brought into `[1/5, 1]`. -/
def bandwidthOf (requested : α) : α :=
  let raised := if Scalar.lt leastBandwidth requested then requested else leastBandwidth
  if Scalar.lt raised Scalar.one then raised else Scalar.one

/-- The number of points in a local fit: the fraction rounded, and at least three. -/
def neighboursOf (bandwidth : α) (n : Nat) : Int :=
  max 3 (Scalar.toRat (bandwidth * Scalar.ofNat n + Scalar.ofDecimal 5 (-1))).floor

/-- The number of positions: at least twelve, and by default two to a point up to 36. -/
def stepsOf (requested : Option Int) (n : Nat) : Nat :=
  (max 12 (requested.getD (min 36 (2 * n)))).toNat

/-- The height of the weighted line through sorted points at `target`; none without weight. -/
def fitAt? (xs ys : List α) (neighbours : Int) (target : α) : Option α :=
  let weights := tricubeWeights xs target neighbours
  let total := Scalar.sum weights
  if total == Scalar.zero then none
  else
    let wx := List.zipWith (· * ·) weights xs
    let wy := List.zipWith (· * ·) weights ys
    let sumX := Scalar.sum wx
    let sumY := Scalar.sum wy
    let sumXX := Scalar.dot wx xs
    let sumXY := Scalar.dot wx ys
    let spread := total * sumXX - sumX * sumX
    if Scalar.lt Scalar.epsilon (Scalar.abs spread) then
      let slope := (total * sumXY - sumX * sumY) / spread
      some ((sumY - slope * sumX) / total + slope * target)
    else some (sumY / total)

/-- The position number `step` of `steps` from `low` over `span`. -/
def position (low span : α) (steps step : Nat) : α :=
  low + span * Scalar.ofNat step / Scalar.ofNat (steps - 1)

/-- The points by ascending `x`; those with the same `x` keep their order. -/
def sortedByX (points : List (Point α)) : List (Point α) :=
  Insertion.sort (fun p q => Scalar.lt p.x q.x) points

/-- The curve, or none for fewer than three points, if the `x` do not vary, or if fewer than two
positions have a height. -/
def curve? (points : List (Point α)) (bandwidth : α) (steps : Option Int) :
    Option (List (Point α)) :=
  if points.length < 3 then none
  else
    let sorted := sortedByX points
    let xs := sorted.map Point.x
    let ys := sorted.map Point.y
    let low := xs.headD Scalar.zero
    let span := xs.getLastD Scalar.zero - low
    if !Scalar.isFinite span || span == Scalar.zero then none
    else
      let neighbours := neighboursOf (bandwidthOf bandwidth) points.length
      let count := stepsOf steps points.length
      let line := (List.range count).filterMap fun step =>
        let target := position low span count step
        match fitAt? xs ys neighbours target with
        | none => none
        | some height => if Scalar.isFinite height then some ⟨target, height⟩ else none
      if line.length < 2 then none else some line

end Loess

end CausalEquations
