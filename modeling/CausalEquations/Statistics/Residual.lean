import CausalEquations.Statistics.LinearSystem
import CausalEquations.Statistics.LeastSquares
import CausalEquations.Table

/-!
# Residuals

The linear effect of control variables is removed from two variables by a least-squares fit with an
intercept.

* `Sample` — one observation of many variables, flat or nested.
* `Sample.value?` — the number a sample holds for a variable.
* `Residuals`, `residualize` — the remaining points, or why there are none.
-/

namespace CausalEquations

/-- One observation. A field that holds no number is present with the value `none`. -/
structure Sample (ι α : Type) where
  /-- The fields of the sample itself. -/
  fields : Table (Option α) := Table.empty
  /-- The fields of a nested record of values, if there is one. -/
  nested : Option (Table (Option α)) := none
  /-- What identifies the sample. -/
  id : Option ι := none

/-- The number that a sample holds for a variable; the nested record comes first. -/
def Sample.value? {ι α : Type} (sample : Sample ι α) (key : Name) : Option α :=
  match sample.nested.bind fun t => t.get? key with
  | some datum => datum
  | none => (sample.fields.get? key).getD none

/-- How residuals were obtained, or why there are none. -/
inductive ResidualStatus where
  /-- There are no controls: the points are the observations. -/
  | raw
  | adjusted
  /-- Fewer samples than controls plus two. -/
  | insufficient
  /-- A value is missing, no number, or not finite. -/
  | invalid
  /-- The controls are affinely dependent. -/
  | singular
  deriving DecidableEq, Repr

/-- How a status is written. -/
def ResidualStatus.name : ResidualStatus → String
  | raw => "raw"
  | adjusted => "adjusted"
  | insufficient => "insufficient"
  | invalid => "invalid"
  | singular => "singular"

/-- A point with the identity of its sample; a coordinate may be missing among raw points. -/
structure IdentifiedPoint (ι α : Type) where
  x : Option α
  y : Option α
  id : Option ι

/-- The points that remain, and how they were obtained. -/
structure Residuals (ι α : Type) where
  points : List (IdentifiedPoint ι α)
  status : ResidualStatus

variable {ι α : Type} [Scalar α]

/-- The matrix of the normal equations: the products of the columns of a design. -/
def normalMatrix (columns : List (List α)) : List (List α) :=
  columns.map fun c => columns.map fun d => Scalar.dot c d

/-- The columns of a matrix given by its rows, which all have `width` entries. -/
def columnsOf (width : Nat) (rows : List (List α)) : List (List α) :=
  (List.range width).map fun j => rows.map fun row => row.getD j Scalar.zero

/-- What is left of the outcomes after the least-squares fit to the rows of a design. -/
def residualsOf? (width : Nat) (rows : List (List α)) (outcomes : List α) : Option (List α) :=
  let columns := columnsOf width rows
  let products := columns.map fun c => Scalar.dot c outcomes
  match solve (normalMatrix columns) products Scalar.epsilon with
  | none => none
  | some coefficients =>
    some (List.zipWith (fun row outcome => outcome - Scalar.dot row coefficients) rows outcomes)

/-- A value that can enter a fit. -/
def finite? (x : Option α) : Option α := x.filter Scalar.isFinite

/-- The values of all samples for a variable, if each is a finite number. -/
def observed? (samples : List (Sample ι α)) (key : Name) : Option (List α) :=
  samples.mapM fun s => finite? (s.value? key)

/-- Removes the linear effect of the controls from `x` and `y`. -/
def residualize (samples : List (Sample ι α)) (x y : Name) (controls : List Name) :
    Residuals ι α :=
  if controls.isEmpty then
    ⟨samples.map fun s => ⟨s.value? x, s.value? y, s.id⟩, .raw⟩
  else if samples.length < controls.length + 2 then ⟨[], .insufficient⟩
  else
    match observed? samples x, observed? samples y, controls.mapM (observed? samples) with
    | some xs, some ys, some controlColumns =>
      let width := controls.length + 1
      let rows := (List.range samples.length).map fun i =>
        Scalar.one :: controlColumns.map fun c => c.getD i Scalar.zero
      match residualsOf? width rows xs, residualsOf? width rows ys with
      | some rx, some ry =>
        ⟨List.zipWith (fun p s => ⟨some p.1, some p.2, s.id⟩) (rx.zip ry) samples, .adjusted⟩
      | _, _ => ⟨[], .singular⟩
    | _, _, _ => ⟨[], .invalid⟩

end CausalEquations
