import CausalEquations.Affine
import CausalEquations.Graph.Separation
import CausalEquations.Sampling

/-!
# Systems of causal equations

A system is a model whose dependencies have no cycle, together with a causal order. Its operations
are those of the library, applied to its own graph.

* `CausalSystem`, `CausalSystem.ofText` — the system that a text describes.
* `CausalSystem.compute`, `CausalSystem.sample` — values and rows.
* `CausalSystem.edgeStatus`, `CausalSystem.affine?` — paths under controls, and single equations.
-/

namespace CausalEquations

/-- A model with the causal order of its variables. -/
structure CausalSystem (α : Type) where
  model : Model α
  order : List Name

/-- Why a text describes no system. -/
inductive SystemError where
  | text (cause : ParseError)
  | cycle (error : CycleError)
  deriving DecidableEq, Repr

/-- A question about a variable that the system does not have. -/
structure UnknownVariable where
  name : Name
  deriving DecidableEq, Repr

/-- The wording of the error. -/
def UnknownVariable.message (e : UnknownVariable) : String :=
  "Unknown variable " ++ quoted e.name ++ "."

namespace CausalSystem

variable {α : Type} [Scalar α]

/-- The parents of every variable. -/
def graph (s : CausalSystem α) : Graph := Graph.ofModel s.model

/-- The system that a text describes. -/
def ofText (text : String) : Except SystemError (CausalSystem α) :=
  match Model.ofText text with
  | .error cause => .error (.text cause)
  | .ok model =>
    match (Graph.ofModel model).order with
    | .error e => .error (.cycle e)
    | .ok order => .ok ⟨model, order⟩

/-- How controlling changes the paths between two variables. -/
def edgeStatus (s : CausalSystem α) (x y : Name) (controls : List Name) (search : PathSearch) :
    Table EdgeStatus :=
  s.graph.edgeStatus x y controls [] search

/-- The affine form of a variable's equation; none if the equation has no such form. -/
def affine? (s : CausalSystem α) (name : Name) : Except UnknownVariable (Option (Affine α)) :=
  match s.model.get? name with
  | none => .error ⟨name⟩
  | some entry => .ok (entry.expression.bind Affine.ofExpr?)

/-- Noise given by variable, as noise by node. -/
def noiseByNode (noise : Table α) : Table α :=
  Table.ofList (noise.entries.map fun e => (noiseId e.1, e.2))

variable [Elementary α]

/-- The value of every variable, from given values, interventions and noise by variable. -/
def compute (s : CausalSystem α) (values : Table α) (interventions : Table Bool) (noise : Table α) :
    Except ComputeError (Table α) :=
  computeValues s.model s.graph ⟨interventions, noiseByNode noise⟩ values

/-- Why no rows are drawn. -/
inductive SampleError where
  | negativeCount (error : NegativeCount)
  | compute (error : ComputeError)

/-- Draws rows; a positive amount of noise enables noise. -/
def sample (s : CausalSystem α) (count : Int) (values : Table α) (interventions : Table Bool)
    (ranges : Table (Interval α)) (noiseAmount : α) (draws : Draws α) :
    Except SampleError (SampledRows α) :=
  match SamplingPlan.ofCount count (Scalar.lt Scalar.zero noiseAmount) noiseAmount with
  | .error e => .error (.negativeCount e)
  | .ok plan =>
    (sampleModel s.model s.graph s.model.keys values plan interventions ranges draws).mapError
      .compute

end CausalSystem

end CausalEquations
