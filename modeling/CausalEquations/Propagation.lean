import CausalEquations.Expr.Evaluation
import CausalEquations.Graph.Order
import CausalEquations.Noise

/-!
# Propagation

Values flow through a model along its causal order: each variable gets the value of its equation in
the values computed before. A clamped variable keeps the value it has.

* `Setting` — which variables are clamped, and the values of the noise nodes.
* `EvaluationError` — the equation that has no value.
* `propagate` — one pass over given nodes.
* `computeValues` — one pass over a whole graph, from given values.
-/

namespace CausalEquations

/-- What a pass holds fixed. -/
structure Setting (β : Type) where
  /-- The variables that keep their values. -/
  clamped : Table Bool := Table.empty
  /-- The values of noise nodes, by their ids. -/
  noise : Table β := Table.empty

/-- An equation that has no value. -/
structure EvaluationError where
  variableName : Name
  source : String
  cause : Fault
  deriving DecidableEq, Repr

/-- The wording of the error. -/
def EvaluationError.message (e : EvaluationError) : String :=
  "Error evaluating \"" ++ e.variableName ++ " = " ++ e.source ++ "\": " ++ e.cause.message

variable {α β : Type} [Scalar α]

namespace Setting

/-- Whether a variable keeps its value. -/
def isClamped (setting : Setting β) (name : Name) : Bool := setting.clamped.getD name false

/-- The value of a noise node; zero unless it is given. -/
def noiseAt (lift : Lifting α β) (setting : Setting β) (node : Name) : β :=
  setting.noise.getD node (lift.const Scalar.zero)

/-- The noise of a variable. -/
def noiseOf (lift : Lifting α β) (setting : Setting β) (name : Name) : β :=
  setting.noiseAt lift (noiseId name)

end Setting

variable [Elementary α]

/-- The new value of a node that is not clamped: a noise node outside the model has its own value, a
node without equation has its noise, and any other node the value of its equation. -/
def nodeValue (lift : Lifting α β) (model : Model α) (setting : Setting β) (values : Table β)
    (name : Name) : Except EvaluationError β :=
  match model.get? name with
  | none =>
    if isNoise name then .ok (setting.noiseAt lift name) else .ok (setting.noiseOf lift name)
  | some entry =>
    match entry.expression with
    | none => .ok (setting.noiseOf lift name)
    | some e =>
      (e.evaluate lift ⟨values, setting.noiseOf lift name⟩).mapError fun cause =>
        ⟨name, entry.source, cause⟩

/-- Computes one node. -/
def visit (lift : Lifting α β) (model : Model α) (setting : Setting β) (values : Table β)
    (name : Name) : Except EvaluationError (Table β) :=
  if setting.isClamped name then .ok values
  else do
    let x ← nodeValue lift model setting values name
    return values.insert name x

/-- Computes the nodes one after the other, each from the values computed before. -/
def propagate (lift : Lifting α β) (model : Model α) (setting : Setting β) (order : List Name)
    (values : Table β) : Except EvaluationError (Table β) :=
  order.foldlM (visit lift model setting) values

/-- Why a graph has no values. -/
inductive ComputeError where
  | cycle (error : CycleError)
  | evaluation (error : EvaluationError)
  deriving DecidableEq, Repr

/-- The values at the start of a pass: those given, and zero for the other nodes. -/
def seeded (zero : β) (values : Table β) (order : List Name) : Table β :=
  order.foldl (fun values name => values.insertIfNew name zero) values

/-- The value of every node of a graph and of every name with a given value. -/
def computeValues (model : Model α) (graph : Graph) (setting : Setting α) (values : Table α) :
    Except ComputeError (Table α) :=
  match graph.order with
  | .error e => .error (.cycle e)
  | .ok order =>
    (propagate Lifting.single model setting order (seeded Scalar.zero values order)).mapError
      .evaluation

end CausalEquations
