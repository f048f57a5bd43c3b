import CausalEquations.Propagation

/-!
# Sampling

Many rows are drawn from a model in one pass over batches. Without noise, variables without parents
are drawn uniformly from their ranges and held there; with noise, every variable gets normal noise
in proportion to its range. Random numbers come from a supply that is given as two sequences.

* `Interval` — the range of a variable.
* `SamplingPlan`, `SamplingPlan.ofCount` — how many rows, and how much noise.
* `Draws` — the supply of random numbers.
* `sampleModel` — the rows, and how many random numbers they took.
-/

namespace CausalEquations

variable {α : Type} [Scalar α]

/-- The range of a variable. -/
structure Interval (α : Type) where
  low : α
  high : α

namespace Interval

/-- The width of a range. -/
def span (i : Interval α) : α := i.high - i.low

/-- The range from which a variable without one is drawn. -/
def standard : Interval α := ⟨-(Scalar.ofNat 100), Scalar.ofNat 100⟩

/-- Brings a number into the range. If the ends are reversed the high end wins, and an undefined end
makes the result undefined. -/
def clamp (i : Interval α) (x : α) : α :=
  if Scalar.isUndefined i.low then i.low
  else if Scalar.isUndefined i.high then i.high
  else
    let raised := if Scalar.lt x i.low then i.low else x
    if Scalar.lt i.high raised then i.high else raised

/-- Brings a finite number into the range and leaves others alone. -/
def clip (i : Interval α) (x : α) : α := if Scalar.isFinite x then i.clamp x else x

end Interval

/-! ## Plans -/

/-- What is to be drawn. -/
structure SamplingPlan (α : Type) where
  /-- The number of rows. -/
  count : Nat := 200
  noiseEnabled : Bool := false
  /-- The standard deviation of noise as a fraction of a variable's range. -/
  noiseAmount : α

/-- A negative number of rows was asked for. -/
structure NegativeCount where
  deriving DecidableEq, Repr

/-- The wording of the error. -/
def NegativeCount.message (_ : NegativeCount) : String := "num_samples must be non-negative."

namespace SamplingPlan

/-- A plan for a requested number of rows. -/
def ofCount (count : Int) (noiseEnabled : Bool) (noiseAmount : α) :
    Except NegativeCount (SamplingPlan α) :=
  if count < 0 then .error {} else .ok ⟨count.toNat, noiseEnabled, noiseAmount⟩

/-- Noise is drawn if it is enabled and its amount is positive. -/
def usesNoise (plan : SamplingPlan α) : Bool :=
  plan.noiseEnabled && Scalar.lt Scalar.zero plan.noiseAmount

end SamplingPlan

/-- A supply of random numbers: one sequence of uniform and one of normal draws. -/
structure Draws (α : Type) where
  uniform : Nat → α
  normal : Nat → α

/-- Block number `i` of `count` draws. -/
def block (draws : Nat → α) (count i : Nat) : List α :=
  (List.range count).map fun k => draws (count * i + k)

/-! ## Variables -/

/-- The nodes of a graph of parents that have none but noise nodes, in order. -/
def rootNodes (g : Graph) : List Name :=
  (g.entries.filter fun e => !isNoise e.1 && e.2.all isNoise).map Prod.fst

/-- The variables that are no noise nodes, in code point order. -/
def userVariables (names : List Name) : List Name :=
  sortedNames (names.filter fun name => !isNoise name)

/-! ## Rows -/

/-- Rows of a sample, and the number of draws from each supply. -/
structure SampledRows (α : Type) where
  rows : List (Table α)
  uniforms : Nat
  normals : Nat

/-- The noise of a node: normal draws in proportion to the width of its variable's range, none if
that width is not finite. -/
def noiseBlock (plan : SamplingPlan α) (ranges : Table (Interval α)) (draws : Draws α)
    (node : Name) (i : Nat) : List α :=
  let span := (ranges.getD (noiseTarget node) Interval.standard).span
  let deviation :=
    if Scalar.isFinite span then Scalar.abs (plan.noiseAmount * span) else Scalar.zero
  (block draws.normal plan.count i).map fun z => z * deviation

/-- The values of a root: uniform draws from its range. -/
def rootBlock (count : Nat) (ranges : Table (Interval α)) (draws : Draws α) (node : Name)
    (i : Nat) : List α :=
  let range := ranges.getD node Interval.standard
  (block draws.uniform count i).map fun u => range.low + u * range.span

/-- The elements with their positions. -/
def numbered {β : Type} (xs : List β) : List (β × Nat) := xs.zip (List.range xs.length)

/-- The batches at the start of a pass: the given values in every row, and zero elsewhere. -/
def seedBatches (count : Nat) (values : Table α) (order : List Name) : Table (Value α) :=
  seeded (.batch (List.replicate count Scalar.zero))
    (values.map fun _ x => Value.batch (List.replicate count x)) order

/-- The column of a variable: its batch, brought into its range if it has one. -/
def column (count : Nat) (ranges : Table (Interval α)) (batches : Table (Value α))
    (name : Name) : List α :=
  let xs := (batches.getD name (.single Scalar.zero)).spread count
  match ranges.get? name with
  | none => xs
  | some range => xs.map range.clip

/-- Row number `i` of named columns. -/
def rowAt (columns : List (Name × List α)) (i : Nat) : Table α :=
  Table.ofList (columns.map fun c => (c.1, c.2.getD i Scalar.zero))

/-- Which of the variables are held at their values. -/
def interventionsOn (names : List Name) (interventions : Table Bool) : Table Bool :=
  Table.ofList (names.map fun name => (name, interventions.getD name false))

variable [Elementary α]

/-- Draws rows from a model over given variables. -/
def sampleModel (model : Model α) (graph : Graph) (names : List Name) (values : Table α)
    (plan : SamplingPlan α) (interventions : Table Bool) (ranges : Table (Interval α))
    (draws : Draws α) : Except ComputeError (SampledRows α) :=
  let noisy := NoisyGraph.ofGraph graph names
  match noisy.graph.order with
  | .error e => .error (.cycle e)
  | .ok order =>
    let held := interventionsOn noisy.members interventions
    let batches := seedBatches plan.count values order
    let noiseNodes := if plan.usesNoise then sortedNames noisy.noiseNodes else []
    let roots :=
      if plan.usesNoise then []
      else (rootNodes noisy.graph).filter fun root => !held.getD root false
    let noise := Table.ofList ((numbered noiseNodes).map fun e =>
      (e.1, Value.batch (noiseBlock plan ranges draws e.1 e.2)))
    let drawn := (numbered roots).foldl
      (fun t e => t.insert e.1 (Value.batch (rootBlock plan.count ranges draws e.1 e.2))) batches
    let clamped := roots.foldl (fun t root => t.insert root true) held
    match propagate Lifting.batched model ⟨clamped, noise⟩ order drawn with
    | .error e => .error (.evaluation e)
    | .ok result =>
      let columns := (userVariables names).map fun name =>
        (name, column plan.count ranges result name)
      .ok ⟨(List.range plan.count).map (rowAt columns), plan.count * roots.length,
        plan.count * noiseNodes.length⟩

end CausalEquations
