import CausalEquations.Affine
import CausalEquations.CausalSystem
import CausalEquations.Edit
import CausalEquations.Expr.Basic
import CausalEquations.Expr.Evaluation
import CausalEquations.Expr.Parser
import CausalEquations.Expr.SyntaxError
import CausalEquations.Expr.Token
import CausalEquations.Expr.Value
import CausalEquations.Graph.Basic
import CausalEquations.Graph.Order
import CausalEquations.Graph.Path
import CausalEquations.Graph.Reachability
import CausalEquations.Graph.Separation
import CausalEquations.Graph.Signature
import CausalEquations.Logging
import CausalEquations.Model.Basic
import CausalEquations.Model.Statement
import CausalEquations.Noise
import CausalEquations.Number.Binary64
import CausalEquations.Number.Fixed
import CausalEquations.Number.Numeral
import CausalEquations.Number.Rounding
import CausalEquations.Number.Scalar
import CausalEquations.Proofs.Acceptance
import CausalEquations.Proofs.AddedNodes
import CausalEquations.Proofs.AddedNoise
import CausalEquations.Proofs.AffineExpressions
import CausalEquations.Proofs.AffineRoundTrip
import CausalEquations.Proofs.AffineValues
import CausalEquations.Proofs.Batches
import CausalEquations.Proofs.CanonicalDecimals
import CausalEquations.Proofs.CanonicalLayout
import CausalEquations.Proofs.CausalOrder
import CausalEquations.Proofs.Characters
import CausalEquations.Proofs.CoefficientRuns
import CausalEquations.Proofs.Collections
import CausalEquations.Proofs.CollinearPoints
import CausalEquations.Proofs.Confluence
import CausalEquations.Proofs.CountedOrder
import CausalEquations.Proofs.Dependencies
import CausalEquations.Proofs.Descendants
import CausalEquations.Proofs.EdgeGuard
import CausalEquations.Proofs.EdgeMarks
import CausalEquations.Proofs.EditedEquations
import CausalEquations.Proofs.EditedTexts
import CausalEquations.Proofs.EditedVariables
import CausalEquations.Proofs.Endpoints
import CausalEquations.Proofs.EscapedText
import CausalEquations.Proofs.ExactNumbers
import CausalEquations.Proofs.ExcludedNodes
import CausalEquations.Proofs.Failures
import CausalEquations.Proofs.FittedLines
import CausalEquations.Proofs.Grammar
import CausalEquations.Proofs.Interventions
import CausalEquations.Proofs.Leaves
import CausalEquations.Proofs.LinearSystems
import CausalEquations.Proofs.LocalFits
import CausalEquations.Proofs.LogHandlers
import CausalEquations.Proofs.ModelEntries
import CausalEquations.Proofs.ModelGraphs
import CausalEquations.Proofs.Models
import CausalEquations.Proofs.NameOrder
import CausalEquations.Proofs.Neighbourhoods
import CausalEquations.Proofs.NoiseMarks
import CausalEquations.Proofs.NoiseNames
import CausalEquations.Proofs.NoiseNodes
import CausalEquations.Proofs.Numerals
import CausalEquations.Proofs.Outcomes
import CausalEquations.Proofs.ParentSets
import CausalEquations.Proofs.ParserCompleteness
import CausalEquations.Proofs.ParserSoundness
import CausalEquations.Proofs.ParserStability
import CausalEquations.Proofs.Parsing
import CausalEquations.Proofs.PathEnumeration
import CausalEquations.Proofs.PathOrder
import CausalEquations.Proofs.Positions
import CausalEquations.Proofs.RationalNumbers
import CausalEquations.Proofs.Reachability
import CausalEquations.Proofs.Removals
import CausalEquations.Proofs.RenamedBack
import CausalEquations.Proofs.Renaming
import CausalEquations.Proofs.Rereading
import CausalEquations.Proofs.Residuals
import CausalEquations.Proofs.Respelling
import CausalEquations.Proofs.SampledRows
import CausalEquations.Proofs.Scanning
import CausalEquations.Proofs.SetCoefficients
import CausalEquations.Proofs.Signatures
import CausalEquations.Proofs.SimplePaths
import CausalEquations.Proofs.Simulation
import CausalEquations.Proofs.Skeleton
import CausalEquations.Proofs.Solution
import CausalEquations.Proofs.StackSearch
import CausalEquations.Proofs.StatementOrder
import CausalEquations.Proofs.Statements
import CausalEquations.Proofs.SubstitutedNumerals
import CausalEquations.Proofs.Substitution
import CausalEquations.Proofs.Tables
import CausalEquations.Proofs.TokenSlices
import CausalEquations.Proofs.TreeSubstitution
import CausalEquations.Proofs.TricubeWeights
import CausalEquations.Proofs.WorstMarks
import CausalEquations.Proofs.WrittenForms
import CausalEquations.Proofs.WrittenNumbers
import CausalEquations.Proofs.WrittenTrees
import CausalEquations.Propagation
import CausalEquations.Sampling
import CausalEquations.Statistics.Correlation
import CausalEquations.Statistics.Insertion
import CausalEquations.Statistics.LeastSquares
import CausalEquations.Statistics.LinearSystem
import CausalEquations.Statistics.Loess
import CausalEquations.Statistics.Residual
import CausalEquations.Statistics.Student
import CausalEquations.Table
import CausalEquations.Text.Blank
import CausalEquations.Text.Digit
import CausalEquations.Text.Escaped
import CausalEquations.Text.Letter
import CausalEquations.Text.Printable
import CausalEquations.Text.Quoted
import CausalEquations.Text.Ranges
import CausalEquations.Text.Word
import CausalEquations.Vocabulary
