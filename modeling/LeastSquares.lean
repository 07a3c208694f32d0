import LeastSquares.Covariance
import LeastSquares.DampedStep
import LeastSquares.Decimal.Basic
import LeastSquares.Decimal.Layout
import LeastSquares.Differences
import LeastSquares.Error
import LeastSquares.Json.Basic
import LeastSquares.Json.Number
import LeastSquares.Json.Reader
import LeastSquares.Json.Record
import LeastSquares.Json.Writer
import LeastSquares.Linear.Basic
import LeastSquares.Linear.DampedSolve
import LeastSquares.Linear.Norm
import LeastSquares.Linear.PivotedQR
import LeastSquares.Model.Basic
import LeastSquares.Model.Gaussian
import LeastSquares.Model.Polynomial
import LeastSquares.Options
import LeastSquares.Options.Json
import LeastSquares.Parameter.Basic
import LeastSquares.Parameter.Bounds
import LeastSquares.Parameter.Json
import LeastSquares.Parameter.Store
import LeastSquares.Problem
import LeastSquares.Proofs.AffineFit
import LeastSquares.Proofs.AffineRuns
import LeastSquares.Proofs.Assertions
import LeastSquares.Proofs.CarefulNorm
import LeastSquares.Proofs.Coherence
import LeastSquares.Proofs.ColumnProducts
import LeastSquares.Proofs.Constraints
import LeastSquares.Proofs.Conversions
import LeastSquares.Proofs.Correlations
import LeastSquares.Proofs.Counters
import LeastSquares.Proofs.Covariance
import LeastSquares.Proofs.DampedLength
import LeastSquares.Proofs.DampedSolve
import LeastSquares.Proofs.DampedSquares
import LeastSquares.Proofs.DampedStep
import LeastSquares.Proofs.DampingBracket
import LeastSquares.Proofs.DataOrder
import LeastSquares.Proofs.Derivatives
import LeastSquares.Proofs.Descent
import LeastSquares.Proofs.DifferenceQuotients
import LeastSquares.Proofs.Differences
import LeastSquares.Proofs.Divisors
import LeastSquares.Proofs.DoubleQuotients
import LeastSquares.Proofs.DoubleSigns
import LeastSquares.Proofs.Doubles
import LeastSquares.Proofs.Elimination
import LeastSquares.Proofs.Evaluations
import LeastSquares.Proofs.ExactModel
import LeastSquares.Proofs.ExactRuns
import LeastSquares.Proofs.ExtendedReals
import LeastSquares.Proofs.Factorization
import LeastSquares.Proofs.Failures
import LeastSquares.Proofs.FiniteNorms
import LeastSquares.Proofs.FitDivisors
import LeastSquares.Proofs.GaussianDerivatives
import LeastSquares.Proofs.GaussianGuess
import LeastSquares.Proofs.GaussianStart
import LeastSquares.Proofs.Gradient
import LeastSquares.Proofs.Guarded
import LeastSquares.Proofs.GuardedSearch
import LeastSquares.Proofs.HeldParameters
import LeastSquares.Proofs.JsonText
import LeastSquares.Proofs.JsonValues
import LeastSquares.Proofs.Loops
import LeastSquares.Proofs.ModelUnits
import LeastSquares.Proofs.NormRanges
import LeastSquares.Proofs.NormalEquations
import LeastSquares.Proofs.Optimality
import LeastSquares.Proofs.OrthogonalFactor
import LeastSquares.Proofs.ParameterUnits
import LeastSquares.Proofs.PolynomialResiduals
import LeastSquares.Proofs.Predictions
import LeastSquares.Proofs.ProportionalRows
import LeastSquares.Proofs.Reals
import LeastSquares.Proofs.Rejections
import LeastSquares.Proofs.ResidualUnits
import LeastSquares.Proofs.RunUnits
import LeastSquares.Proofs.Runs
import LeastSquares.Proofs.SavedOptions
import LeastSquares.Proofs.SavedStores
import LeastSquares.Proofs.Selection
import LeastSquares.Proofs.Sharing
import LeastSquares.Proofs.ShortSteps
import LeastSquares.Proofs.SingularSolve
import LeastSquares.Proofs.StepCaps
import LeastSquares.Proofs.StepContract
import LeastSquares.Proofs.StepDivisors
import LeastSquares.Proofs.StepParts
import LeastSquares.Proofs.StepUnits
import LeastSquares.Proofs.StoreCalls
import LeastSquares.Proofs.TiedStarts
import LeastSquares.Proofs.TransformedResiduals
import LeastSquares.Proofs.TrialBounds
import LeastSquares.Proofs.TrialDivisors
import LeastSquares.Proofs.TrialStep
import LeastSquares.Proofs.Trials
import LeastSquares.Proofs.Uncertainty
import LeastSquares.Report.Log
import LeastSquares.Report.Message
import LeastSquares.Report.Solution
import LeastSquares.Report.Structure
import LeastSquares.Residual
import LeastSquares.Scalar
import LeastSquares.Search.Evaluation
import LeastSquares.Search.Journal
import LeastSquares.Search.Linearization
import LeastSquares.Search.Minimize
import LeastSquares.Search.Trial
import LeastSquares.SizeMismatch
import LeastSquares.Solution
import LeastSquares.StepLimits
import LeastSquares.Termination
import LeastSquares.Termination.Json
import LeastSquares.Text.Quoted
import LeastSquares.Text.Visible
import LeastSquares.TrustRegion
