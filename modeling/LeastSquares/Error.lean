import LeastSquares.Parameter.Basic
import LeastSquares.SizeMismatch

/-!
Why a fit fails. Errors of configuration are found before the first evaluation; numerical errors
stop a search under way. Running out of iterations is no error but one of the ways to stop.
-/

namespace LeastSquares

inductive InvalidOption (α : Type) where
  /-- A tolerance, named, that is not finite and non-negative. -/
  | tolerance (name : String) (value : α)
  | factor (value : α)
  | relativeError (value : α)
  | noEvaluations
  | scaleEntry (value : α)
  deriving Repr

inductive Conflict where
  | analyticJacobianMissing
  /-- Damped residuals have no analytic Jacobian. -/
  | dampingNeedsDifferences
  | nothingToCheck
  deriving DecidableEq, Repr

inductive NotProvided where
  | residualJacobian
  | modelDerivatives
  deriving DecidableEq, Repr

inductive FitError (α : Type) where
  | parameterIndex (index count : Nat)
  | parameter (cause : ParameterError α)
  | noFreeParameters
  | tooFewResiduals (residuals free : Nat)
  | missingResidualFunction
  | invalidOption (cause : InvalidOption α)
  | conflict (cause : Conflict)
  | sizes (cause : SizeMismatch)
  | nonFiniteJacobian
  /-- A trial step left the range of the numbers. -/
  | nonFiniteParameters (start trial : List α)
  | nonFiniteResiduals
  | evaluation (message : String)
  | notProvided (what : NotProvided)
  | malformedJson
  deriving Repr

namespace FitError

variable {α : Type}

def isConfiguration : FitError α → Bool
  | parameterIndex .. | parameter _ | noFreeParameters | tooFewResiduals ..
  | missingResidualFunction | invalidOption _ | conflict _ | sizes _ => true
  | _ => false

def isNumerical : FitError α → Bool
  | nonFiniteJacobian | nonFiniteParameters .. | nonFiniteResiduals => true
  | _ => false

end FitError

end LeastSquares
