import LeastSquares.Decimal.Layout
import LeastSquares.Error

/-!
The wording of errors. Numbers in them are written positionally with their shortest digits.
-/

namespace LeastSquares

def messageText (x : Float) : String := Layout.message.text x

/-- A lower limit in a message; an open side reads as an infinite one. -/
def lowerText (limit : Option Float) : String := limit.elim "-inf" messageText

def upperText (limit : Option Float) : String := limit.elim "inf" messageText

/-- A value that may be absent, with its digits laid out as in structural dumps. -/
def optionText {β : Type} (text : β → String) : Option β → String
  | none => "None"
  | some b => s!"Some({text b})"

def BoundsError.message : BoundsError Float → String
  | .reversed lower upper =>
    s!"Invalid bounds: min ({lowerText lower}) must not exceed max ({upperText upper})"
  | .notANumber => "Bounds may not be NaN"
  | .outside value lower upper =>
    s!"Parameter value {messageText value} is outside bounds: " ++
      s!"[{lowerText lower}, {upperText upper}]"

def ParameterError.message : ParameterError Float → String
  | .bounds cause => "Bounds error: " ++ cause.message
  | .outsideBounds index cause => s!"Parameter {index}: " ++ cause.message
  | .noFiniteValue index value =>
    s!"Parameter {index} has no finite value (got {optionText Layout.structural.text value})"
  | .invalidStep step =>
    s!"Invalid finite-difference step {messageText step} (must be finite and >= 0)"
  | .invalidMaxStep maxStep => s!"Invalid maximum step {messageText maxStep} (must be > 0)"
  | .notFound name => "Parameter '" ++ name ++ "' not found"

def InvalidOption.message : InvalidOption Float → String
  | .tolerance name value => s!"{name} must be finite and non-negative, got {messageText value}"
  | .factor value => s!"factor must be finite and positive, got {messageText value}"
  | .relativeError value => s!"epsfcn must be finite and positive, got {messageText value}"
  | .noEvaluations => "max_evaluations must be at least 1"
  | .scaleEntry value => s!"diag entries must be finite and positive, got {messageText value}"

def Conflict.message : Conflict → String
  | .analyticJacobianMissing =>
    "an analytic Jacobian was requested but the residual function provides none"
  | .dampingNeedsDifferences => "residual damping requires finite-difference derivatives"
  | .nothingToCheck => "check_jacobian needs a residual function with an analytic Jacobian"

def NotProvided.message : NotProvided → String
  | .residualJacobian => "analytic Jacobian is not provided by this residual function"
  | .modelDerivatives => "analytic derivatives are not provided by this model"

def vectorText (xs : List Float) : String := "[" ++ ", ".intercalate (xs.map messageText) ++ "]"

namespace FitError

def message : FitError Float → String
  | parameterIndex index count => s!"Parameter index {index} out of range for {count} parameters"
  | parameter cause => "Parameter error: " ++ cause.message
  | noFreeParameters => "No free parameters: every parameter is fixed or tied"
  | tooFewResiduals residuals free =>
    s!"Not enough residuals: {residuals} residuals for {free} free parameters"
  | missingResidualFunction => "No residual function has been set"
  | invalidOption cause => "Invalid solver option: " ++ cause.message
  | conflict cause => "Incompatible solver options: " ++ cause.message
  | sizes cause => "Dimension mismatch: " ++ cause.message
  | nonFiniteJacobian => "Non-finite entries in the Jacobian"
  | nonFiniteParameters start trial =>
    s!"Non-finite parameter values: trial step from {vectorText start} produced {vectorText trial}"
  | nonFiniteResiduals => "Residual function returned non-finite values"
  | evaluation message => "Function evaluation error: " ++ message
  | notProvided what => "Not implemented: " ++ what.message
  | malformedJson => "JSON error"

end FitError

end LeastSquares
