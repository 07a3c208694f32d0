/-!
Sizes that do not fit together. Each cause keeps the sizes it compared; `message` is its wording.
-/

namespace LeastSquares

inductive SizeMismatch where
  /-- A matrix to be factored has more columns than rows. -/
  | wideMatrix (rows columns : Nat)
  | vector (expected actual : Nat)
  | initialValues (expected actual : Nat)
  | parameterValues (expected actual : Nat)
  | scaleEntries (expected actual : Nat)
  /-- Sample points, observations and inverse uncertainties differ in number. -/
  | samples (x y invSigma : Nat)
  | coefficients (degree actual : Nat)
  | peakParameters (expected actual : Nat)
  /-- A peak cannot be guessed from no samples or from unpaired ones. -/
  | guess (x y : Nat)
  deriving DecidableEq, Repr

namespace SizeMismatch

def message : SizeMismatch → String
  | wideMatrix rows columns =>
    s!"QR factorization needs at least as many rows as columns, got {rows}x{columns}"
  | vector expected actual => s!"Expected a vector of length {expected}, got {actual}"
  | initialValues expected actual => s!"Expected {expected} initial values, got {actual}"
  | parameterValues expected actual => s!"Expected {expected} parameter values, got {actual}"
  | scaleEntries expected actual => s!"Expected {expected} diag entries, got {actual}"
  | samples x y invSigma =>
    s!"x, y and inv_sigma must have equal lengths, got {x}, {y} and {invSigma}"
  | coefficients degree actual =>
    s!"A degree {degree} polynomial has {degree + 1} coefficients, got {actual}"
  | peakParameters expected actual =>
    s!"Gaussian model expects {expected} parameters, got {actual}"
  | guess x y => s!"guess needs equal, non-empty x and y, got {x} and {y}"

end SizeMismatch

end LeastSquares
