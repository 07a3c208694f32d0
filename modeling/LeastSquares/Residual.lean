import LeastSquares.Error
import LeastSquares.Linear.Basic

/-!
Residual functions: what a fit minimizes. A residual function takes the vector of all parameters,
with fixed ones at their values and tied ones recomputed.
-/

namespace LeastSquares

structure ResidualFunction (α : Type) where
  count : Nat
  eval : {n : Nat} → Vector α n → Except (FitError α) (Vector α count)
  hasJacobian : Bool
  /-- The partial derivatives, one row for each residual and one column for each parameter. -/
  jacobian : {n : Nat} → Vector α n → Except (FitError α) (Mat α count n)

def ResidualFunction.ofEval {α : Type} (count : Nat)
    (eval : {n : Nat} → Vector α n → Except (FitError α) (Vector α count)) :
    ResidualFunction α where
  count := count
  eval := eval
  hasJacobian := false
  jacobian _ := .error (.notProvided .residualJacobian)

end LeastSquares
