import LeastSquares.Covariance
import LeastSquares.Error
import LeastSquares.Termination

/-!
The result of a fit of `n` parameters to `m` residuals, and the statistics derived from it.
-/

namespace LeastSquares

structure Solution (α : Type) (n m : Nat) where
  parameters : Vector α n
  /-- Standard errors, zero for parameters that are not free. -/
  errors : Vector α n
  covariance : Mat α n n
  status : Status
  /-- Accepted steps. -/
  iterations : Nat
  /-- Evaluations of the residuals, those for differences included. -/
  evaluations : Nat
  jacobians : Nat
  chiSquare : α
  startChiSquare : α
  residuals : Vector α m
  /-- The last Jacobian, with zero columns for parameters that are not free. -/
  jacobian : Mat α m n
  free : Nat
  /-- Free parameters that were on a limit at the last Jacobian. -/
  pegged : Nat
  names : Vector (Option String) n

namespace Solution

variable {α : Type} [Scalar α] {n m : Nat} (s : Solution α n m)

def converged : Bool := s.status.converged

def degreesOfFreedom : Nat := m - s.free

/-- The sum of squares per degree of freedom; not a number without any. -/
def reducedChiSquare : α :=
  if s.degreesOfFreedom = 0 then 0 / 0 else s.chiSquare / Scalar.ofNat s.degreesOfFreedom

def correlation : Mat α n n := LeastSquares.correlation s.covariance

/-- The covariance if the residuals were not divided by their true uncertainties. -/
def scaledCovariance : Mat α n n := Mat.mapEntries (· * s.reducedChiSquare) s.covariance

def scaledErrors : Vector α n := s.errors.map (· * Scalar.sqrt s.reducedChiSquare)

def lookup? (name : String) : Except (FitError α) (α × α) :=
  match (List.finRange n).find? (fun i => s.names[i] == some name) with
  | some i => .ok (s.parameters[i], s.errors[i])
  | none => .error (.parameter (.notFound name))

end Solution

end LeastSquares
