import LeastSquares.Options

/-!
When a search stops. It stops as soon as some test fires, and every test that fires at the same time
is recorded in its status.
-/

namespace LeastSquares

inductive Reason where
  | ftolConverged
  | xtolConverged
  | gtolConverged
  | maxIterations
  | maxEvaluations
  /-- No further reduction of the sum of squares is possible. -/
  | ftolTooSmall
  /-- No further improvement of the parameters is possible. -/
  | xtolTooSmall
  /-- The residuals are orthogonal to the Jacobian to the precision of the arithmetic. -/
  | gtolTooSmall
  deriving DecidableEq, Repr

namespace Reason

def all : List Reason :=
  [ftolConverged, xtolConverged, gtolConverged, maxIterations, maxEvaluations, ftolTooSmall,
    xtolTooSmall, gtolTooSmall]

theorem mem_all (r : Reason) : r ∈ all := by cases r <;> simp [all]

def isConverged : Reason → Bool
  | ftolConverged | xtolConverged | gtolConverged => true
  | _ => false

def description : Reason → String
  | ftolConverged => "Converged: small relative reduction in chi-square"
  | xtolConverged => "Converged: small relative change in parameters"
  | gtolConverged => "Converged: residuals orthogonal to the Jacobian"
  | maxIterations => "Terminated: maximum iterations reached"
  | maxEvaluations => "Terminated: maximum function evaluations reached"
  | ftolTooSmall => "Terminated: ftol too small, no further reduction possible"
  | xtolTooSmall => "Terminated: xtol too small, no further improvement possible"
  | gtolTooSmall => "Terminated: gtol too small, gradient is zero to machine precision"

end Reason

@[ext] structure Status where
  contains : Reason → Bool

namespace Status

def empty : Status := ⟨fun _ => false⟩

def insert (s : Status) (r : Reason) : Status := ⟨fun q => q == r || s.contains q⟩

def ofReason (r : Reason) : Status := empty.insert r

def ofTests (tests : List (Reason × Bool)) : Status :=
  ⟨fun q => tests.any fun (r, fired) => q == r && fired⟩

variable (s : Status)

def reasons : List Reason := Reason.all.filter s.contains

@[simp] theorem mem_reasons (r : Reason) : r ∈ s.reasons ↔ s.contains r := by
  simp [reasons, Reason.mem_all]

def isEmpty : Bool := s.reasons.isEmpty

def converged : Bool := s.reasons.any Reason.isConverged

def text : String := "; ".intercalate (s.reasons.map Reason.description)

end Status

/-- What the tests read of a trial step. `norm` is the scaled norm of the parameters, `radius` that
of the trust region after the step, and `cosine` the largest between the residuals and a column of
the Jacobian. -/
structure StepStatistics (α : Type) where
  actual : α
  predicted : α
  ratio : α
  radius : α
  norm : α
  cosine : α

namespace StepStatistics

variable {α : Type} [Scalar α] (s : StepStatistics α)

/-- Whether the reductions, actual and predicted, are at most `tolerance` and agree. -/
def reductionWithin (tolerance : α) : Bool :=
  Scalar.abs s.actual ≤ tolerance && s.predicted ≤ tolerance && 0.5 * s.ratio ≤ 1

/-- Whether the radius is at most the part `tolerance` of the parameters' norm. -/
def changeWithin (tolerance : α) : Bool := s.radius ≤ tolerance * s.norm

end StepStatistics

namespace Options

variable {α : Type} [Scalar α] (o : Options α)

def gradientStatus (cosine : α) : Status := .ofTests [(.gtolConverged, cosine ≤ o.gtol)]

/-- The tests made after a trial step, the `evaluations`-th evaluation. Limits and the precision of
the arithmetic matter only when the step has not converged. -/
def stepStatus (s : StepStatistics α) (iterations evaluations : Nat) : Status :=
  let converged : Status := .ofTests
    [(.ftolConverged, s.reductionWithin o.ftol), (.xtolConverged, s.changeWithin o.xtol)]
  if converged.isEmpty then
    .ofTests
      [(.maxIterations, o.maxIterations ≤ iterations),
        (.maxEvaluations, o.maxEvaluations.any (· ≤ evaluations)),
        (.ftolTooSmall, s.reductionWithin Scalar.epsilon),
        (.xtolTooSmall, s.changeWithin Scalar.epsilon),
        (.gtolTooSmall, s.cosine ≤ Scalar.epsilon)]
  else converged

end Options

end LeastSquares
