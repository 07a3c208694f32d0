import LeastSquares.Differences
import LeastSquares.Parameter.Store
import LeastSquares.Residual
import LeastSquares.Search.Journal
import LeastSquares.StepLimits

/-!
Evaluating residuals and Jacobians for a search. Before every call the tied parameters are
recomputed; after it the residuals are damped and checked. So the search itself deals with the free
parameters alone.
-/

namespace LeastSquares

/-- What a search works with: `n` parameters, of which `k` are free, and `m` residuals. -/
structure Setting (α : Type) (n m k : Nat) where
  eval : Vector α n → Except (FitError α) (Vector α m)
  jacobian : Vector α n → Except (FitError α) (Mat α m n)
  applyTies : Vector α n → Vector α n
  free : Vector (Fin n) k
  limits : StepLimits α k
  rules : Vector (DifferenceRule α) k
  options : Options α
  mode : JacobianMode

namespace Setting

variable {α : Type} [Scalar α] {n m k : Nat}

def ofStore (store : Store α) (function : ResidualFunction α) (options : Options α)
    (mode : JacobianMode) : Setting α store.size function.count store.free.size where
  eval x := function.eval x
  jacobian x := function.jacobian x
  applyTies := store.applyTies
  free := ⟨store.free, rfl⟩
  limits :=
    { lower := Vector.ofFn fun c => (store.get store.free[c]).bounds.finiteLower
      upper := Vector.ofFn fun c => (store.get store.free[c]).bounds.finiteUpper
      maxStep := Vector.ofFn fun c => (store.get store.free[c]).maxStep.filter Scalar.isFinite }
  rules := Vector.ofFn fun c => (store.get store.free[c]).differenceRule
  options := options
  mode := mode

variable (s : Setting α n m k)

def freePart (x : Vector α n) : Vector α k := s.free.map (x[·])

def withFree (x : Vector α n) (values : Vector α k) : Vector α n := overwrite x s.free values

def dampen (r : α) : α := if 0 < s.options.damp then Scalar.tanh (r / s.options.damp) else r

def residualsAt (purpose : Purpose) (x : Vector α n) : Run α n (Vector α m) := do
  let p := s.applyTies x
  Run.record (.residuals purpose p)
  let r ← Run.ofExcept (s.eval p)
  Run.countEvaluation
  let r := r.map s.dampen
  Run.require (!s.options.finiteCheck || r.all Scalar.isFinite) .nonFiniteResiduals
  return r

def analyticJacobian (x : Vector α n) : Run α n (Mat α m k) := do
  let p := s.applyTies x
  Run.record (.jacobian p)
  let full ← Run.ofExcept (s.jacobian p)
  return Mat.ofFn fun i c => full[i][s.free[c]]

def jacobianAt (x : Vector α n) (fx : Vector α m) : Run α n (Mat α m k) := do
  Run.countJacobian
  let jacobian ←
    match s.mode with
    | .analytic => s.analyticJacobian x
    | .finiteDifference =>
      differenceJacobian (s.residualsAt .probe) x fx s.free s.rules s.options.differenceScale
  Run.require (jacobian.entries.all Scalar.isFinite) .nonFiniteJacobian
  return jacobian

end Setting

end LeastSquares
