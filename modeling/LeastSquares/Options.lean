import LeastSquares.Error
import LeastSquares.Linear.Norm

/-!
What a user may choose about a search: its tolerances, its limits, and how residuals, steps and
derivatives are measured.
-/

namespace LeastSquares

inductive JacobianChoice where
  /-- The analytic one if there is one, and differences otherwise. -/
  | auto
  | finiteDifference
  | analytical
  deriving DecidableEq, Repr

inductive JacobianMode where
  | analytic
  | finiteDifference
  deriving DecidableEq, Repr

def JacobianChoice.mode? {α : Type} (choice : JacobianChoice) (hasAnalytic : Bool) :
    Except (FitError α) JacobianMode :=
  match choice, hasAnalytic with
  | .auto, true | .analytical, true => .ok .analytic
  | .auto, false | .finiteDifference, _ => .ok .finiteDifference
  | .analytical, false => .error (.conflict .analyticJacobianMissing)

structure Options (α : Type) where
  /-- The relative reduction of the sum of squares that counts as none. -/
  ftol : α
  /-- The relative change of the parameters that counts as none. -/
  xtol : α
  /-- The cosine between residuals and a Jacobian column that counts as orthogonal. -/
  gtol : α
  /-- A residual `r` is replaced by `tanh (r / damp)` when this is positive. -/
  damp : α
  /-- The radius of the first trust region, in units of the scaled start. -/
  factor : α
  maxIterations : Nat
  maxEvaluations : Option Nat
  /-- The relative error of the residuals; that of the arithmetic when absent. -/
  relativeError : Option α
  /-- The diagonal entries of `R` that count as zero, relative to the first. -/
  rankTolerance : α
  /-- The scale of each parameter; taken from the Jacobian when absent. -/
  scale : Option (List α)
  finiteCheck : Bool
  norm : NormMethod
  jacobian : JacobianChoice

namespace Options

variable {α : Type} [Scalar α]

def default : Options α where
  ftol := 1e-10
  xtol := 1e-10
  gtol := 1e-10
  damp := 0
  factor := 100.0
  maxIterations := 200
  maxEvaluations := none
  relativeError := none
  rankTolerance := 1e-14
  scale := none
  finiteCheck := true
  norm := .careful
  jacobian := .auto

def isTolerance (x : α) : Bool := Scalar.isFinite x && !(x < 0)

def isPositive (x : α) : Bool := Scalar.isFinite x && !(x ≤ 0)

def require (ok : Bool) (cause : InvalidOption α) : Except (InvalidOption α) Unit :=
  if ok then .ok () else .error cause

def checkTolerance (name : String) (x : α) : Except (InvalidOption α) Unit :=
  require (isTolerance x) (.tolerance name x)

variable (o : Options α)

/-- Checks that every option is in range, and reports the first that is not. -/
def check : Except (InvalidOption α) Unit := do
  checkTolerance "ftol" o.ftol
  checkTolerance "xtol" o.xtol
  checkTolerance "gtol" o.gtol
  checkTolerance "damp" o.damp
  checkTolerance "covtol" o.rankTolerance
  require (isPositive o.factor) (.factor o.factor)
  o.relativeError.toList.forM fun e => require (isPositive e) (.relativeError e)
  require (o.maxEvaluations != some 0) .noEvaluations
  (o.scale.getD []).forM fun d => require (isPositive d) (.scaleEntry d)

def validate : Except (FitError α) Unit := o.check.mapError .invalidOption

/-- The relative length of difference steps: the root of the relative error of the residuals, which
is at least that of the arithmetic. -/
def differenceScale : α :=
  Scalar.sqrt (Scalar.max (o.relativeError.getD Scalar.epsilon) Scalar.epsilon)

end Options

end LeastSquares
