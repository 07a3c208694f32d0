import LeastSquares.Problem

/-!
Models `y = f(x; p)` that are fitted to samples. The residuals of a model are its weighted
deviations from the observations; if the model has derivatives, so have the residuals.
-/

namespace LeastSquares

structure Model (α : Type) where
  eval : {n m : Nat} → Vector α n → Vector α m → Except (FitError α) (Vector α m)
  hasJacobian : Bool
  jacobian : {n m : Nat} → Vector α n → Vector α m → Except (FitError α) (Mat α m n)

def Model.ofEval {α : Type}
    (eval : {n m : Nat} → Vector α n → Vector α m → Except (FitError α) (Vector α m)) :
    Model α where
  eval := eval
  hasJacobian := false
  jacobian _ _ := .error (.notProvided .modelDerivatives)

/-- Observations `y` at the points `x`, with the inverse of their uncertainties. -/
structure Samples (α : Type) (m : Nat) where
  x : Vector α m
  y : Vector α m
  invSigma : Vector α m

namespace Samples

variable {α : Type} {m : Nat}

def ofArrays? (x y invSigma : Array α) : Except (FitError α) (Samples α x.size) :=
  if h : y.size = x.size ∧ invSigma.size = x.size then
    .ok ⟨⟨x, rfl⟩, ⟨y, h.1⟩, ⟨invSigma, h.2⟩⟩
  else .error (.sizes (.samples x.size y.size invSigma.size))

variable [Sub α] [Mul α] [Neg α]

def deviations (s : Samples α m) (predicted : Vector α m) : Vector α m :=
  Vector.ofFn fun i => (s.y[i] - predicted[i]) * s.invSigma[i]

omit [Neg α] in
@[simp] theorem getElem_deviations (s : Samples α m) (predicted : Vector α m) (i : Fin m) :
    (s.deviations predicted)[i] = (s.y[i] - predicted[i]) * s.invSigma[i] := getElem_ofFn _ i

def deviationJacobian {n : Nat} (s : Samples α m) (jacobian : Mat α m n) : Mat α m n :=
  Mat.ofFn fun i j => -jacobian[i][j] * s.invSigma[i]

omit [Sub α] in
@[simp] theorem getElem_deviationJacobian {n : Nat} (s : Samples α m) (jacobian : Mat α m n)
    (i : Fin m) (j : Fin n) :
    (s.deviationJacobian jacobian)[i][j] = -jacobian[i][j] * s.invSigma[i] := Mat.getElem_ofFn _ i j

def residuals (s : Samples α m) (model : Model α) : ResidualFunction α where
  count := m
  eval p := (model.eval p s.x).map s.deviations
  hasJacobian := model.hasJacobian
  jacobian p := (model.jacobian p s.x).map s.deviationJacobian

end Samples

def Problem.ofModel? {α : Type} [Scalar α] (n : Nat) (model : Model α) (x y invSigma : Array α) :
    Except (FitError α) (Problem α) := do
  let samples ← Samples.ofArrays? x y invSigma
  return { Problem.ofSize n with residuals := some (samples.residuals model) }

end LeastSquares
