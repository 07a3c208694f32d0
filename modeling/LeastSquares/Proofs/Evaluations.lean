import LeastSquares.Proofs.Runs

/-!
Evaluations without their journal. What residuals and Jacobians come to does not depend on what was
recorded before they were asked for, so it can be given as a value: `residualsOf` and `jacobianOf`
are `residualsAt` and `jacobianAt` with the journal left out. `Run.Computes` relates a run to its
value, with one rule for each way to build a run.
-/

namespace LeastSquares

namespace Run

variable {α β γ : Type} {n k : Nat}

/-- Whatever the journal, the run comes to `e`. -/
def Computes (run : Run α n β) (e : Except (FitError α) β) : Prop :=
  ∀ j, (run.resume j).1 = e.mapError .failed

namespace Computes

variable {run : Run α n β} {e : Except (FitError α) β}

theorem pure {b : β} : Computes (pure b : Run α n β) (.ok b) := fun _ => rfl

theorem ofExcept : Computes (Run.ofExcept e : Run α n β) e := fun j => by rw [resume_ofExcept]

theorem checked {ok : Bool} {cause : FitError α} {b : β} :
    Computes (do Run.require ok cause; return b : Run α n β)
      (if ok then .ok b else .error cause) := by
  intro j
  cases ok <;> rfl

theorem record {call : Call α n} : Computes (Run.record call) (.ok ()) := fun _ => rfl

theorem countEvaluation : Computes (Run.countEvaluation : Run α n Unit) (.ok ()) := fun _ => rfl

theorem countJacobian : Computes (Run.countJacobian : Run α n Unit) (.ok ()) := fun _ => rfl

theorem bind {f : β → Run α n γ} {g : β → Except (FitError α) γ} (hrun : Computes run e)
    (hf : ∀ b, Computes (f b) (g b)) : Computes (run >>= f) (e >>= g) := by
  intro j
  have hj := hrun j
  rw [resume_bind]
  generalize run.resume j = outcome at hj
  obtain ⟨result, i⟩ := outcome
  cases e with
  | error cause =>
      cases hj
      rfl
  | ok b =>
      cases hj
      exact hf b i

theorem congruence : IsCongruence (M := Run α n) (N := Except (FitError α)) fun _ => Computes :=
  ⟨fun _ => .pure, fun hrun hf => hrun.bind hf⟩

theorem eq_ok (h : Computes run e) {b : β} {j j' : Journal α n}
    (hrun : run.resume j = (.ok b, j')) : e = .ok b := by
  have hj := h j
  rw [hrun] at hj
  cases e with
  | error cause => cases hj
  | ok b =>
      cases hj
      rfl

end Computes

end Run

namespace Setting

open Run

variable {α : Type} [Scalar α] {n m k : Nat} (s : Setting α n m k)

/-- The residuals at `x`: those of the function where the ties are in place, damped and checked. -/
def residualsOf (x : Vector α n) : Except (FitError α) (Vector α m) := do
  let r := (← s.eval (s.applyTies x)).map s.dampen
  if !s.options.finiteCheck || r.all Scalar.isFinite then .ok r else .error .nonFiniteResiduals

def analyticJacobianOf (x : Vector α n) : Except (FitError α) (Mat α m k) := do
  let full ← s.jacobian (s.applyTies x)
  return Mat.ofFn fun i c => full[i][s.free[c]]

def jacobianOf (x : Vector α n) (fx : Vector α m) : Except (FitError α) (Mat α m k) := do
  let jacobian ←
    match s.mode with
    | .analytic => s.analyticJacobianOf x
    | .finiteDifference =>
      differenceJacobian s.residualsOf x fx s.free s.rules s.options.differenceScale
  if jacobian.entries.all Scalar.isFinite then .ok jacobian else .error .nonFiniteJacobian

variable {s} {x : Vector α n}

theorem residualsAt_computes (purpose : Purpose) :
    Computes (s.residualsAt purpose x) (s.residualsOf x) :=
  Computes.record.bind (g := fun _ => s.residualsOf x) fun _ => Computes.ofExcept.bind fun _ =>
    Computes.countEvaluation.bind (g := fun _ => _) fun _ => .checked

omit [Scalar α] in
theorem analyticJacobian_computes : Computes (s.analyticJacobian x) (s.analyticJacobianOf x) :=
  Computes.record.bind (g := fun _ => s.analyticJacobianOf x) fun _ =>
    Computes.ofExcept.bind fun _ => .pure

theorem jacobianAt_computes (fx : Vector α m) :
    Computes (s.jacobianAt x fx) (s.jacobianOf x fx) := by
  unfold jacobianAt jacobianOf
  refine Computes.countJacobian.bind (g := fun _ => _) fun _ => ?_
  cases s.mode with
  | analytic => exact analyticJacobian_computes.bind fun _ => .checked
  | finiteDifference =>
      exact Computes.bind (Computes.congruence.differenceJacobian fun _ _ =>
        residualsAt_computes .probe) fun _ => .checked

end Setting

end LeastSquares
