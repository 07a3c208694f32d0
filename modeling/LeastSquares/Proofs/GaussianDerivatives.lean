import LeastSquares.Model.Gaussian
import LeastSquares.Proofs.Reals
import Mathlib

/-!
The derivatives of a Gaussian peak, with the real exponential. A parameter reaches the value through
the distance from the center in units of sigma, or is a factor or a term of it; one rule for the
height serves both parameters of the first kind. The weights of the samples pass through, with the
sign of the deviations.
-/

namespace LeastSquares

namespace Gaussian

variable {m : ℕ} (g : Gaussian)

/-! ### Parameters and shapes -/

namespace Shape

variable {α : Type}

/-- The parameters in order; what follows the third is the baseline. -/
def get (s : Shape α) : ℕ → α
  | 0 => s.amplitude
  | 1 => s.center
  | 2 => s.sigma
  | _ => s.baseline

def set (s : Shape α) (j : ℕ) (v : α) : Shape α :=
  match j with
  | 0 => { s with amplitude := v }
  | 1 => { s with center := v }
  | 2 => { s with sigma := v }
  | _ => { s with baseline := v }

end Shape

theorem three_le_parameterCount : 3 ≤ g.parameterCount := by
  unfold parameterCount
  split <;> decide

theorem lt_parameterCount_of_hasBaseline (h : g.hasBaseline = true) : 3 < g.parameterCount := by
  rw [parameterCount, if_pos h]
  decide

theorem hasBaseline_of_lt_parameterCount {g : Gaussian} {j : ℕ} (h : j + 3 < g.parameterCount) :
    g.hasBaseline = true ∧ j = 0 := by
  unfold parameterCount at h
  split at h
  · next hbaseline => exact ⟨hbaseline, by omega⟩
  · omega

def place (j : Fin 3) : Fin g.parameterCount := j.castLE g.three_le_parameterCount

def shapeOf (p : Vector ℝ g.parameterCount) : Shape ℝ where
  amplitude := p[g.place 0]
  center := p[g.place 1]
  sigma := p[g.place 2]
  baseline :=
    if h : g.hasBaseline = true then p[Fin.mk 3 (g.lt_parameterCount_of_hasBaseline h)] else 0

variable {g}

theorem shape?_eq (p : Vector ℝ g.parameterCount) : g.shape? p = .ok (g.shapeOf p) := by
  rcases g with ⟨_ | _⟩
  · rw [shape?, toList_eq_map]
    rfl
  · rw [shape?, toList_eq_map]
    rfl

theorem get_shapeOf (p : Vector ℝ g.parameterCount) (j : Fin g.parameterCount) :
    (g.shapeOf p).get j = p[j] := by
  match j with
  | ⟨0, _⟩ | ⟨1, _⟩ | ⟨2, _⟩ => rfl
  | ⟨j + 3, hj⟩ =>
      obtain ⟨hbaseline, rfl⟩ := hasBaseline_of_lt_parameterCount hj
      exact dif_pos hbaseline

/-- To replace a component is to replace the parameter of the shape. -/
theorem shapeOf_put (p : Vector ℝ g.parameterCount) (j : Fin g.parameterCount) (v : ℝ) :
    g.shapeOf (put p j v) = (g.shapeOf p).set j v := by
  match j with
  | ⟨0, _⟩ | ⟨1, _⟩ | ⟨2, _⟩ => simp [shapeOf, Shape.set, getElem_put, place, Fin.ext_iff]
  | ⟨j + 3, hj⟩ =>
      obtain ⟨hbaseline, rfl⟩ := hasBaseline_of_lt_parameterCount hj
      simp [shapeOf, Shape.set, getElem_put, place, Fin.ext_iff, hbaseline]

/-! ### Derivatives of the value -/

namespace Shape

variable {s : Shape ℝ} {x : ℝ}

theorem height_eq (s : Shape ℝ) (x : ℝ) :
    s.height x = Real.exp (-0.5 * s.offset x * s.offset x) := rfl

theorem value_eq (s : Shape ℝ) (x : ℝ) :
    s.value x = s.amplitude * Real.exp (-(x - s.center) ^ 2 / (2 * s.sigma ^ 2)) + s.baseline := by
  have hexponent : -0.5 * s.offset x * s.offset x = -(x - s.center) ^ 2 / (2 * s.sigma ^ 2) := by
    rw [offset]
    ring
  rw [value, height_eq, hexponent]

theorem hasDerivAt_height {z : ℝ → ℝ} {z' t : ℝ} (hz : HasDerivAt z z' t) :
    HasDerivAt (fun t => Real.exp (-0.5 * z t * z t))
      (-(Real.exp (-0.5 * z t * z t) * z t * z')) t := by
  have hexponent : HasDerivAt (fun t => -0.5 * z t * z t) (-(z t * z')) t :=
    ((hz.const_mul (-0.5)).mul hz).congr_deriv (by ring)
  exact hexponent.exp.congr_deriv (by ring)

theorem hasDerivAt_value (hsigma : s.sigma ≠ 0) (x : ℝ) (j : ℕ) :
    HasDerivAt (fun t => (s.set j t).value x) (s.derivative x j) (s.get j) := by
  match j with
  | 0 =>
      exact (((hasDerivAt_id' s.amplitude).mul_const (s.height x)).add_const s.baseline).congr_deriv
        (one_mul _)
  | 1 =>
      have hoffset : HasDerivAt (fun t => (x - t) / s.sigma) (-1 / s.sigma) s.center :=
        ((hasDerivAt_id' s.center).const_sub x).div_const s.sigma
      refine (((hasDerivAt_height hoffset).const_mul s.amplitude).add_const s.baseline).congr_deriv ?_
      change _ = s.amplitude * s.height x * s.offset x / s.sigma
      rw [height_eq, offset]
      ring
  | 2 =>
      have hoffset : HasDerivAt (fun t => (x - s.center) / t) (-(x - s.center) / s.sigma ^ 2)
          s.sigma :=
        ((hasDerivAt_inv hsigma).const_mul (x - s.center)).congr_deriv (by ring)
      refine (((hasDerivAt_height hoffset).const_mul s.amplitude).add_const s.baseline).congr_deriv ?_
      change _ = s.amplitude * s.height x * s.offset x * s.offset x / s.sigma
      rw [height_eq, offset]
      ring
  | j + 3 => exact (hasDerivAt_id' s.baseline).const_add (s.amplitude * s.height x)

end Shape

/-! ### The Jacobian of the residuals -/

section Residuals

variable (s : Samples ℝ m)

theorem eval_residuals (p : Vector ℝ g.parameterCount) :
    (s.residuals g.model).eval p = .ok (s.deviations (s.x.map (g.shapeOf p).value)) := by
  change Except.map s.deviations (g.shape? p >>= _) = _
  rw [shape?_eq]
  rfl

theorem jacobian_residuals (p : Vector ℝ g.parameterCount) :
    (s.residuals g.model).jacobian p =
      .ok (s.deviationJacobian (.ofFn fun i j => (g.shapeOf p).derivative s.x[i] j)) := by
  change Except.map s.deviationJacobian (g.shape? p >>= _) = _
  rw [shape?_eq]
  rfl

/-- The Jacobian of a peak against samples consists of the partial derivatives of the residuals, that
is of the weighted deviations from the peak, by its parameters. -/
theorem hasDerivAt_residuals (g : Gaussian) (p : Vector ℝ g.parameterCount)
    (hsigma : p[g.place 2] ≠ 0) :
    ∃ (r : Vector ℝ g.parameterCount → Vector ℝ m) (a : Mat ℝ m g.parameterCount),
      (∀ q, (s.residuals g.model).eval q = .ok (r q)) ∧
      (s.residuals g.model).jacobian p = .ok a ∧
      (∀ (q : Vector ℝ g.parameterCount) (i : Fin m), let peak := g.shapeOf q
        (r q)[i] = (s.y[i] - (peak.amplitude *
          Real.exp (-(s.x[i] - peak.center) ^ 2 / (2 * peak.sigma ^ 2)) + peak.baseline)) *
            s.invSigma[i]) ∧
      ∀ (i : Fin m) (j : Fin g.parameterCount),
        HasDerivAt (fun t => (r (put p j t))[i]) a[i][j] p[j] := by
  refine ⟨_, _, eval_residuals s, jacobian_residuals s p, fun q i => ?_, fun i j => ?_⟩
  · rw [Samples.getElem_deviations, getElem_map, Shape.value_eq]
  · have hvalue := Shape.hasDerivAt_value (s := g.shapeOf p) hsigma s.x[i] j
    rw [get_shapeOf] at hvalue
    simp only [Samples.getElem_deviations, getElem_map, shapeOf_put]
    rw [Samples.getElem_deviationJacobian, Mat.getElem_ofFn]
    exact (hvalue.const_sub s.y[i]).mul_const s.invSigma[i]

namespace Offcenter

/-- A sample two sigmas above the center and one below, weighted with either sign. -/
noncomputable def samples : Samples ℝ 2 := ⟨#v[2, 0], #v[5, 1], #v[1, -2]⟩

noncomputable def peak : Vector ℝ 4 := #v[2, 1, 1 / 2, 3]

end Offcenter

/-- On a baseline, with weights of either sign: how the first residual depends on sigma. -/
theorem hasDerivAt_residuals_offcenter :
    Offcenter.peak[(2 : Fin 4)] ≠ 0 ∧ ∃ r : Vector ℝ 4 → Vector ℝ 2,
      (∀ q : Vector ℝ 4, (Offcenter.samples.residuals (model ⟨true⟩)).eval q = .ok (r q)) ∧
      HasDerivAt (fun t => (r (put Offcenter.peak 2 t))[(0 : Fin 2)]) (-(16 * Real.exp (-2)))
        (1 / 2) := by
  have hsigma : Offcenter.peak[(2 : Fin 4)] ≠ 0 := by
    change (1 / 2 : ℝ) ≠ 0
    norm_num
  obtain ⟨r, a, heval, hjacobian, -, hderiv⟩ :=
    hasDerivAt_residuals Offcenter.samples ⟨true⟩ Offcenter.peak hsigma
  have hpeak : shapeOf ⟨true⟩ Offcenter.peak = ⟨2, 1, 1 / 2, 3⟩ := rfl
  have hoffset : Shape.offset ⟨2, 1, 1 / 2, 3⟩ (2 : ℝ) = 2 := by
    norm_num [Shape.offset]
  have hentry : a[(0 : Fin 2)][(2 : Fin 4)] =
      -Shape.derivative ⟨2, 1, 1 / 2, 3⟩ (2 : ℝ) 2 * 1 := by
    have ha := Except.ok.inj (hjacobian.symm.trans (jacobian_residuals Offcenter.samples _))
    rw [ha, hpeak]
    rfl
  refine ⟨hsigma, r, heval, (hderiv 0 (2 : Fin 4)).congr_deriv ?_⟩
  refine hentry.trans ?_
  have hheight : Shape.height ⟨2, 1, 1 / 2, 3⟩ (2 : ℝ) = Real.exp (-2) := by
    rw [Shape.height_eq, hoffset]
    norm_num
  change -(2 * Shape.height ⟨2, 1, 1 / 2, 3⟩ (2 : ℝ) * Shape.offset ⟨2, 1, 1 / 2, 3⟩ 2 *
    Shape.offset ⟨2, 1, 1 / 2, 3⟩ 2 / (1 / 2)) * 1 = _
  rw [hheight, hoffset]
  ring

end Residuals

end Gaussian

end LeastSquares
