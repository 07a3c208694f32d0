import LeastSquares.Proofs.NormalEquations
import Mathlib.Algebra.Order.Star.Real
import Mathlib.LinearAlgebra.Matrix.PosDef
import Mathlib.Topology.Instances.Matrix
import Mathlib.Topology.Order.IntermediateValue

/-!
The length of a damped step, as the damping grows. The step solves a system whose matrix is the form
of the model and `c` times the form that measures lengths; it gets strictly shorter with `c`, and
comes down to zero. So there is one damping for each radius that the step without damping exceeds.
The reciprocal of the length is concave in `c`, which is why Newton's rule for it, started where the
step is too long, does not go past that damping.
-/

namespace LeastSquares

open Matrix

variable {n : ℕ}

/-! ### Two quadratic forms -/

section Forms

variable {ι : Type} [Fintype ι] {G W : Matrix ι ι ℝ} {p q α β : ℝ} {b u v g s z : ι → ℝ}

theorem dotProduct_mulVec_swap (hG : G.PosSemidef) (x y : ι → ℝ) :
    x ⬝ᵥ G *ᵥ y = y ⬝ᵥ G *ᵥ x := by
  have hsymmetric : Gᵀ = G := by
    rw [← conjTranspose_eq_transpose_of_trivial]
    exact hG.isHermitian
  rw [dotProduct_mulVec, ← mulVec_transpose, hsymmetric, dotProduct_comm]

theorem dotProduct_mulVec_self_nonneg (hG : G.PosSemidef) (x : ι → ℝ) : 0 ≤ x ⬝ᵥ G *ᵥ x :=
  hG.dotProduct_mulVec_nonneg x

theorem add_smul_mulVec (G W : Matrix ι ι ℝ) (p q : ℝ) (x : ι → ℝ) :
    (G + q • W) *ᵥ x = (G + p • W) *ᵥ x + (q - p) • W *ᵥ x := by
  rw [add_mulVec, add_mulVec, smul_mulVec, smul_mulVec, sub_smul]
  abel

theorem mulVec_sub_of_normal (hu : (G + p • W) *ᵥ u = b) (hv : (G + q • W) *ᵥ v = b) :
    (G + p • W) *ᵥ (u - v) = (q - p) • W *ᵥ v := by
  rw [mulVec_sub, hu, ← hv, add_smul_mulVec G W p, add_sub_cancel_left]

noncomputable def solutionLength [DecidableEq ι] (G W : Matrix ι ι ℝ) (b : ι → ℝ) (c : ℝ) : ℝ :=
  √(((G + c • W)⁻¹ *ᵥ b) ⬝ᵥ W *ᵥ ((G + c • W)⁻¹ *ᵥ b))

theorem continuousOn_solutionLength [DecidableEq ι] {S : Set ℝ}
    (h : ∀ c ∈ S, IsUnit (G + c • W)) (b : ι → ℝ) : ContinuousOn (solutionLength G W b) S := by
  intro c hc
  have hsum : Continuous fun c : ℝ => G + c • W :=
    continuous_const.add (continuous_id.smul continuous_const)
  have hdet : ContinuousAt Ring.inverse (G + c • W).det := by
    rw [Ring.inverse_eq_inv']
    exact continuousAt_inv₀ ((isUnit_iff_isUnit_det _).1 (h c hc)).ne_zero
  have hinv : ContinuousAt (fun c => (G + c • W)⁻¹) c :=
    ContinuousAt.comp (f := fun c : ℝ => G + c • W) (continuousAt_matrix_inv _ hdet)
      hsum.continuousAt
  have hsolution : Continuous fun M : Matrix ι ι ℝ => M *ᵥ b :=
    continuous_id.matrix_mulVec continuous_const
  have hlength : Continuous fun x : ι → ℝ => √(x ⬝ᵥ W *ᵥ x) :=
    (continuous_id.dotProduct (continuous_const.matrix_mulVec continuous_id)).sqrt
  exact ((hlength.comp hsolution).continuousAt.comp hinv).continuousWithinAt

omit [Fintype ι] in
theorem posSemidef_add_smul (hG : G.PosSemidef) (hW : W.PosDef) (hp : 0 ≤ p) :
    (G + p • W).PosSemidef :=
  hG.add (hW.posSemidef.smul hp)

theorem dotProduct_mulVec_le (hW : W.PosSemidef) (hα : 0 < α) (hβ : 0 < β)
    (hlength : v ⬝ᵥ W *ᵥ v = α ^ 2) (hlength' : u ⬝ᵥ W *ᵥ u = β ^ 2) : v ⬝ᵥ W *ᵥ u ≤ α * β := by
  have hsquare := dotProduct_mulVec_self_nonneg hW (β • v - α • u)
  rw [mulVec_sub, dotProduct_sub, sub_dotProduct, sub_dotProduct, mulVec_smul, mulVec_smul,
    smul_dotProduct, smul_dotProduct, smul_dotProduct, smul_dotProduct, dotProduct_smul,
    dotProduct_smul, dotProduct_smul, dotProduct_smul, dotProduct_mulVec_swap hW u v,
    hlength, hlength'] at hsquare
  simp only [smul_eq_mul] at hsquare
  have hfactor : 0 ≤ 2 * (α * β) * (α * β - v ⬝ᵥ W *ᵥ u) := by linarith
  exact sub_nonneg.1 (nonneg_of_mul_nonneg_right hfactor (by positivity))

variable (hG : G.PosSemidef) (hW : W.PosDef) (hp : 0 ≤ p)

include hG hW hp

/-- With more of the second form the solution is shorter, as that form measures it. -/
theorem dotProduct_lt_of_lt (hpq : p < q) (hu : (G + p • W) *ᵥ u = b)
    (hv : (G + q • W) *ᵥ v = b) (hne : v ≠ 0) : v ⬝ᵥ W *ᵥ v < u ⬝ᵥ W *ᵥ u := by
  have hsub := mulVec_sub_of_normal hu hv
  have hcross : 0 ≤ (u - v) ⬝ᵥ W *ᵥ v := by
    have hform := dotProduct_mulVec_self_nonneg (posSemidef_add_smul hG hW hp) (u - v)
    rw [hsub, dotProduct_smul, smul_eq_mul] at hform
    exact nonneg_of_mul_nonneg_right hform (sub_pos.2 hpq)
  have hdifferent : u - v ≠ 0 := by
    intro hzero
    rw [hzero, mulVec_zero] at hsub
    have hvanish : v ⬝ᵥ W *ᵥ v = 0 := by
      rw [(smul_eq_zero.1 hsub.symm).resolve_left (sub_pos.2 hpq).ne', dotProduct_zero]
    exact (hW.dotProduct_mulVec_pos hne).ne' hvanish
  have hpos : 0 < (u - v) ⬝ᵥ W *ᵥ (u - v) := hW.dotProduct_mulVec_pos hdifferent
  have hsum : u ⬝ᵥ W *ᵥ u =
      v ⬝ᵥ W *ᵥ v + 2 * ((u - v) ⬝ᵥ W *ᵥ v) + (u - v) ⬝ᵥ W *ᵥ (u - v) := by
    rw [mulVec_sub, dotProduct_sub, sub_dotProduct, sub_dotProduct,
      dotProduct_mulVec_swap hW.posSemidef v u]
    ring
  linarith

/-- Whatever solves the system of the smaller form for a vector of the second has a nonnegative
product with that vector in each larger form. -/
theorem dotProduct_nonneg_of_le (hpq : p ≤ q) (hs : (G + p • W) *ᵥ s = W *ᵥ z) :
    0 ≤ z ⬝ᵥ (G + q • W) *ᵥ s := by
  have hcross : z ⬝ᵥ W *ᵥ s = s ⬝ᵥ (G + p • W) *ᵥ s := by
    rw [dotProduct_mulVec_swap hW.posSemidef, hs]
  rw [add_smul_mulVec G W p, hs, dotProduct_add, dotProduct_smul, hcross, smul_eq_mul]
  have hz := dotProduct_mulVec_self_nonneg hW.posSemidef z
  have hform := dotProduct_mulVec_self_nonneg (posSemidef_add_smul hG hW hp) s
  have hmore := mul_nonneg (sub_nonneg.2 hpq) hform
  linarith

/-- The reciprocal of the length of the solution is concave in the weight of the second form, so that
its tangent at `p` lies above it: `g` is what the derivative of the solution is made of. -/
theorem length_tangent (hpq : p < q) (hu : (G + p • W) *ᵥ u = b) (hv : (G + q • W) *ᵥ v = b)
    (hg : (G + p • W) *ᵥ g = W *ᵥ u) (hα : 0 < α) (hβ : 0 < β) (hlength : v ⬝ᵥ W *ᵥ v = α ^ 2)
    (hlength' : u ⬝ᵥ W *ᵥ u = β ^ 2) : β ^ 3 ≤ α * (β ^ 2 + (q - p) * (u ⬝ᵥ W *ᵥ g)) := by
  have hgap : q - p ≠ 0 := (sub_pos.2 hpq).ne'
  have hq := posSemidef_add_smul hG hW (hp.trans hpq.le)
  set h := (q - p)⁻¹ • (u - v)
  have hsmaller : (G + p • W) *ᵥ h = W *ᵥ v := by
    rw [mulVec_smul, mulVec_sub_of_normal hu hv, smul_smul, inv_mul_cancel₀ hgap, one_smul]
  have hlarger : (G + q • W) *ᵥ h = W *ᵥ u := by
    have hswapped := mulVec_sub_of_normal hv hu
    rw [mulVec_smul, ← neg_sub v u, mulVec_neg, hswapped, ← neg_sub q p, neg_smul, neg_neg, smul_smul,
      inv_mul_cancel₀ hgap, one_smul]
  have hcombined : (G + p • W) *ᵥ (α • g - β • h) = W *ᵥ (α • u - β • v) := by
    rw [mulVec_sub, mulVec_smul, mulVec_smul, hg, hsmaller, mulVec_sub, mulVec_smul, mulVec_smul]
  have hproduct := dotProduct_nonneg_of_le hG hW hp hpq.le hcombined
  have hug : u ⬝ᵥ (G + q • W) *ᵥ g = β ^ 2 + (q - p) * (u ⬝ᵥ W *ᵥ g) := by
    rw [add_smul_mulVec G W p, hg, dotProduct_add, dotProduct_smul, hlength', smul_eq_mul]
  have hvg : v ⬝ᵥ (G + q • W) *ᵥ g = β ^ 2 := by
    rw [dotProduct_mulVec_swap hq, hv, ← hu,
      dotProduct_mulVec_swap (posSemidef_add_smul hG hW hp), hg, hlength']
  have hvu := dotProduct_mulVec_le hW.posSemidef hα hβ hlength hlength'
  rw [mulVec_sub, mulVec_smul, mulVec_smul, hlarger, sub_dotProduct, dotProduct_sub, dotProduct_sub,
    smul_dotProduct, smul_dotProduct, smul_dotProduct, smul_dotProduct, dotProduct_smul,
    dotProduct_smul, dotProduct_smul, dotProduct_smul, hug, hvg, hlength'] at hproduct
  simp only [smul_eq_mul] at hproduct
  have hcauchy := mul_le_mul_of_nonneg_left hvu (sq_nonneg β)
  have hfactor : 0 ≤ α * (α * (β ^ 2 + (q - p) * (u ⬝ᵥ W *ᵥ g)) - β ^ 3) := by linarith
  exact sub_nonneg.1 (nonneg_of_mul_nonneg_right hfactor hα)

end Forms

namespace StepModel

/-! ### Normal equations with damping -/

noncomputable def weights (scale : Vector ℝ n) : Matrix (Fin n) (Fin n) ℝ :=
  Matrix.diagonal fun a => scale[a] ^ 2

theorem dampedGram_eq (gram : Matrix (Fin n) (Fin n) ℝ) (scale : Vector ℝ n) (c : ℝ) :
    dampedGram gram scale c = gram + c • weights scale := by
  rw [dampedGram, weights, ← Matrix.diagonal_smul]
  rfl

theorem posDef_weights {scale : Vector ℝ n} (hscale : ∀ a : Fin n, 0 < scale[a]) :
    (weights scale).PosDef :=
  .diagonal fun a => pow_pos (hscale a) 2

theorem weights_mulVec (scale : Vector ℝ n) (x : Fin n → ℝ) (a : Fin n) :
    (weights scale *ᵥ x) a = scale[a] ^ 2 * x a :=
  Matrix.mulVec_diagonal _ _ _

variable {model : StepModel ℝ n} {r : Mat ℝ n n}

theorem dotProduct_weights (model : StepModel ℝ n) (x : Vector ℝ n) :
    coords x ⬝ᵥ weights model.scale *ᵥ coords x = model.scaledNorm x ^ 2 := by
  rw [scaledNorm, norm_toList, euclid_sq, dotProduct]
  refine Finset.sum_congr rfl fun a _ => ?_
  rw [weights_mulVec, getElem_scaleBy, coords_apply]
  ring

namespace Presents

variable {order : Fin n ≃ Fin n} {gram : Matrix (Fin n) (Fin n) ℝ} {moment : Fin n → ℝ}
  (h : model.Presents r order gram moment)

include h

theorem posSemidef_gram : gram.PosSemidef := by
  rw [← posSemidef_submatrix_equiv order, ← h.gram_eq, ← conjTranspose_eq_transpose_of_trivial]
  exact posSemidef_conjTranspose_mul_self _

variable (hscale : ∀ a : Fin n, 0 < model.scale[a])

include hscale

theorem stepAt_normal {c : ℝ} (hc : 0 < c) :
    (gram + c • weights model.scale) *ᵥ coords (model.stepAt r c) = moment := by
  rw [← dampedGram_eq, ← h.solvesNormal_iff]
  exact solvesNormal_stepAt r h.distinct hscale hc

theorem scaledNorm_lt {p q : ℝ} {x y : Vector ℝ n} (hp : 0 ≤ p) (hpq : p < q)
    (hx : (gram + p • weights model.scale) *ᵥ coords x = moment)
    (hy : (gram + q • weights model.scale) *ᵥ coords y = moment) (hmoment : moment ≠ 0) :
    model.scaledNorm y < model.scaledNorm x := by
  have hne : coords y ≠ 0 := by
    intro hzero
    rw [hzero, mulVec_zero] at hy
    exact hmoment hy.symm
  have hlt := dotProduct_lt_of_lt h.posSemidef_gram (posDef_weights hscale) hp hpq hx hy hne
  rw [dotProduct_weights, dotProduct_weights] at hlt
  exact lt_of_pow_lt_pow_left₀ 2 (norm_nonneg _) hlt

/-- The length of a step is at most that of the scaled gradient over the damping. -/
theorem mul_scaledNorm_le {q : ℝ} {y : Vector ℝ n}
    (hy : (gram + q • weights model.scale) *ᵥ coords y = moment) :
    q * model.scaledNorm y ≤ model.gradientNorm r := by
  have hform : q * model.scaledNorm y ^ 2 ≤ coords y ⬝ᵥ moment := by
    have hgram := dotProduct_mulVec_self_nonneg h.posSemidef_gram (coords y)
    rw [← hy, add_mulVec, dotProduct_add, smul_mulVec, dotProduct_smul, dotProduct_weights,
      smul_eq_mul]
    linarith
  have hproduct : coords y ⬝ᵥ moment ≤ model.scaledNorm y * model.gradientNorm r := by
    have hterm : ∀ a, coords y a * moment a =
        (scaleBy model.scale y)[a] * (moment a / model.scale[a]) := by
      intro a
      have ha := (hscale a).ne'
      rw [getElem_scaleBy, coords_apply]
      field_simp
    rw [h.gradientNorm_eq, scaledNorm, norm_toList, dotProduct]
    simp only [hterm]
    exact Real.sum_mul_le_sqrt_mul_sqrt _ _ _
  rcases (norm_nonneg (scaleBy model.scale y).toList).eq_or_lt with hzero | hpos
  · have hnorm : model.scaledNorm y = 0 := hzero.symm
    rw [hnorm, mul_zero]
    exact norm_nonneg _
  · refine le_of_mul_le_mul_left ?_ hpos
    calc model.scaledNorm y * (q * model.scaledNorm y) = q * model.scaledNorm y ^ 2 := by ring
      _ ≤ model.scaledNorm y * model.gradientNorm r := hform.trans hproduct

theorem moment_ne_zero (hx : model.scaledNorm (model.undamped r) ≠ 0) : moment ≠ 0 := by
  intro hmoment
  exact hx ((scaledNorm_eq_zero_iff hscale).2 (h.undamped_eq_zero_of_moment hmoment))

section FullRank

variable (hunit : IsUnit gram)

include hunit

theorem isUnit_add_smul {c : ℝ} (hc : 0 ≤ c) : IsUnit (gram + c • weights model.scale) := by
  rcases hc.eq_or_lt with rfl | hpos
  · rwa [zero_smul, add_zero]
  · exact (PosDef.posSemidef_add h.posSemidef_gram ((posDef_weights hscale).smul hpos)).isUnit

theorem solutionLength_eq {c : ℝ} (hc : 0 ≤ c) {x : Vector ℝ n}
    (hx : (gram + c • weights model.scale) *ᵥ coords x = moment) :
    solutionLength gram (weights model.scale) moment c = model.scaledNorm x := by
  have hdet := (isUnit_iff_isUnit_det _).1 (h.isUnit_add_smul hscale hunit hc)
  have hsame : (gram + c • weights model.scale)⁻¹ *ᵥ moment = coords x := by
    rw [← hx, mulVec_mulVec, nonsing_inv_mul _ hdet, one_mulVec]
  rw [solutionLength, hsame, dotProduct_weights]
  exact Real.sqrt_sq (norm_nonneg _)

/-- A radius that the step without damping exceeds is the length of a damped step. -/
theorem exists_scaledNorm_eq {radius : ℝ} (hradius : 0 < radius)
    (hlong : radius < model.scaledNorm (model.undamped r)) :
    ∃ c > 0, model.scaledNorm (model.stepAt r c) = radius := by
  set bound := model.gradientNorm r / radius
  have hbound : 0 < bound :=
    div_pos ((norm_nonneg _).lt_of_ne' (h.gradientNorm_ne_zero hscale (hradius.trans hlong).ne'))
      hradius
  have hfirst : solutionLength gram (weights model.scale) moment 0 =
      model.scaledNorm (model.undamped r) := by
    apply h.solutionLength_eq hscale hunit le_rfl
    rw [zero_smul, add_zero]
    exact h.undamped_normal
  have hstep : ∀ c > 0, solutionLength gram (weights model.scale) moment c =
      model.scaledNorm (model.stepAt r c) :=
    fun c hc => h.solutionLength_eq hscale hunit hc.le (h.stepAt_normal hscale hc)
  have hlast : solutionLength gram (weights model.scale) moment bound ≤ radius := by
    have hgradient := h.mul_scaledNorm_le hscale (h.stepAt_normal hscale hbound)
    rw [hstep bound hbound]
    refine le_of_mul_le_mul_left (hgradient.trans_eq ?_) hbound
    exact (div_mul_cancel₀ _ hradius.ne').symm
  have hcontinuous := continuousOn_solutionLength (S := Set.Icc 0 bound)
    (fun c hc => h.isUnit_add_smul hscale hunit hc.1) moment
  obtain ⟨c, hc, hroot⟩ := intermediate_value_Icc' hbound.le hcontinuous
    ⟨hlast, hlong.le.trans_eq hfirst.symm⟩
  have hpos : 0 < c := by
    refine hc.1.lt_of_ne ?_
    rintro rfl
    exact hlong.ne' (hfirst.symm.trans hroot)
  exact ⟨c, hpos, (hstep c hpos).symm.trans hroot⟩

end FullRank

theorem strictAntiOn_scaledNorm (hmoment : moment ≠ 0) :
    StrictAntiOn (fun c => model.scaledNorm (model.stepAt r c)) (Set.Ioi 0) := by
  intro p hp q hq hpq
  exact h.scaledNorm_lt hscale (le_of_lt hp) hpq (h.stepAt_normal hscale hp)
    (h.stepAt_normal hscale hq) hmoment

end Presents

end StepModel

end LeastSquares
