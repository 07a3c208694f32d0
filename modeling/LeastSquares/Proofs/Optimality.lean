import LeastSquares.Proofs.TrialStep

/-!
What convergence says on a linear problem. The tests for convergence look at slopes and at the last
step, and neither sees the whole box: slopes that count as zero add up over a long way, and a step
that a limit or a small radius has cut short says little about what a longer one would gain. The
bounds here make that precise. Residuals that are affine in the parameters have a sum of squares
that is bounded below, at every other point of the box, by its slopes, and the slopes are what the
gradient test bounds and what the normal equations of the last step express by the step itself. So
the sum of squares is as small as promised among the points within reach of the test that ended the
search, and examples show that beyond reach it need not be.
-/

namespace LeastSquares

open Matrix

variable {n m k : ℕ}

/-! ### Sums of squares -/

section Squares

variable {A M : Matrix (Fin m) (Fin k) ℝ} {f : Fin m → ℝ} {q w δ d : Fin k → ℝ} {c : ℝ}

theorem add_dotProduct_add (u v : Fin m → ℝ) :
    (u + v) ⬝ᵥ (u + v) = u ⬝ᵥ u + 2 * u ⬝ᵥ v + v ⬝ᵥ v := by
  rw [add_dotProduct, dotProduct_add, dotProduct_add, dotProduct_comm v u]
  ring

theorem sub_dotProduct_sub (u v : Fin m → ℝ) :
    (u - v) ⬝ᵥ (u - v) = u ⬝ᵥ u - 2 * u ⬝ᵥ v + v ⬝ᵥ v := by
  rw [sub_dotProduct, dotProduct_sub, dotProduct_sub, dotProduct_comm v u]
  ring

theorem dotProduct_mulVec_eq_sum (f : Fin m → ℝ) (δ : Fin k → ℝ) :
    f ⬝ᵥ (A *ᵥ δ) = ∑ e, (Aᵀ *ᵥ f) e * δ e := by
  rw [dotProduct_mulVec, ← mulVec_transpose]
  rfl

/-- Components of a step that go against their slopes have an image against that of the step, if the
step solves the normal equations. -/
theorem dotProduct_image_dropped_nonpos (hc : 0 ≤ c)
    (hnormal : ∀ e, (Mᵀ *ᵥ (M *ᵥ q)) e + c * d e ^ 2 * q e = -(Mᵀ *ᵥ f) e)
    (hdropped : ∀ e, w e = q e ∨ w e = 0 ∧ 0 ≤ q e * (Mᵀ *ᵥ f) e) :
    (M *ᵥ q) ⬝ᵥ (M *ᵥ (q - w)) ≤ 0 := by
  rw [dotProduct_mulVec_eq_sum]
  apply Finset.sum_nonpos
  intro e _
  rw [Pi.sub_apply]
  rcases hdropped e with hkept | ⟨hzero, hslope⟩
  · rw [hkept, sub_self, mul_zero]
  · have hsquare : 0 ≤ c * (d e * q e) ^ 2 := mul_nonneg hc (sq_nonneg _)
    rw [hzero, sub_zero, eq_sub_of_add_eq (hnormal e)]
    linarith [hslope, hsquare]

/-- Dropping them does not shorten the image of the step. -/
theorem image_le_of_dropped (hc : 0 ≤ c)
    (hnormal : ∀ e, (Mᵀ *ᵥ (M *ᵥ q)) e + c * d e ^ 2 * q e = -(Mᵀ *ᵥ f) e)
    (hdropped : ∀ e, w e = q e ∨ w e = 0 ∧ 0 ≤ q e * (Mᵀ *ᵥ f) e) :
    (M *ᵥ q) ⬝ᵥ (M *ᵥ q) ≤ (M *ᵥ w) ⬝ᵥ (M *ᵥ w) := by
  have hcross := dotProduct_image_dropped_nonpos hc hnormal hdropped
  have hw : M *ᵥ w = M *ᵥ q - M *ᵥ (q - w) := by
    rw [← mulVec_sub, sub_sub_cancel]
  rw [hw, sub_dotProduct_sub]
  linarith [dotProduct_self_nonneg (M *ᵥ (q - w))]

/-- The sum of squares at another point, against that where the step `q` was computed. -/
theorem squares_le_of_normal (hc : 0 ≤ c)
    (hnormal : ∀ e, (Mᵀ *ᵥ (M *ᵥ q)) e + c * d e ^ 2 * q e = -(Mᵀ *ᵥ f) e)
    (hheld : ∀ e, (Mᵀ *ᵥ f) e * δ e ≤ (Aᵀ *ᵥ f) e * δ e)
    (hdropped : ∀ e, w e = q e ∨ w e = 0 ∧ q e * δ e ≤ 0) :
    f ⬝ᵥ f ≤ (f + A *ᵥ δ) ⬝ᵥ (f + A *ᵥ δ) + (M *ᵥ q) ⬝ᵥ (M *ᵥ q) +
      2 * c * ∑ e, d e ^ 2 * w e * δ e - 2 * (M *ᵥ q) ⬝ᵥ ((A - M) *ᵥ δ) := by
  have hslopes : ∑ e, (Mᵀ *ᵥ f) e * δ e ≤ f ⬝ᵥ (A *ᵥ δ) := by
    rw [dotProduct_mulVec_eq_sum]
    exact Finset.sum_le_sum fun e _ => hheld e
  have hstep : ∀ e, (Mᵀ *ᵥ f) e * δ e =
      -((Mᵀ *ᵥ (M *ᵥ q)) e * δ e) - c * (d e ^ 2 * q e * δ e) := by
    intro e
    linear_combination δ e * hnormal e
  have hdamped : ∑ e, d e ^ 2 * q e * δ e ≤ ∑ e, d e ^ 2 * w e * δ e := by
    refine Finset.sum_le_sum fun e _ => ?_
    rcases hdropped e with hkept | ⟨hzero, hsign⟩
    · rw [hkept]
    · rw [hzero, mul_zero, zero_mul, mul_assoc]
      exact mul_nonpos_of_nonneg_of_nonpos (sq_nonneg _) hsign
  have hsum : ∑ e, (Mᵀ *ᵥ f) e * δ e =
      -(M *ᵥ q) ⬝ᵥ (M *ᵥ δ) - c * ∑ e, d e ^ 2 * q e * δ e := by
    rw [neg_dotProduct, dotProduct_mulVec_eq_sum, Finset.sum_congr rfl fun e _ => hstep e,
      Finset.sum_sub_distrib, Finset.sum_neg_distrib, ← Finset.mul_sum]
  have hsquare := dotProduct_self_nonneg (A *ᵥ δ - M *ᵥ q)
  rw [sub_dotProduct_sub, dotProduct_comm (A *ᵥ δ) (M *ᵥ q)] at hsquare
  have hdamping := mul_le_mul_of_nonneg_left hdamped hc
  rw [add_dotProduct_add, sub_mulVec, dotProduct_sub]
  rw [neg_dotProduct] at hsum
  linarith

/-- A step that solves the normal equations without damping goes to a minimum. -/
theorem squares_le_of_undamped (hnormal : ∀ e, (Mᵀ *ᵥ (M *ᵥ q)) e = -(Mᵀ *ᵥ f) e) :
    (f + M *ᵥ q) ⬝ᵥ (f + M *ᵥ q) ≤ (f + M *ᵥ δ) ⬝ᵥ (f + M *ᵥ δ) := by
  have hsplit : f + M *ᵥ δ = (f + M *ᵥ q) + M *ᵥ (δ - q) := by
    rw [mulVec_sub, add_assoc, add_sub_cancel]
  have hcross : (f + M *ᵥ q) ⬝ᵥ (M *ᵥ (δ - q)) = 0 := by
    rw [dotProduct_mulVec_eq_sum]
    refine Finset.sum_eq_zero fun e _ => ?_
    rw [mulVec_add, Pi.add_apply, hnormal, add_neg_cancel, zero_mul]
  rw [hsplit, add_dotProduct_add (f + M *ᵥ q), hcross]
  linarith [dotProduct_self_nonneg (M *ᵥ (δ - q))]

/-- The numbers of a step within reach: `Q` and `S` are the squares of the images of the step, whole
and as it was taken, `T` is the damping of its length and `C` that of its product with the
displacement, and `H` is what is held. -/
theorem le_of_reached {N Q S T C H U Y part : ℝ} (hN : 0 < N) (hQ : 0 ≤ Q) (hQS : Q ≤ S)
    (hT : 0 ≤ T) (hH : 0 ≤ H) (hpart : 1 / 5000 ≤ part)
    (hsmall : part * (S + 2 * T) ≤ 1e-10 * N ^ 2) (hreached : C ≤ 5000 * part * T)
    (hheld : H ≤ 3e-4 * N) (hunseen : -(√Q * H) ≤ U)
    (hgap : N ^ 2 ≤ Y + Q + 2 * C - 2 * U) : N ^ 2 ≤ Y + 1e-6 * N ^ 2 := by
  have hS : S ≤ 5000 * part * S := le_mul_of_one_le_left (hQ.trans hQS) (by linarith)
  have hpartT : 0 ≤ part * T := mul_nonneg (le_trans (by norm_num) hpart) hT
  have himage : S + 2 * C ≤ 5e-7 * N ^ 2 := by linarith
  have hsquare : Q ≤ (7.1e-4 * N) ^ 2 := by
    have hle : Q ≤ 5e-7 * N ^ 2 := by linarith
    refine hle.trans ?_
    rw [mul_pow]
    exact mul_le_mul_of_nonneg_right (by norm_num) (sq_nonneg N)
  have hroot : √Q ≤ 7.1e-4 * N := (Real.sqrt_le_left (by positivity)).2 hsquare
  have hproduct : √Q * H ≤ 7.1e-4 * N * (3e-4 * N) := mul_le_mul hroot hheld hH (by positivity)
  linarith

end Squares

/-! ### Limits and slopes -/

namespace StepLimits

variable {limits : StepLimits ℝ k} {p : Iterate ℝ n m k} {jacobian : Mat ℝ m k} {δ : Fin k → ℝ}

/-- A displacement that takes no parameter out of a limit that it is on. -/
def Allows (limits : StepLimits ℝ k) (x : Vector ℝ k) (δ : Fin k → ℝ) : Prop :=
  ∀ c : Fin k, (limits.atLower c x[c] = true → 0 ≤ δ c) ∧ (limits.atUpper c x[c] = true → δ c ≤ 0)

noncomputable def held (limits : StepLimits ℝ k) (p : Iterate ℝ n m k) (jacobian : Mat ℝ m k) :
    Finset (Fin k) :=
  Finset.univ.filter fun c => limits.pointsOutward p.free jacobian p.residuals c = true

theorem inward_of_held {limits : StepLimits ℝ k} {p : Iterate ℝ n m k} {jacobian : Mat ℝ m k}
    (h : limits.held p jacobian = ∅) (c : Fin k) :
    ¬ limits.pointsOutward p.free jacobian p.residuals c = true :=
  Finset.filter_eq_empty_iff.1 h (Finset.mem_univ c)

theorem getElem_masked_of_inward {limits : StepLimits ℝ k} {p : Iterate ℝ n m k}
    {jacobian : Mat ℝ m k} {c : Fin k}
    (h : ¬ limits.pointsOutward p.free jacobian p.residuals c = true) (l : Fin m) :
    (Linearization.masked limits p jacobian)[l][c] = jacobian[l][c] := by
  rw [getElem_maskJacobian, if_neg h]

theorem getElem_masked_of_pointsOutward {limits : StepLimits ℝ k} {p : Iterate ℝ n m k}
    {jacobian : Mat ℝ m k} {c : Fin k}
    (h : limits.pointsOutward p.free jacobian p.residuals c = true) (l : Fin m) :
    (Linearization.masked limits p jacobian)[l][c] = 0 := by
  rw [getElem_maskJacobian, if_pos h]

theorem masked_of_held_eq_empty {limits : StepLimits ℝ k} {p : Iterate ℝ n m k}
    {jacobian : Mat ℝ m k} (h : limits.held p jacobian = ∅) :
    Linearization.masked limits p jacobian = jacobian :=
  ext_getElem fun l => ext_getElem fun c => getElem_masked_of_inward (inward_of_held h c) l

theorem slope_masked (limits : StepLimits ℝ k) (p : Iterate ℝ n m k) (jacobian : Mat ℝ m k)
    (c : Fin k) :
    ((Linearization.masked limits p jacobian).toMatrixᵀ *ᵥ coords p.residuals) c =
      if limits.pointsOutward p.free jacobian p.residuals c = true then 0
      else dot p.residuals (jacobian.column c) := by
  rw [transpose_mulVec_apply, Linearization.masked, column_maskJacobian]
  split
  · simp
  · exact dot_comm _ _

/-- The slopes of parameters that are held would only add to the sum of squares. -/
theorem slope_masked_mul_le (jacobian : Mat ℝ m k) (h : limits.Allows p.free δ) (c : Fin k) :
    ((Linearization.masked limits p jacobian).toMatrixᵀ *ᵥ coords p.residuals) c * δ c ≤
      (jacobian.toMatrixᵀ *ᵥ coords p.residuals) c * δ c := by
  rw [slope_masked, transpose_mulVec_apply, dot_comm (jacobian.column c) p.residuals]
  split
  · next houtward =>
    rw [zero_mul]
    rcases pointsOutward_iff.1 houtward with ⟨hat, hslope⟩ | ⟨hat, hslope⟩
    · exact mul_nonneg hslope.le ((h c).1 hat)
    · exact mul_nonneg_of_nonpos_of_nonpos hslope.le ((h c).2 hat)
  · exact le_rfl

/-- A component of a step that is dropped leads out of a limit, against the slope there. -/
theorem dropOutward_cases (jacobian : Mat ℝ m k) (h : limits.Allows p.free δ) (q : Vector ℝ k)
    (c : Fin k) :
    limits.dropOutward p.free q c = q[c] ∨ limits.dropOutward p.free q c = 0 ∧ q[c] * δ c ≤ 0 ∧
      0 ≤ q[c] * ((Linearization.masked limits p jacobian).toMatrixᵀ *ᵥ coords p.residuals) c := by
  rw [slope_masked]
  have hslope : ¬ limits.pointsOutward p.free jacobian p.residuals c = true →
      (limits.atLower c p.free[c] = true → dot p.residuals (jacobian.column c) ≤ 0) ∧
      (limits.atUpper c p.free[c] = true → 0 ≤ dot p.residuals (jacobian.column c)) := by
    intro hinward
    rw [pointsOutward_iff, not_or] at hinward
    exact ⟨fun hat => not_lt.1 fun hpos => hinward.1 ⟨hat, hpos⟩,
      fun hat => not_lt.1 fun hneg => hinward.2 ⟨hat, hneg⟩⟩
  unfold dropOutward
  dsimp only
  by_cases hlower : limits.atLower c p.free[c] = true ∧ q[c] < 0
  · rw [if_pos hlower, if_neg fun hand => lt_irrefl _ hand.2]
    refine .inr ⟨rfl, mul_nonpos_of_nonpos_of_nonneg hlower.2.le ((h c).1 hlower.1), ?_⟩
    split
    · rw [mul_zero]
    · next hinward =>
      exact mul_nonneg_of_nonpos_of_nonpos hlower.2.le ((hslope hinward).1 hlower.1)
  · rw [if_neg hlower]
    split
    · next hupper =>
      refine .inr ⟨rfl, mul_nonpos_of_nonneg_of_nonpos hupper.2.le ((h c).2 hupper.1), ?_⟩
      split
      · rw [mul_zero]
      · next hinward => exact mul_nonneg hupper.2.le ((hslope hinward).2 hupper.1)
    · exact .inl rfl

/-- The part of a displacement that the linear model does not see is that of the parameters it
holds. -/
theorem dotProduct_unmasked_ge (limits : StepLimits ℝ k) (p : Iterate ℝ n m k)
    (jacobian : Mat ℝ m k) (u : Fin m → ℝ) (δ : Fin k → ℝ) :
    -(√(u ⬝ᵥ u) * ∑ c ∈ limits.held p jacobian, euclid (jacobian.column c) * |δ c|) ≤
      u ⬝ᵥ ((jacobian.toMatrix - (Linearization.masked limits p jacobian).toMatrix) *ᵥ δ) := by
  set M := (Linearization.masked limits p jacobian).toMatrix with hM
  have hentry : ∀ c, ((jacobian.toMatrix - M)ᵀ *ᵥ u) c =
      if limits.pointsOutward p.free jacobian p.residuals c = true
      then coords (jacobian.column c) ⬝ᵥ u else 0 := by
    intro c
    have hmasked : ∀ i, M i c = if limits.pointsOutward p.free jacobian p.residuals c = true
        then 0 else jacobian[i][c] := by
      intro i
      rw [hM, Mat.toMatrix_apply, getElem_maskJacobian]
    by_cases houtward : limits.pointsOutward p.free jacobian p.residuals c = true
    · simp [mulVec, dotProduct, hmasked, houtward]
    · simp [mulVec, dotProduct, hmasked, houtward]
  have hterm : ∀ c ∈ limits.held p jacobian,
      -(√(u ⬝ᵥ u) * (euclid (jacobian.column c) * |δ c|)) ≤
        ((jacobian.toMatrix - M)ᵀ *ᵥ u) c * δ c := by
    intro c hc
    rw [hentry, if_pos (Finset.mem_filter.1 hc).2]
    have hcauchy := abs_dotProduct_le (coords (jacobian.column c)) u
    rw [← euclid_sq_eq_dotProduct, Real.sqrt_sq (euclid_nonneg _)] at hcauchy
    have habs := mul_le_mul_of_nonneg_right hcauchy (abs_nonneg (δ c))
    rw [← abs_mul] at habs
    linarith [neg_le_of_abs_le habs]
  have hrest : ∀ c ∈ Finset.univ, c ∉ limits.held p jacobian →
      ((jacobian.toMatrix - M)ᵀ *ᵥ u) c * δ c = 0 := by
    intro c hc hnot
    rw [hentry, if_neg fun houtward => hnot (Finset.mem_filter.2 ⟨hc, houtward⟩), zero_mul]
  rw [dotProduct_mulVec_eq_sum, ← Finset.sum_subset (Finset.subset_univ _) hrest, Finset.mul_sum,
    ← Finset.sum_neg_distrib]
  exact Finset.sum_le_sum hterm

/-- A stationary parameter has hardly any slope in a direction that its limits allow. -/
theorem IsStationaryAt.slope_ge {tolerance : ℝ} {c : Fin k} (htolerance : 0 ≤ tolerance)
    (hc : limits.IsStationaryAt p jacobian tolerance c) (h : limits.Allows p.free δ) :
    -(tolerance * euclid (jacobian.column c) * euclid p.residuals * |δ c|) ≤
      (jacobian.toMatrixᵀ *ᵥ coords p.residuals) c * δ c := by
  have hnonneg : 0 ≤ tolerance * euclid (jacobian.column c) * euclid p.residuals * |δ c| :=
    mul_nonneg (mul_nonneg (mul_nonneg htolerance (euclid_nonneg _)) (euclid_nonneg _)) (abs_nonneg _)
  rw [transpose_mulVec_apply, dot_comm]
  rcases hc with hzero | ⟨hat, hslope⟩ | ⟨hat, hslope⟩ | hsmall
  · have hdot : dot p.residuals (jacobian.column c) = 0 := by
      simp [hzero]
    rw [hdot, zero_mul]
    exact neg_nonpos.2 hnonneg
  · exact (neg_nonpos.2 hnonneg).trans (mul_nonneg hslope.le ((h c).1 hat))
  · exact (neg_nonpos.2 hnonneg).trans (mul_nonneg_of_nonpos_of_nonpos hslope.le ((h c).2 hat))
  · have habs := mul_le_mul_of_nonneg_right hsmall (abs_nonneg (δ c))
    rw [← abs_mul] at habs
    exact neg_le_of_abs_le habs

end StepLimits

/-- Where the gradient test fires, the linear model falls no faster than the tolerance allows. -/
theorem Linearization.norm_sq_le_of_gradientCosine {limits : StepLimits ℝ k} {p : Iterate ℝ n m k}
    {jacobian : Mat ℝ m k} {tall : k ≤ m} {tolerance : ℝ} {δ : Fin k → ℝ}
    (htolerance : 0 ≤ tolerance) (hnorm : p.norm = euclid p.residuals)
    (h : (ofJacobian limits p jacobian tall).gradientCosine p.norm ≤ tolerance)
    (hδ : limits.Allows p.free δ) :
    p.norm ^ 2 ≤ (coords p.residuals + jacobian.toMatrix *ᵥ δ) ⬝ᵥ
        (coords p.residuals + jacobian.toMatrix *ᵥ δ) +
      2 * tolerance * p.norm * ∑ c, euclid (jacobian.column c) * |δ c| := by
  have hmodel := dotProduct_self_nonneg (coords p.residuals + jacobian.toMatrix *ᵥ δ)
  rcases (Setting.gradientCosine_le_iff htolerance hnorm).1 h with hzero | hstationary
  · rw [hnorm, euclid_eq_zero.2 hzero]
    simpa using hmodel
  · have hslopes : -(tolerance * p.norm * ∑ c, euclid (jacobian.column c) * |δ c|) ≤
        coords p.residuals ⬝ᵥ (jacobian.toMatrix *ᵥ δ) := by
      rw [dotProduct_mulVec_eq_sum, Finset.mul_sum, ← Finset.sum_neg_distrib]
      refine Finset.sum_le_sum fun c _ => ?_
      refine le_of_eq_of_le ?_ ((hstationary c).slope_ge htolerance hδ)
      rw [hnorm]
      ring
    rw [add_dotProduct_add, ← euclid_sq_eq_dotProduct, ← hnorm]
    linarith [dotProduct_self_nonneg (jacobian.toMatrix *ᵥ δ)]

/-! ### Proposed steps -/

namespace Proposal

/-- The damped step itself, before anything is dropped. -/
noncomputable def whole (t : Proposal ℝ k) : Vector ℝ k := t.damped.x.map (- ·)

/-- What is left of it when the components that lead out of a limit are dropped. -/
noncomputable def kept (limits : StepLimits ℝ k) (free : Vector ℝ k) (t : Proposal ℝ k) :
    Vector ℝ k :=
  Vector.ofFn (limits.dropOutward free t.whole)

theorem normal_whole {limits : StepLimits ℝ k} {p : Iterate ℝ n m k} {jacobian : Mat ℝ m k}
    {tall : k ≤ m} {scale : Vector ℝ k} {t : Proposal ℝ k}
    (h : ((Linearization.ofJacobian limits p jacobian tall).stepModel scale).IsDampedStep
      (Linearization.ofJacobian limits p jacobian tall).r t.damped) (e : Fin k) :
    ((Linearization.masked limits p jacobian).toMatrixᵀ *ᵥ
        ((Linearization.masked limits p jacobian).toMatrix *ᵥ coords t.whole)) e +
        t.damped.damping * scale[e] ^ 2 * coords t.whole e =
      -((Linearization.masked limits p jacobian).toMatrixᵀ *ᵥ coords p.residuals) e := by
  have hneg : coords t.whole = -coords t.damped.x := by
    ext e
    rw [coords_apply, whole, getElem_map]
    rfl
  rw [hneg, mulVec_neg, mulVec_neg, Pi.neg_apply, Pi.neg_apply, coords_apply,
    ← Linearization.normal_of_isDampedStep h]
  ring

end Proposal

namespace Setting

section Propose

variable (s : Setting ℝ n m k) (l : Linearization ℝ m k) (scale : Vector ℝ k)
  (p : Progress ℝ n m k)

variable {s l scale p} in
theorem damping_propose :
    (s.propose l scale p).region.damping = (s.propose l scale p).damped.damping := by
  show (p.regionFor _ _).damping = _
  unfold Progress.regionFor
  dsimp only
  split <;> rfl

/-- The step that is tried is a part of what is kept. -/
theorem coords_step_propose : coords (s.propose l scale p).move.step =
    (s.propose l scale p).move.part •
      coords ((s.propose l scale p).kept s.limits p.point.free) := by
  have hstep : (s.propose l scale p).move.step =
      ((s.propose l scale p).kept s.limits p.point.free).map
        (· * (s.propose l scale p).move.part) := rfl
  ext e
  rw [coords_apply, hstep, getElem_map, Pi.smul_apply, coords_apply, smul_eq_mul, mul_comm]

theorem length_sq_propose : (s.propose l scale p).length ^ 2 =
    (s.propose l scale p).move.part ^ 2 *
      ∑ e : Fin k, (scale[e] * ((s.propose l scale p).kept s.limits p.point.free)[e]) ^ 2 := by
  have hlength : (s.propose l scale p).length =
      s.scaledNorm scale (s.propose l scale p).move.step := rfl
  rw [hlength, scaledNorm, normOf_eq, euclid_sq, Finset.mul_sum]
  refine Finset.sum_congr rfl fun e _ => ?_
  have hstep := congrFun (coords_step_propose s l scale p) e
  rw [coords_apply, Pi.smul_apply, coords_apply, smul_eq_mul] at hstep
  rw [getElem_scaleBy, hstep]
  ring

end Propose

section Predict

variable (s : Setting ℝ n m k) {norm damping : ℝ} (part length : ℝ) (image : Vector ℝ k)
  (hnorm : norm ≠ 0) (hdamping : 0 ≤ damping)

include hnorm hdamping

theorem predict_reduction_mul (hpart : part ≠ 0) :
    (s.predict norm damping part length image).reduction * norm ^ 2 =
      euclid image ^ 2 * (2 / part - 1) + 2 * damping * length ^ 2 / part := by
  have hroot : √damping * √damping = damping := Real.mul_self_sqrt hdamping
  have htwo : (2.0 : ℝ) = 2 := by norm_num
  simp only [predict, normOf_eq]
  change (euclid image / norm * (euclid image / norm) * (2.0 / part - 1) +
    2.0 * (√damping * length / norm) * (√damping * length / norm) / part) * norm ^ 2 = _
  rw [htwo]
  field_simp
  linear_combination (2 * length ^ 2) * hroot

theorem predict_slope_mul :
    (s.predict norm damping part length image).slope * norm ^ 2 =
      -(euclid image ^ 2 + damping * length ^ 2) / part := by
  have hroot : √damping * √damping = damping := Real.mul_self_sqrt hdamping
  simp only [predict, normOf_eq]
  change -(euclid image / norm * (euclid image / norm) +
    √damping * length / norm * (√damping * length / norm)) / part * norm ^ 2 = _
  field_simp
  linear_combination (-length ^ 2 / part) * hroot

end Predict

/-- What is predicted of the part `part` of a damped step bounds its image and its length. -/
theorem predict_reduction_ge (s : Setting ℝ n m k) {norm damping part : ℝ} (length : ℝ)
    (image : Vector ℝ k) (hnorm : 0 < norm) (hdamping : 0 ≤ damping) (hpart : 0 < part)
    (hle : part ≤ 1) :
    (euclid image ^ 2 + 2 * damping * length ^ 2) / part ≤
      (s.predict norm damping part length image).reduction * norm ^ 2 := by
  have himage : euclid image ^ 2 / part ≤ euclid image ^ 2 * (2 / part - 1) := by
    have hone : 1 / part ≤ 2 / part - 1 := by
      rw [le_sub_iff_add_le, ← le_sub_iff_add_le', ← sub_div]
      norm_num
      exact (one_le_inv₀ hpart).2 hle
    rw [div_eq_mul_one_div]
    exact mul_le_mul_of_nonneg_left hone (sq_nonneg _)
  rw [predict_reduction_mul s part length image hnorm.ne' hdamping hpart.ne', add_div]
  linarith

/-! ### The last step of a search -/

/-- The step that ends a search from `x`: the checkpoint of the last iteration, the Jacobian there,
and the progress through rejected steps from which the step was tried. -/
structure LastStep (s : Setting ℝ n m k) (tall : k ≤ m) (trials : ℕ) (x : Vector ℝ n) where
  checkpoint : Checkpoint ℝ n m k
  jacobian : Mat ℝ m k
  progress : Progress ℝ n m k
  result : TrialResult ℝ n m k
  run : ∃ j₀ j₁ j₂ j₃, s.Visits tall trials x checkpoint j₀ ∧
    (s.jacobianAt checkpoint.point.x checkpoint.point.residuals).resume j₀ = (.ok jacobian, j₁) ∧
    s.Tries (s.modelAt tall checkpoint jacobian) (s.scaleAt tall checkpoint jacobian)
      (s.cosineAt tall checkpoint jacobian) (s.progressAt tall checkpoint jacobian) j₁
      progress j₂ ∧
    (s.tryStep (s.modelAt tall checkpoint jacobian) (s.scaleAt tall checkpoint jacobian)
      (s.cosineAt tall checkpoint jacobian) progress).resume j₂ = (.ok result, j₃)
  stops : result.status.isEmpty = false

namespace LastStep

variable {s : Setting ℝ n m k} {tall : k ≤ m} {trials : ℕ} {x : Vector ℝ n}
  (last : s.LastStep tall trials x)

noncomputable def origin : Iterate ℝ n m k := last.checkpoint.point

noncomputable def scale : Vector ℝ k := s.scaleAt tall last.checkpoint last.jacobian

noncomputable def proposal : Proposal ℝ k :=
  s.propose (s.modelAt tall last.checkpoint last.jacobian) last.scale last.progress

noncomputable def held : Finset (Fin k) := s.limits.held last.origin last.jacobian

/-- The displacements within reach of the step: it was not shortened too much, what it was damped
for is not too far beyond it, and the parameters it could not move hardly change. -/
structure Reaches (δ : Fin k → ℝ) : Prop where
  part : 1 / 5000 ≤ last.proposal.move.part
  near : last.proposal.damped.damping = 0 ∨
    √(∑ e : Fin k, (last.scale[e] * δ e) ^ 2) ≤ 5000 * last.proposal.length
  held : ∑ e ∈ last.held, euclid (last.jacobian.column e) * |δ e| ≤ 3e-4 * last.origin.norm

theorem progress_point : ∃ v, last.progress.point = { last.origin with scaledNorm := v } := by
  obtain ⟨_, _, _, _, -, -, htries, -⟩ := last.run
  rw [htries.point_eq]
  exact rescale_point _ _

theorem progress_free : last.progress.point.free = last.origin.free := by
  obtain ⟨v, hpoint⟩ := last.progress_point
  rw [hpoint]

theorem progress_norm : last.progress.point.norm = last.origin.norm := by
  obtain ⟨v, hpoint⟩ := last.progress_point
  rw [hpoint]

section Ready

variable (hoptions : s.options.InRange)

include hoptions

theorem ready : Ready (s.rescale (s.modelAt tall last.checkpoint last.jacobian) last.checkpoint) := by
  obtain ⟨_, _, _, _, hvisits, -⟩ := last.run
  refine ready_of_visits hoptions hvisits fun e => ?_
  rw [modelAt, Linearization.columnNorms_ofJacobian]
  exact euclid_nonneg _

theorem isDampedStep :
    ((s.modelAt tall last.checkpoint last.jacobian).stepModel last.scale).IsDampedStep
      (s.modelAt tall last.checkpoint last.jacobian).r last.proposal.damped := by
  have hxtol : 0 ≤ s.options.xtol := Options.isTolerance_iff.1 hoptions.xtol
  obtain ⟨_, _, _, _, -, -, htries, -⟩ := last.run
  have hready := last.ready hoptions
  have hscale := hready.stepScale_pos (s := s) (s.modelAt tall last.checkpoint last.jacobian)
  exact (Tries.steady (hready.steady _) hscale hxtol htries).isDampedStep hscale

end Ready

noncomputable def aim : Vector ℝ k := last.proposal.damped.x.map (- ·)

noncomputable def dropped : Vector ℝ k := Vector.ofFn (s.limits.dropOutward last.origin.free last.aim)

theorem dropped_eq : last.dropped = last.proposal.kept s.limits last.progress.point.free := by
  rw [progress_free]
  rfl

theorem coords_step :
    coords last.proposal.move.step = last.proposal.move.part • coords last.dropped := by
  rw [dropped_eq]
  exact coords_step_propose s _ _ _

theorem length_sq :
    last.proposal.length ^ 2 =
      last.proposal.move.part ^ 2 * ∑ e : Fin k, (last.scale[e] * last.dropped[e]) ^ 2 := by
  rw [dropped_eq]
  exact length_sq_propose s _ _ _

noncomputable def matrix : Matrix (Fin m) (Fin k) ℝ :=
  (Linearization.masked s.limits last.origin last.jacobian).toMatrix

theorem normal (hoptions : s.options.InRange) (e : Fin k) :
    (last.matrixᵀ *ᵥ (last.matrix *ᵥ coords last.aim)) e +
        last.proposal.damped.damping * last.scale[e] ^ 2 * coords last.aim e =
      -(last.matrixᵀ *ᵥ coords last.origin.residuals) e :=
  Proposal.normal_whole (last.isDampedStep hoptions) e

/-- What was predicted of the step when the search stopped for small reductions. -/
theorem predicted_le (h : last.result.status.contains .ftolConverged = true) :
    (s.predict last.origin.norm last.proposal.damped.damping
      (max last.proposal.move.part Scalar.minNormal) last.proposal.length
      ((s.modelAt tall last.checkpoint last.jacobian).image last.proposal.damped.workspace
        last.proposal.move.step)).reduction ≤ s.options.ftol := by
  obtain ⟨_, _, _, _, -, -, -, hstep⟩ := last.run
  obtain ⟨r, i, -, -, hresult⟩ := tryStep_ok hstep
  rw [hresult] at h
  have hwithin := StepStatistics.reductionWithin_iff.1 (Options.contains_stepStatus_ftol.1 h)
  have hdamping : last.proposal.region.damping = last.proposal.damped.damping :=
    damping_propose
  rw [← hdamping, ← last.progress_norm]
  exact hwithin.2.1

/-- The part of the step that was taken bounds the image and the length of the whole. -/
theorem part_mul_le (hoptions : s.options.InRange) (hnorm : 0 < last.origin.norm)
    (hpart : 1 / 5000 ≤ last.proposal.move.part)
    (h : last.result.status.contains .ftolConverged = true) :
    last.proposal.move.part * ((last.matrix *ᵥ coords last.dropped) ⬝ᵥ
        (last.matrix *ᵥ coords last.dropped) +
      2 * last.proposal.damped.damping * ∑ e : Fin k, (last.scale[e] * last.dropped[e]) ^ 2) ≤
    s.options.ftol * last.origin.norm ^ 2 := by
  have hdamped := last.isDampedStep hoptions
  have hpos : 0 < last.proposal.move.part := lt_of_lt_of_le (by norm_num) hpart
  have hle : last.proposal.move.part ≤ 1 := StepLimits.restrict_part_le_one _ _ _
  -- the part that the prediction divides by is kept from zero, which changes no part this large
  have hmax : max last.proposal.move.part Scalar.minNormal = last.proposal.move.part := by
    refine max_eq_left (le_trans ?_ hpart)
    exact (minNormal_le_zpow (e := -13) (by norm_num)).trans (by norm_num)
  have hpredicted := last.predicted_le h
  rw [hmax] at hpredicted
  have hreduction := s.predict_reduction_ge last.proposal.length
    ((s.modelAt tall last.checkpoint last.jacobian).image last.proposal.damped.workspace
      last.proposal.move.step) hnorm hdamped.damping_nonneg hpos hle
  have himage : euclid ((s.modelAt tall last.checkpoint last.jacobian).image
        last.proposal.damped.workspace last.proposal.move.step) ^ 2 =
      last.proposal.move.part ^ 2 * ((last.matrix *ᵥ coords last.dropped) ⬝ᵥ
        (last.matrix *ᵥ coords last.dropped)) := by
    refine (Linearization.euclid_image hdamped.workspace _).trans ?_
    rw [coords_step, mulVec_smul, smul_dotProduct, dotProduct_smul, smul_eq_mul, smul_eq_mul,
      ← mul_assoc, ← pow_two]
    rfl
  have hvalue : last.proposal.move.part * ((last.matrix *ᵥ coords last.dropped) ⬝ᵥ
        (last.matrix *ᵥ coords last.dropped) +
      2 * last.proposal.damped.damping * ∑ e : Fin k, (last.scale[e] * last.dropped[e]) ^ 2) =
      (euclid ((s.modelAt tall last.checkpoint last.jacobian).image
        last.proposal.damped.workspace last.proposal.move.step) ^ 2 +
        2 * last.proposal.damped.damping * last.proposal.length ^ 2) /
      last.proposal.move.part := by
    rw [himage, length_sq]
    field_simp
  rw [hvalue]
  exact hreduction.trans (mul_le_mul_of_nonneg_right hpredicted (sq_nonneg _))

/-- The damping reaches no further than the step and the displacement do. -/
theorem damping_mul_sum_le (hoptions : s.options.InRange) {δ : Fin k → ℝ}
    (hreach : last.Reaches δ) :
    last.proposal.damped.damping * ∑ e : Fin k, last.scale[e] ^ 2 * coords last.dropped e * δ e ≤
      5000 * last.proposal.move.part *
        (last.proposal.damped.damping * ∑ e : Fin k, (last.scale[e] * last.dropped[e]) ^ 2) := by
  have hdamping := (last.isDampedStep hoptions).damping_nonneg
  set T := ∑ e : Fin k, (last.scale[e] * last.dropped[e]) ^ 2 with hT
  have hT' : 0 ≤ T := Finset.sum_nonneg fun _ _ => sq_nonneg _
  have hpart : 0 ≤ last.proposal.move.part := le_trans (by norm_num) hreach.part
  rcases hreach.near with hzero | hnear
  · rw [hzero, zero_mul, zero_mul, mul_zero]
  · have hcauchy : ∑ e : Fin k, last.scale[e] ^ 2 * coords last.dropped e * δ e ≤
        √T * √(∑ e : Fin k, (last.scale[e] * δ e) ^ 2) := by
      refine le_of_eq_of_le (Finset.sum_congr rfl fun e _ => ?_)
        (Real.sum_mul_le_sqrt_mul_sqrt Finset.univ (fun e : Fin k => last.scale[e] * last.dropped[e])
          fun e => last.scale[e] * δ e)
      rw [coords_apply]
      ring
    have hlength : last.proposal.length = last.proposal.move.part * √T := by
      have hnonneg : 0 ≤ last.proposal.length := scaledNorm_nonneg s _ _
      rw [← Real.sqrt_sq hnonneg, length_sq, Real.sqrt_mul (sq_nonneg _), Real.sqrt_sq hpart]
    rw [hlength] at hnear
    have hproduct : √T * √(∑ e : Fin k, (last.scale[e] * δ e) ^ 2) ≤
        5000 * last.proposal.move.part * T := by
      calc √T * √(∑ e : Fin k, (last.scale[e] * δ e) ^ 2)
          ≤ √T * (5000 * (last.proposal.move.part * √T)) :=
            mul_le_mul_of_nonneg_left hnear (Real.sqrt_nonneg _)
        _ = 5000 * last.proposal.move.part * (√T * √T) := by ring
        _ = 5000 * last.proposal.move.part * T := by rw [Real.mul_self_sqrt hT']
    calc _ ≤ last.proposal.damped.damping * (5000 * last.proposal.move.part * T) :=
          mul_le_mul_of_nonneg_left (hcauchy.trans hproduct) hdamping
      _ = _ := by ring

theorem image_aim_le (hoptions : s.options.InRange) {δ : Fin k → ℝ}
    (hδ : s.limits.Allows last.origin.free δ) :
    (last.matrix *ᵥ coords last.aim) ⬝ᵥ (last.matrix *ᵥ coords last.aim) ≤
      (last.matrix *ᵥ coords last.dropped) ⬝ᵥ (last.matrix *ᵥ coords last.dropped) := by
  refine image_le_of_dropped (last.isDampedStep hoptions).damping_nonneg (last.normal hoptions)
    fun e => ?_
  rw [coords_apply, dropped, getElem_ofFn]
  exact (StepLimits.dropOutward_cases last.jacobian hδ last.aim e).imp_right
    fun h => ⟨h.1, h.2.2⟩

/-- The sum of squares at the origin of the step, against that of the linear model elsewhere. -/
theorem squares_le (hoptions : s.options.InRange) {δ : Fin k → ℝ}
    (hδ : s.limits.Allows last.origin.free δ) :
    coords last.origin.residuals ⬝ᵥ coords last.origin.residuals ≤
      (coords last.origin.residuals + last.jacobian.toMatrix *ᵥ δ) ⬝ᵥ
        (coords last.origin.residuals + last.jacobian.toMatrix *ᵥ δ) +
      (last.matrix *ᵥ coords last.aim) ⬝ᵥ (last.matrix *ᵥ coords last.aim) +
      2 * last.proposal.damped.damping *
        ∑ e : Fin k, last.scale[e] ^ 2 * coords last.dropped e * δ e -
      2 * (last.matrix *ᵥ coords last.aim) ⬝ᵥ
        ((last.jacobian.toMatrix - last.matrix) *ᵥ δ) := by
  refine squares_le_of_normal (last.isDampedStep hoptions).damping_nonneg (last.normal hoptions)
    (StepLimits.slope_masked_mul_le last.jacobian hδ) fun e => ?_
  rw [coords_apply, dropped, getElem_ofFn]
  exact (StepLimits.dropOutward_cases last.jacobian hδ last.aim e).imp_right
    fun h => ⟨h.1, h.2.1⟩

theorem found_of_accepted (h : last.result.accepted = true) :
    ∃ r j j', (s.residualsAt .trial (s.withFree last.origin.x last.proposal.move.target)).resume j =
      (.ok r, j') ∧ last.result.progress.point.norm = euclid r := by
  obtain ⟨_, _, j, _, -, -, -, hstep⟩ := last.run
  obtain ⟨v, hpoint⟩ := last.progress_point
  have hx : last.progress.point.x = last.origin.x := by
    rw [hpoint]
  obtain ⟨r, i, -, hr, hresult⟩ := tryStep_ok hstep
  rw [hx] at hr
  refine ⟨r, j, i, hr, ?_⟩
  rw [hresult] at h ⊢
  simp only [resultOf, pointAfter] at h ⊢
  rw [if_pos h, accept, normOf_eq]

theorem not_gtolConverged : last.result.status.contains .gtolConverged = false := by
  obtain ⟨_, _, _, _, -, -, -, hstep⟩ := last.run
  obtain ⟨r, i, -, -, hresult⟩ := tryStep_ok hstep
  rw [hresult]
  exact Options.contains_stepStatus _ _ _

theorem norm_result_le : last.result.progress.point.norm ≤ last.origin.norm := by
  obtain ⟨_, _, _, _, -, -, -, hstep⟩ := last.run
  obtain ⟨haccepted, hrejected⟩ := tryStep_descends hstep
  cases hresult : last.result.accepted with
  | true =>
      rw [← last.progress_norm]
      exact (haccepted hresult).2.1.le
  | false => rw [hrejected hresult, last.progress_norm]

/-- Among the displacements within reach, the linear model has nearly no smaller sum of squares when
the search stops for small reductions. -/
theorem norm_sq_le (hoptions : s.options.InRange) (hftol : s.options.ftol ≤ 1e-10)
    (hnorm : last.origin.norm = euclid last.origin.residuals) {δ : Fin k → ℝ}
    (hδ : s.limits.Allows last.origin.free δ)
    (h : last.result.status.contains .ftolConverged = true) (hreach : last.Reaches δ) :
    last.origin.norm ^ 2 ≤ (coords last.origin.residuals + last.jacobian.toMatrix *ᵥ δ) ⬝ᵥ
      (coords last.origin.residuals + last.jacobian.toMatrix *ᵥ δ) + 1e-6 * last.origin.norm ^ 2 := by
  have hnonneg : 0 ≤ last.origin.norm := by
    rw [hnorm]
    exact euclid_nonneg _
  rcases hnonneg.eq_or_lt with hzero | hpos
  · rw [← hzero]
    simpa using dotProduct_self_nonneg (coords last.origin.residuals + last.jacobian.toMatrix *ᵥ δ)
  · have hgap := last.squares_le hoptions hδ
    rw [← euclid_sq_eq_dotProduct, ← hnorm] at hgap
    have himage := last.image_aim_le hoptions hδ
    have hunseen := StepLimits.dotProduct_unmasked_ge s.limits last.origin last.jacobian
      (last.matrix *ᵥ coords last.aim) δ
    have hpart := last.part_mul_le hoptions hpos hreach.part h
    have hreached := last.damping_mul_sum_le hoptions hreach
    have hdamping := (last.isDampedStep hoptions).damping_nonneg
    have hsum : 0 ≤ ∑ e ∈ last.held, euclid (last.jacobian.column e) * |δ e| :=
      Finset.sum_nonneg fun e _ => mul_nonneg (euclid_nonneg _) (abs_nonneg _)
    have hT : 0 ≤ last.proposal.damped.damping * ∑ e : Fin k, (last.scale[e] * last.dropped[e]) ^ 2 :=
      mul_nonneg hdamping (Finset.sum_nonneg fun _ _ => sq_nonneg _)
    rw [mul_assoc 2] at hpart hgap
    exact le_of_reached hpos (dotProduct_self_nonneg _) himage hT hsum hreach.part
      (hpart.trans (mul_le_mul_of_nonneg_right hftol (sq_nonneg _))) hreached hreach.held hunseen
      hgap

/-- The step was accepted as it was computed: nothing was damped, shortened, dropped or snapped. -/
structure IsWhole : Prop where
  accepted : last.result.accepted = true
  undamped : last.proposal.damped.damping = 0
  target : ∀ e : Fin k, last.proposal.move.target[e] = last.origin.free[e] + last.aim[e]

theorem matrix_apply (i : Fin m) (e : Fin k) :
    last.matrix i e = if e ∈ last.held then 0 else last.jacobian[i][e] := by
  have hheld : e ∈ last.held ↔ s.limits.pointsOutward last.origin.free last.jacobian
      last.origin.residuals e = true := by
    simp [held, StepLimits.held]
  rw [matrix, Mat.toMatrix_apply, StepLimits.getElem_maskJacobian]
  exact if_congr hheld.symm rfl rfl

/-- The cleared Jacobian is as good as the whole where nothing that is held moves. -/
theorem mulVec_eq_of_held {δ : Fin k → ℝ} (hδ : ∀ e ∈ last.held, δ e = 0) :
    last.jacobian.toMatrix *ᵥ δ = last.matrix *ᵥ δ := by
  ext i
  simp only [mulVec, dotProduct]
  refine Finset.sum_congr rfl fun e _ => ?_
  rw [matrix_apply, Mat.toMatrix_apply]
  split
  · next he => rw [hδ e he, mul_zero, mul_zero]
  · rfl

theorem aim_of_held (hoptions : s.options.InRange) {e : Fin k} (he : e ∈ last.held) :
    last.aim[e] = 0 := by
  have hcolumn : ∀ i : Fin m,
      (Linearization.masked s.limits last.checkpoint.point last.jacobian)[i][e] = 0 := by
    intro i
    have hentry := last.matrix_apply i e
    rwa [if_pos he] at hentry
  have hzero := Linearization.zero_of_isDampedStep (last.isDampedStep hoptions) hcolumn
  rw [aim, getElem_map, hzero, neg_zero]

theorem squares_aim_le (hoptions : s.options.InRange)
    (hundamped : last.proposal.damped.damping = 0) {δ : Fin k → ℝ}
    (hδ : ∀ e ∈ last.held, δ e = 0) :
    (coords last.origin.residuals + last.jacobian.toMatrix *ᵥ coords last.aim) ⬝ᵥ
        (coords last.origin.residuals + last.jacobian.toMatrix *ᵥ coords last.aim) ≤
      (coords last.origin.residuals + last.jacobian.toMatrix *ᵥ δ) ⬝ᵥ
        (coords last.origin.residuals + last.jacobian.toMatrix *ᵥ δ) := by
  have haim : ∀ e ∈ last.held, coords last.aim e = 0 := fun e he => last.aim_of_held hoptions he
  rw [last.mulVec_eq_of_held hδ, last.mulVec_eq_of_held haim]
  refine squares_le_of_undamped fun e => ?_
  have hnormal := last.normal hoptions e
  rwa [hundamped, zero_mul, zero_mul, add_zero] at hnormal

end LastStep

/-! ### How a search ends -/

/-- A search that may take steps ends with the gradient test or with a last step. -/
theorem search_ends {s : Setting ℝ n m k} {tall : k ≤ m} {trials : ℕ} {x : Vector ℝ n}
    {names : Vector (Option String) n} {solution : Solution ℝ n m} {j : Journal ℝ n}
    (hlimit : s.options.maxIterations ≠ 0)
    (h : (s.search tall trials names x).resume .empty = (.ok solution, j)) :
    ∃ start f evaluations jacobians, solution = s.solutionOf names start f evaluations jacobians ∧
      Below start f.point ∧
      ((∃ c jacobian v j j', s.Visits tall trials x c j ∧
          (s.jacobianAt c.point.x c.point.residuals).resume j = (.ok jacobian, j') ∧
          (s.modelAt tall c jacobian).gradientCosine c.point.norm ≤ s.options.gtol ∧
          f.point = { c.point with scaledNorm := v } ∧
          f.status = s.options.gradientStatus
            ((s.modelAt tall c jacobian).gradientCosine c.point.norm)) ∨
        ∃ last : s.LastStep tall trials x,
          f.point = last.result.progress.point ∧ f.status = last.result.status) := by
  obtain ⟨p, i₀, c, i₁, f, i₂, hp, hc, hlast, evaluations, jacobians, rfl⟩ := search_ok h
  have hbelow : Below p.norm f.point := (below_of_visits hp hc).iteration hlast
  refine ⟨p.norm, f, evaluations, jacobians, rfl, hbelow, ?_⟩
  obtain ⟨jacobian, i, hjacobian, hadvance⟩ := iteration_ok hlast
  rcases advance_ok hadvance with ⟨status, hstatus, hf, hreason⟩ |
    ⟨-, q, i', result, hq, hstep, hend⟩
  · cases hf
    rcases hreason with rfl | ⟨hzero, -⟩
    · obtain ⟨v, hpoint⟩ := rescale_point (s := s) (s.modelAt tall c jacobian) c
      have hcosine := Options.isEmpty_gradientStatus.1 hstatus
      change (s.modelAt tall c jacobian).gradientCosine
        (s.rescale (s.modelAt tall c jacobian) c).point.norm ≤ s.options.gtol at hcosine
      refine .inl ⟨c, jacobian, v, i₁, i, hc, hjacobian, ?_, hpoint, ?_⟩
      · rwa [hpoint] at hcosine
      · change s.options.gradientStatus ((s.modelAt tall c jacobian).gradientCosine
          (s.rescale (s.modelAt tall c jacobian) c).point.norm) = _
        rw [hpoint]
    · exact absurd hzero hlimit
  · rcases hend with ⟨hstatus, hf⟩ | ⟨-, -, hf⟩
    · cases hf
      exact .inr ⟨⟨c, jacobian, q, result, ⟨i₁, i, i', i₂, hc, hjacobian, hq, hstep⟩, hstatus⟩, rfl,
        rfl⟩
    · cases hf

end Setting

end LeastSquares
