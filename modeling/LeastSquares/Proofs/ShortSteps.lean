import LeastSquares.Proofs.Optimality

/-!
Steps that are only shortened. Where the linear model is exact, a damped step that is scaled down as a
whole gains what was predicted of it, so that the gain ratio is one and the step is accepted. Without
damping a small part of a step gains about twice that part of what the whole step would; when the part
is small beside the tolerance, the search takes the small gain for convergence, however much is left
to gain.
-/

namespace LeastSquares

open Matrix

variable {n m k : ℕ} {s : Setting ℝ n m k} {limits : StepLimits ℝ k} {point : Iterate ℝ n m k}
  {jacobian : Mat ℝ m k} {tall : k ≤ m} {scale : Vector ℝ k} {t : Proposal ℝ k} {r : Vector ℝ m}

theorem TrustRegion.radius_update {region : TrustRegion ℝ} {trial : Trial ℝ}
    (hratio : trial.ratio = 1) : (region.update trial).radius = trial.length / 0.5 := by
  have hlow : ¬ trial.ratio ≤ 0.25 := by
    rw [hratio]
    norm_num
  have hhigh : (0.75 : ℝ) ≤ trial.ratio := by
    rw [hratio]
    norm_num
  rw [update, if_neg hlow, if_pos (.inr hhigh)]

namespace Proposal

/-- A damped step of a linear model that was only shortened. The length matters to the damping
alone. -/
structure IsShortened (l : Linearization ℝ m k) (scale : Vector ℝ k) (t : Proposal ℝ k) : Prop where
  damped : (l.stepModel scale).IsDampedStep l.r t.damped
  region : t.region.damping = t.damped.damping
  step : ∀ e : Fin k, t.move.step[e] = t.move.part * -t.damped.x[e]
  length : t.damped.damping ≠ 0 →
    t.length ^ 2 = t.move.part ^ 2 * ∑ e : Fin k, (scale[e] * t.damped.x[e]) ^ 2
  minNormal_le : Scalar.minNormal ≤ t.move.part
  le_one : t.move.part ≤ 1

/-- What the whole step would gain if it cost nothing: the square of its image. -/
noncomputable def gain (jacobian : Mat ℝ m k) (t : Proposal ℝ k) : ℝ :=
  (jacobian.toMatrix *ᵥ coords t.damped.x) ⬝ᵥ (jacobian.toMatrix *ᵥ coords t.damped.x)

noncomputable def weight (scale : Vector ℝ k) (t : Proposal ℝ k) : ℝ :=
  t.damped.damping * ∑ e : Fin k, (scale[e] * t.damped.x[e]) ^ 2

/-- How far the linear model falls along the step as it was shortened. -/
noncomputable def descent (jacobian : Mat ℝ m k) (scale : Vector ℝ k) (t : Proposal ℝ k) : ℝ :=
  (2 * t.move.part - t.move.part ^ 2) * t.gain jacobian + 2 * t.move.part * t.weight scale

theorem gain_nonneg (jacobian : Mat ℝ m k) (t : Proposal ℝ k) : 0 ≤ t.gain jacobian :=
  dotProduct_self_nonneg _

end Proposal

namespace Proposal.IsShortened

variable (h : t.IsShortened (.ofJacobian limits point jacobian tall) scale)

include h

theorem part_pos : 0 < t.move.part := minNormal_pos.trans_le h.minNormal_le

theorem weight_nonneg : 0 ≤ t.weight scale :=
  mul_nonneg h.damped.damping_nonneg (Finset.sum_nonneg fun _ _ => sq_nonneg _)

theorem coords_step : coords t.move.step = -(t.move.part • coords t.damped.x) := by
  ext e
  rw [coords_apply, h.step, Pi.neg_apply, Pi.smul_apply, coords_apply, smul_eq_mul, mul_neg]

theorem dotProduct_image :
    coords point.residuals ⬝ᵥ
        ((Linearization.masked limits point jacobian).toMatrix *ᵥ coords t.damped.x) =
      t.gain (Linearization.masked limits point jacobian) + t.weight scale := by
  rw [gain, weight, dotProduct_mulVec_eq_sum, mulVec_dotProduct_mulVec, dotProduct, Finset.mul_sum,
    ← Finset.sum_add_distrib]
  refine Finset.sum_congr rfl fun e _ => ?_
  rw [← Linearization.normal_of_isDampedStep h.damped e, coords_apply]
  ring

theorem squares_eq (hr : coords r = coords point.residuals +
      (Linearization.masked limits point jacobian).toMatrix *ᵥ coords t.move.step) :
    euclid r ^ 2 = euclid point.residuals ^ 2 -
      t.descent (Linearization.masked limits point jacobian) scale := by
  rw [euclid_sq_eq_dotProduct, hr, h.coords_step, mulVec_neg, mulVec_smul, ← sub_eq_add_neg,
    sub_dotProduct_sub, dotProduct_smul, h.dotProduct_image, smul_dotProduct, dotProduct_smul,
    ← euclid_sq_eq_dotProduct, descent]
  simp only [smul_eq_mul]
  change _ - _ + t.move.part * (t.move.part * t.gain (Linearization.masked limits point jacobian)) = _
  ring

theorem euclid_image :
    euclid ((Linearization.ofJacobian limits point jacobian tall).image
      t.damped.workspace t.move.step) ^ 2 =
        t.move.part ^ 2 * t.gain (Linearization.masked limits point jacobian) := by
  rw [Linearization.euclid_image h.damped.workspace, h.coords_step, mulVec_neg, mulVec_smul,
    neg_dotProduct_neg, smul_dotProduct, dotProduct_smul, smul_eq_mul, smul_eq_mul, ← mul_assoc,
    ← pow_two]
  rfl

theorem damping_mul_length :
    t.damped.damping * t.length ^ 2 = t.move.part ^ 2 * t.weight scale := by
  by_cases hdamping : t.damped.damping = 0
  · rw [weight, hdamping, zero_mul, zero_mul, mul_zero]
  · rw [weight, h.length hdamping]
    ring

/-- The prediction is the fall of the linear model, whether it is exact or not. -/
theorem predicted_reduction :
    (s.judge (.ofJacobian limits point jacobian tall) point t r).predicted.reduction =
      t.descent (Linearization.masked limits point jacobian) scale / point.norm ^ 2 := by
  have hpart : (Scalar.max t.move.part Scalar.minNormal : ℝ) = t.move.part :=
    max_eq_left h.minNormal_le
  have hroot : (Scalar.sqrt t.region.damping : ℝ) ^ 2 = t.damped.damping := by
    rw [h.region]
    exact Real.sq_sqrt h.damped.damping_nonneg
  have hdamping : (Scalar.sqrt t.region.damping * t.length) ^ 2 =
      t.move.part ^ 2 * t.weight scale := by
    rw [mul_pow, hroot, h.damping_mul_length]
  have hne := h.part_pos.ne'
  simp only [Setting.judge, Setting.predict, Setting.normOf_eq, hpart]
  rw [mul_assoc 2.0, ← pow_two, ← pow_two, div_pow, div_pow, h.euclid_image, hdamping, descent]
  rcases eq_or_ne point.norm 0 with hzero | hnonzero
  · simp [hzero]
  · field_simp
    norm_num
    ring

section Exact

variable (hnorm : point.norm = euclid point.residuals)
  (hdescent : 0 < t.descent (Linearization.masked limits point jacobian) scale)
  (hr : coords r = coords point.residuals +
    (Linearization.masked limits point jacobian).toMatrix *ᵥ coords t.move.step)

include hnorm hdescent hr

theorem norm_pos : 0 < point.norm := by
  have hsquares := h.squares_eq hr
  rw [hnorm]
  refine lt_of_le_of_ne (euclid_nonneg _) fun hzero => ?_
  rw [← hzero] at hsquares
  linarith [sq_nonneg (euclid r)]

/-- Where the linear model is exact, so is the prediction. -/
theorem actual_eq_predicted :
    (s.judge (.ofJacobian limits point jacobian tall) point t r).actual =
      (s.judge (.ofJacobian limits point jacobian tall) point t r).predicted.reduction := by
  have hsquares := h.squares_eq hr
  have hpos := h.norm_pos hnorm hdescent hr
  rw [← hnorm] at hsquares
  have hlt : euclid r < point.norm :=
    lt_of_pow_lt_pow_left₀ 2 hpos.le (by linarith)
  have hgrowth : 0.1 * euclid r < point.norm := by
    linarith [euclid_nonneg r]
  rw [h.predicted_reduction]
  simp only [Setting.judge, Setting.normOf_eq, TrustRegion.actualReduction]
  rw [if_pos hgrowth, ← pow_two, div_pow, hsquares]
  field_simp
  ring

theorem ratio_eq_one : (s.judge (.ofJacobian limits point jacobian tall) point t r).ratio = 1 := by
  have hpredicted : (s.judge (.ofJacobian limits point jacobian tall) point t r).predicted.reduction ≠
      0 := by
    rw [h.predicted_reduction]
    exact (div_pos hdescent (pow_pos (h.norm_pos hnorm hdescent hr) 2)).ne'
  have hactual := h.actual_eq_predicted (s := s) hnorm hdescent hr
  change TrustRegion.gainRatio (s.judge (.ofJacobian limits point jacobian tall) point t r).actual
    (s.judge (.ofJacobian limits point jacobian tall) point t r).predicted.reduction = 1
  rw [TrustRegion.gainRatio, if_pos (by simpa using hpredicted), hactual, div_self hpredicted]

theorem accepted : (s.judge (.ofJacobian limits point jacobian tall) point t r).accepted = true := by
  rw [Verdict.accepted, h.ratio_eq_one hnorm hdescent hr, Verdict.acceptRatio]
  norm_num

/-- The radius becomes twice the length of the step. -/
theorem radius_eq : (s.judge (.ofJacobian limits point jacobian tall) point t r).region.radius =
    t.length / 0.5 :=
  TrustRegion.radius_update (h.ratio_eq_one hnorm hdescent hr)

end Exact

end Proposal.IsShortened

namespace Proposal

structure IsUndamped (l : Linearization ℝ m k) (scale : Vector ℝ k) (t : Proposal ℝ k) : Prop where
  damped : (l.stepModel scale).IsDampedStep l.r t.damped
  damping : t.damped.damping = 0
  region : t.region.damping = 0
  step : ∀ e : Fin k, t.move.step[e] = t.move.part * -t.damped.x[e]
  minNormal_le : Scalar.minNormal ≤ t.move.part
  le_one : t.move.part ≤ 1

theorem IsUndamped.isShortened {l : Linearization ℝ m k} (h : t.IsUndamped l scale) :
    t.IsShortened l scale where
  damped := h.damped
  region := h.region.trans h.damping.symm
  step := h.step
  length hdamping := absurd h.damping hdamping
  minNormal_le := h.minNormal_le
  le_one := h.le_one

end Proposal

namespace Setting

section Move

variable (s : Setting ℝ n m k) (free x : Vector ℝ k) (c : Fin k)

theorem getElem_move_step : (s.move free x).step[c] =
    s.limits.dropOutward free (x.map (- ·)) c * (s.move free x).part := by
  change ((Vector.ofFn (s.limits.dropOutward free (x.map (- ·)))).map
    (· * (s.move free x).part))[c] = _
  rw [getElem_map, getElem_ofFn]

theorem getElem_move_target : (s.move free x).target[c] =
    StepLimits.snapValue s.limits.lower[c] s.limits.upper[c]
      (free[c] + (s.move free x).step[c]) := by
  change (s.limits.snap (Vector.zipWith (· + ·) free (s.move free x).step))[c] = _
  rw [StepLimits.getElem_snap, getElem_zipWith]

end Move

section Propose

variable {l : Linearization ℝ m k} {p : Progress ℝ n m k}

/-- A step without damping that no limit stops in any component is only shortened. -/
theorem isUndamped_propose {x : Vector ℝ k} {r : Mat ℝ k k}
    (hdamped : (s.propose l scale p).damped = ⟨0, x, r⟩)
    (hstep : (l.stepModel scale).IsDampedStep l.r ⟨0, x, r⟩)
    (hdropped : ∀ e, s.limits.dropOutward p.point.free (x.map (- ·)) e = -x[e])
    (hpart : Scalar.minNormal ≤ (s.propose l scale p).move.part) :
    (s.propose l scale p).IsUndamped l scale where
  damped := hdamped.symm ▸ hstep
  damping := by rw [hdamped]
  region := by rw [damping_propose, hdamped]
  step e := by
    have hmove : (s.propose l scale p).move = s.move p.point.free x := by
      change s.move p.point.free (s.propose l scale p).damped.x = _
      rw [hdamped]
    rw [hmove, getElem_move_step, hdropped, hdamped, mul_comm]
  minNormal_le := hpart
  le_one := StepLimits.restrict_part_le_one _ _ _

end Propose

end Setting

namespace Proposal.IsUndamped

variable (h : t.IsUndamped (.ofJacobian limits point jacobian tall) scale)

include h

theorem weight_eq : t.weight scale = 0 := by rw [weight, h.damping, zero_mul]

theorem descent_eq : t.descent (Linearization.masked limits point jacobian) scale =
    (2 * t.move.part - t.move.part ^ 2) * t.gain (Linearization.masked limits point jacobian) := by
  rw [descent, h.weight_eq, mul_zero, add_zero]

/-- The whole step gains no more than there is. -/
theorem gain_le : t.gain (Linearization.masked limits point jacobian) ≤ euclid point.residuals ^ 2 := by
  have hsquares := dotProduct_self_nonneg (coords point.residuals -
    (Linearization.masked limits point jacobian).toMatrix *ᵥ coords t.damped.x)
  rw [sub_dotProduct_sub, h.isShortened.dotProduct_image, h.weight_eq, add_zero,
    ← euclid_sq_eq_dotProduct] at hsquares
  change 0 ≤ _ - _ + t.gain (Linearization.masked limits point jacobian) at hsquares
  linarith

/-- A step that is cut short gains no more than a small part of what there is. -/
theorem descent_le_of_cut {tolerance : ℝ} (hcut : 2 * t.move.part ≤ tolerance) :
    t.descent (Linearization.masked limits point jacobian) scale ≤
      tolerance * euclid point.residuals ^ 2 := by
  have hpos := h.isShortened.part_pos
  have hpart : 2 * t.move.part - t.move.part ^ 2 ≤ tolerance := by
    linarith [sq_nonneg t.move.part]
  rw [h.descent_eq]
  exact mul_le_mul hpart h.gain_le (t.gain_nonneg _) (by linarith)

theorem descent_pos (hgain : 0 < t.gain (Linearization.masked limits point jacobian)) :
    0 < t.descent (Linearization.masked limits point jacobian) scale := by
  have hle := h.le_one
  have hpos := h.isShortened.part_pos
  rw [h.descent_eq]
  exact mul_pos (by nlinarith) hgain

end Proposal.IsUndamped

namespace Setting

variable (cosine : ℝ) (evaluations : ℕ) {p : Progress ℝ n m k}
  (ht : s.propose (.ofJacobian limits p.point jacobian tall) scale p = t)
  (hnorm : p.point.norm = euclid p.point.residuals)
  (hr : coords r = coords p.point.residuals +
    (Linearization.masked limits p.point jacobian).toMatrix *ᵥ coords t.move.step)

include ht hnorm hr

theorem contains_ftolConverged_of_descent_le
    (h : t.IsShortened (.ofJacobian limits p.point jacobian tall) scale)
    (hdescent : 0 < t.descent (Linearization.masked limits p.point jacobian) scale)
    (hsmall : t.descent (Linearization.masked limits p.point jacobian) scale ≤
      s.options.ftol * euclid p.point.residuals ^ 2) :
    (s.resultOf (.ofJacobian limits p.point jacobian tall) scale cosine p r
      evaluations).status.contains .ftolConverged = true := by
  have hpredicted : (s.judge (.ofJacobian limits p.point jacobian tall) p.point t
      r).predicted.reduction ≤ s.options.ftol := by
    rw [h.predicted_reduction, div_le_iff₀ (pow_pos (h.norm_pos hnorm hdescent hr) 2), hnorm]
    exact hsmall
  have hnonneg : 0 ≤ (s.judge (.ofJacobian limits p.point jacobian tall) p.point t
      r).predicted.reduction := by
    rw [h.predicted_reduction]
    exact (div_pos hdescent (pow_pos (h.norm_pos hnorm hdescent hr) 2)).le
  have hactual : |(s.judge (.ofJacobian limits p.point jacobian tall) p.point t r).actual| ≤
      s.options.ftol := by
    rw [h.actual_eq_predicted hnorm hdescent hr, abs_of_nonneg hnonneg]
    exact hpredicted
  have hratio : 0.5 * (s.judge (.ofJacobian limits p.point jacobian tall) p.point t r).ratio ≤
      1 := by
    rw [h.ratio_eq_one hnorm hdescent hr]
    norm_num
  subst ht
  exact Options.contains_stepStatus_ftol.2
    (StepStatistics.reductionWithin_iff.2 ⟨hactual, hpredicted, hratio⟩)

variable (h : t.IsUndamped (.ofJacobian limits p.point jacobian tall) scale)
  (hgain : 0 < t.gain (Linearization.masked limits p.point jacobian))

include h hgain

/-- A step that is cut to less than half of the tolerance passes it whatever it leaves to gain. -/
theorem contains_ftolConverged_of_cut (hcut : 2 * t.move.part ≤ s.options.ftol) :
    (s.resultOf (.ofJacobian limits p.point jacobian tall) scale cosine p r
      evaluations).status.contains .ftolConverged = true :=
  contains_ftolConverged_of_descent_le cosine evaluations ht hnorm hr h.isShortened
    (h.descent_pos hgain) (h.descent_le_of_cut hcut)

/-- If twice its length is small beside the point that it leads to, it passes the test of the
changes too. -/
theorem contains_xtolConverged_of_short
    (hshort : t.length / 0.5 ≤ s.options.xtol * s.scaledNorm scale t.move.target) :
    (s.resultOf (.ofJacobian limits p.point jacobian tall) scale cosine p r
      evaluations).status.contains .xtolConverged = true := by
  have hradius := h.isShortened.radius_eq (s := s) hnorm (h.descent_pos hgain) hr
  have haccepted := h.isShortened.accepted (s := s) hnorm (h.descent_pos hgain) hr
  subst ht
  have hpoint : (s.resultOf (.ofJacobian limits p.point jacobian tall) scale cosine p r
      evaluations).progress.point = s.accept p.point scale _ r := if_pos haccepted
  have hscaled : s.scaledNorm scale (s.propose (.ofJacobian limits p.point jacobian tall) scale
      p).move.target = (s.resultOf (.ofJacobian limits p.point jacobian tall) scale cosine p r
        evaluations).progress.point.scaledNorm := by
    rw [hpoint]
    rfl
  refine Options.contains_stepStatus_xtol.2 (StepStatistics.changeWithin_iff.2 ?_)
  exact hradius.trans_le (hshort.trans_eq (congrArg (s.options.xtol * ·) hscaled))

end Setting

end LeastSquares
