import LeastSquares.Proofs.DampingBracket
import LeastSquares.Proofs.ExactModel
import LeastSquares.Proofs.FitDivisors
import LeastSquares.Proofs.ModelUnits
import LeastSquares.Proofs.StepContract

/-!
What is predicted of a trial step. The prediction takes the step for a part of the damped step, whose
normal equations express the slope along it by its image and its length. Where no component was
dropped at a limit, it is what the linear model falls along the step, for every damping, rank and part.
What is left of a damped step after components were dropped solves no normal equations, and then the
prediction is too high, unless what was dropped has no image.
-/

namespace LeastSquares

open Matrix

variable {n m k : ℕ}

/-! ### What is kept of a step that solves the normal equations -/

section Squares

variable {M : Matrix (Fin m) (Fin k) ℝ} {f : Fin m → ℝ} {q w d : Fin k → ℝ} {c : ℝ}
  (hnormal : ∀ e, (Mᵀ *ᵥ (M *ᵥ q)) e + c * d e ^ 2 * q e = -(Mᵀ *ᵥ f) e)
  (hkept : ∀ e, w e = q e ∨ w e = 0)

include hnormal hkept

theorem dotProduct_image_of_kept :
    f ⬝ᵥ (M *ᵥ w) = -((M *ᵥ w) ⬝ᵥ (M *ᵥ w) + c * ∑ e, (d e * w e) ^ 2) -
      (M *ᵥ (q - w)) ⬝ᵥ (M *ᵥ w) := by
  -- where a component is not kept both sides vanish, so that `q` may stand for `w` in the damping
  have hterm : ∀ e, (Mᵀ *ᵥ f) e * w e =
      -((Mᵀ *ᵥ (M *ᵥ q)) e * w e) - c * (d e * w e) ^ 2 := by
    intro e
    rcases hkept e with heq | hzero
    · rw [heq]
      linear_combination q e * hnormal e
    · rw [hzero]
      ring
  have hslope : f ⬝ᵥ (M *ᵥ w) = -((M *ᵥ q) ⬝ᵥ (M *ᵥ w)) - c * ∑ e, (d e * w e) ^ 2 := by
    rw [dotProduct_mulVec_eq_sum, dotProduct_mulVec_eq_sum (M *ᵥ q), Finset.mul_sum,
      ← Finset.sum_neg_distrib, ← Finset.sum_sub_distrib]
    exact Finset.sum_congr rfl fun e _ => hterm e
  rw [hslope, mulVec_sub, sub_dotProduct]
  ring

/-- How far the sum of squares of the linear model falls along the part `t` of what is kept. -/
theorem squares_sub_of_kept (t : ℝ) :
    f ⬝ᵥ f - (f + M *ᵥ (t • w)) ⬝ᵥ (f + M *ᵥ (t • w)) =
      (2 * t - t ^ 2) * ((M *ᵥ w) ⬝ᵥ (M *ᵥ w)) + 2 * t * (c * ∑ e, (d e * w e) ^ 2) +
        2 * t * ((M *ᵥ (q - w)) ⬝ᵥ (M *ᵥ w)) := by
  have hslope := dotProduct_image_of_kept hnormal hkept
  rw [add_dotProduct_add, mulVec_smul, dotProduct_smul, dotProduct_smul, smul_dotProduct, hslope]
  simp only [smul_eq_mul]
  ring

end Squares

namespace Linearization

/-- How far the linear model at a point falls along a step, relative to the sum of squares there. -/
noncomputable def relativeFall (jacobian : Mat ℝ m k) (residuals : Vector ℝ m) (step : Vector ℝ k) :
    ℝ :=
  (coords residuals ⬝ᵥ coords residuals -
      (coords residuals + jacobian.toMatrix *ᵥ coords step) ⬝ᵥ
        (coords residuals + jacobian.toMatrix *ᵥ coords step)) /
    (coords residuals ⬝ᵥ coords residuals)

noncomputable def relativeSlope (jacobian : Mat ℝ m k) (residuals : Vector ℝ m)
    (step : Vector ℝ k) : ℝ :=
  (coords residuals ⬝ᵥ (jacobian.toMatrix *ᵥ coords step)) / (coords residuals ⬝ᵥ coords residuals)

/-- The linear model falls by no more than there is. -/
theorem relativeFall_le_one (jacobian : Mat ℝ m k) (residuals : Vector ℝ m) (step : Vector ℝ k) :
    relativeFall jacobian residuals step ≤ 1 := by
  apply div_le_one_of_le₀ _ (dotProduct_self_nonneg _)
  have hrest := dotProduct_self_nonneg (coords residuals + jacobian.toMatrix *ᵥ coords step)
  linarith

end Linearization

/-! ### Parts of a damped step -/

namespace Proposal

section Images

variable (limits : StepLimits ℝ k) (point : Iterate ℝ n m k) (jacobian : Mat ℝ m k)
  (t : Proposal ℝ k)

noncomputable def keptImage : Fin m → ℝ :=
  (Linearization.masked limits point jacobian).toMatrix *ᵥ coords (t.kept limits point.free)

noncomputable def lostImage : Fin m → ℝ :=
  (Linearization.masked limits point jacobian).toMatrix *ᵥ
    (coords t.whole - coords (t.kept limits point.free))

theorem lostImage_of_kept (h : t.kept limits point.free = t.whole) :
    t.lostImage limits point jacobian = 0 := by
  rw [lostImage, h, sub_self, mulVec_zero]

/-- A component is kept, or it is dropped because it goes against its slope. -/
theorem kept_cases (e : Fin k) :
    coords (t.kept limits point.free) e = coords t.whole e ∨
      coords (t.kept limits point.free) e = 0 ∧ 0 ≤ coords t.whole e *
        ((Linearization.masked limits point jacobian).toMatrixᵀ *ᵥ coords point.residuals) e := by
  have hstay : limits.Allows point.free 0 := fun _ => ⟨fun _ => le_rfl, fun _ => le_rfl⟩
  rw [coords_apply, kept, getElem_ofFn]
  exact (StepLimits.dropOutward_cases jacobian hstay t.whole e).imp_right fun h => ⟨h.1, h.2.2⟩

end Images

structure IsPart (limits : StepLimits ℝ k) (point : Iterate ℝ n m k) (jacobian : Mat ℝ m k)
    (tall : k ≤ m) (scale : Vector ℝ k) (t : Proposal ℝ k) : Prop where
  damped : ((Linearization.ofJacobian limits point jacobian tall).stepModel scale).IsDampedStep
    (Linearization.ofJacobian limits point jacobian tall).r t.damped
  region : t.region.damping = t.damped.damping
  step : coords t.move.step = t.move.part • coords (t.kept limits point.free)
  length : t.length ^ 2 =
    t.move.part ^ 2 * ∑ e : Fin k, (scale[e] * (t.kept limits point.free)[e]) ^ 2
  minNormal_le : Scalar.minNormal ≤ t.move.part

namespace IsPart

variable {s : Setting ℝ n m k} {limits : StepLimits ℝ k} {point : Iterate ℝ n m k}
  {jacobian : Mat ℝ m k} {tall : k ≤ m} {scale : Vector ℝ k} {t : Proposal ℝ k}
  (h : t.IsPart limits point jacobian tall scale)

include h

theorem part_pos : 0 < t.move.part := minNormal_pos.trans_le h.minNormal_le

theorem normal (e : Fin k) :
    ((Linearization.masked limits point jacobian).toMatrixᵀ *ᵥ
        ((Linearization.masked limits point jacobian).toMatrix *ᵥ coords t.whole)) e +
        t.damped.damping * scale[e] ^ 2 * coords t.whole e =
      -((Linearization.masked limits point jacobian).toMatrixᵀ *ᵥ coords point.residuals) e :=
  normal_whole h.damped e

theorem squares_sub :
    coords point.residuals ⬝ᵥ coords point.residuals -
        (coords point.residuals +
            (Linearization.masked limits point jacobian).toMatrix *ᵥ coords t.move.step) ⬝ᵥ
          (coords point.residuals +
            (Linearization.masked limits point jacobian).toMatrix *ᵥ coords t.move.step) =
      (2 * t.move.part - t.move.part ^ 2) *
          (t.keptImage limits point jacobian ⬝ᵥ t.keptImage limits point jacobian) +
        2 * t.move.part *
          (t.damped.damping * ∑ e : Fin k, (scale[e] * (t.kept limits point.free)[e]) ^ 2) +
        2 * t.move.part *
          (t.lostImage limits point jacobian ⬝ᵥ t.keptImage limits point jacobian) := by
  have hkept := fun e => (t.kept_cases limits point jacobian e).imp_right And.left
  rw [h.step]
  exact squares_sub_of_kept h.normal hkept t.move.part

theorem dotProduct_image_step :
    coords point.residuals ⬝ᵥ
        ((Linearization.masked limits point jacobian).toMatrix *ᵥ coords t.move.step) =
      -(t.move.part * (t.keptImage limits point jacobian ⬝ᵥ t.keptImage limits point jacobian +
          t.damped.damping * ∑ e : Fin k, (scale[e] * (t.kept limits point.free)[e]) ^ 2)) -
        t.move.part * (t.lostImage limits point jacobian ⬝ᵥ t.keptImage limits point jacobian) := by
  have hkept := fun e => (t.kept_cases limits point jacobian e).imp_right And.left
  have hslope := dotProduct_image_of_kept h.normal hkept
  rw [h.step, mulVec_smul, dotProduct_smul, hslope, smul_eq_mul]
  show t.move.part * (-(t.keptImage limits point jacobian ⬝ᵥ t.keptImage limits point jacobian +
    _) - t.lostImage limits point jacobian ⬝ᵥ t.keptImage limits point jacobian) = _
  simp only [coords_apply]
  ring

theorem euclid_image_sq :
    euclid ((Linearization.ofJacobian limits point jacobian tall).image t.damped.workspace
        t.move.step) ^ 2 =
      t.move.part ^ 2 *
        (t.keptImage limits point jacobian ⬝ᵥ t.keptImage limits point jacobian) := by
  rw [Linearization.euclid_image h.damped.workspace, h.step, mulVec_smul, smul_dotProduct,
    dotProduct_smul, smul_eq_mul, smul_eq_mul, ← mul_assoc, ← pow_two]
  rfl

/-- What is dropped has an image against that of what is kept. -/
theorem lostImage_dotProduct_le :
    t.lostImage limits point jacobian ⬝ᵥ t.keptImage limits point jacobian ≤
      -(t.lostImage limits point jacobian ⬝ᵥ t.lostImage limits point jacobian) := by
  have hcross := dotProduct_image_dropped_nonpos h.damped.damping_nonneg h.normal
    (t.kept_cases limits point jacobian)
  have hsplit : (Linearization.masked limits point jacobian).toMatrix *ᵥ coords t.whole =
      t.lostImage limits point jacobian + t.keptImage limits point jacobian := by
    rw [lostImage, keptImage, mulVec_sub, sub_add_cancel]
  rw [hsplit, add_dotProduct] at hcross
  change t.lostImage limits point jacobian ⬝ᵥ t.lostImage limits point jacobian +
    t.keptImage limits point jacobian ⬝ᵥ t.lostImage limits point jacobian ≤ 0 at hcross
  rw [dotProduct_comm (t.keptImage limits point jacobian)] at hcross
  linarith

theorem predicted_eq (r : Vector ℝ m) :
    (s.judge (.ofJacobian limits point jacobian tall) point t r).predicted =
      s.predict point.norm t.damped.damping t.move.part t.length
        ((Linearization.ofJacobian limits point jacobian tall).image t.damped.workspace
          t.move.step) := by
  have hmax : (Scalar.max t.move.part Scalar.minNormal : ℝ) = t.move.part :=
    max_eq_left h.minNormal_le
  show s.predict point.norm t.region.damping (Scalar.max t.move.part Scalar.minNormal) t.length _ = _
  rw [hmax, h.region]

variable (hnorm : point.norm = euclid point.residuals) (hne : point.norm ≠ 0) (r : Vector ℝ m)

include hnorm hne

/-- The predicted reduction is the fall of the linear model, but for what the dropped components
take from it. -/
theorem predicted_reduction :
    (s.judge (.ofJacobian limits point jacobian tall) point t r).predicted.reduction =
      Linearization.relativeFall (Linearization.masked limits point jacobian) point.residuals
          t.move.step -
        2 * t.move.part *
          (t.lostImage limits point jacobian ⬝ᵥ t.keptImage limits point jacobian) /
          point.norm ^ 2 := by
  have hsquares : point.norm ^ 2 = coords point.residuals ⬝ᵥ coords point.residuals := by
    rw [hnorm, euclid_sq_eq_dotProduct]
  have hmul := s.predict_reduction_mul t.move.part t.length
    ((Linearization.ofJacobian limits point jacobian tall).image t.damped.workspace t.move.step)
    hne h.damped.damping_nonneg h.part_pos.ne'
  have hpart := h.part_pos.ne'
  rw [Linearization.relativeFall, ← hsquares, ← sub_div, eq_div_iff (pow_ne_zero 2 hne),
    h.predicted_eq, hmul, hsquares, h.squares_sub, h.euclid_image_sq, h.length]
  field_simp
  ring

theorem predicted_slope :
    (s.judge (.ofJacobian limits point jacobian tall) point t r).predicted.slope =
      Linearization.relativeSlope (Linearization.masked limits point jacobian) point.residuals
          t.move.step +
        t.move.part * (t.lostImage limits point jacobian ⬝ᵥ t.keptImage limits point jacobian) /
          point.norm ^ 2 := by
  have hsquares : point.norm ^ 2 = coords point.residuals ⬝ᵥ coords point.residuals := by
    rw [hnorm, euclid_sq_eq_dotProduct]
  have hmul := s.predict_slope_mul t.move.part t.length
    ((Linearization.ofJacobian limits point jacobian tall).image t.damped.workspace t.move.step)
    hne h.damped.damping_nonneg
  have hpart := h.part_pos.ne'
  rw [Linearization.relativeSlope, ← hsquares, ← add_div, eq_div_iff (pow_ne_zero 2 hne),
    h.predicted_eq, hmul, h.dotProduct_image_step, h.euclid_image_sq, h.length]
  field_simp
  ring

end IsPart

end Proposal

/-! ### The steps of a fit -/

namespace Setting.Attempts

variable {s : Setting ℝ n m k} {tall : k ≤ m} {trials : ℕ} {x : Vector ℝ n}
  {c : Checkpoint ℝ n m k} {a : Mat ℝ m k} {q : Progress ℝ n m k} {i : Journal ℝ n}
  (h : s.Attempts tall trials x c a q i)

include h

theorem lostImage_eq (t : Proposal ℝ k) :
    t.lostImage s.limits q.point a = t.lostImage s.limits c.point a := by
  simp only [Proposal.lostImage, h.masked_eq, h.free_eq]

theorem keptImage_eq (t : Proposal ℝ k) :
    t.keptImage s.limits q.point a = t.keptImage s.limits c.point a := by
  simp only [Proposal.keptImage, h.masked_eq, h.free_eq]

variable (hoptions : s.options.InRange)
  (hpart : Scalar.minNormal ≤ (s.proposalAt tall c a q).move.part)

include hoptions hpart

theorem isPart : (s.proposalAt tall c a q).IsPart s.limits q.point a tall (s.scaleAt tall c a) where
  damped := by
    rw [← h.modelAt_eq]
    exact h.isDampedStep hoptions
  region := damping_propose
  step := coords_step_propose s _ _ _
  length := length_sq_propose s _ _ _
  minNormal_le := hpart

theorem predicted_reduction (r : Vector ℝ m) :
    (s.judge (s.modelAt tall c a) q.point (s.proposalAt tall c a q) r).predicted.reduction =
      Linearization.relativeFall (Linearization.masked s.limits c.point a) c.point.residuals
          (s.proposalAt tall c a q).move.step -
        2 * (s.proposalAt tall c a q).move.part *
          ((s.proposalAt tall c a q).lostImage s.limits c.point a ⬝ᵥ
            (s.proposalAt tall c a q).keptImage s.limits c.point a) /
          euclid c.point.residuals ^ 2 := by
  rw [h.modelAt_eq, (h.isPart hoptions hpart).predicted_reduction h.norm_eq (h.norm_ne_zero hoptions),
    h.norm_eq, h.masked_eq, h.residuals_eq, h.lostImage_eq, h.keptImage_eq]

theorem predicted_slope (r : Vector ℝ m) :
    (s.judge (s.modelAt tall c a) q.point (s.proposalAt tall c a q) r).predicted.slope =
      Linearization.relativeSlope (Linearization.masked s.limits c.point a) c.point.residuals
          (s.proposalAt tall c a q).move.step +
        (s.proposalAt tall c a q).move.part *
          ((s.proposalAt tall c a q).lostImage s.limits c.point a ⬝ᵥ
            (s.proposalAt tall c a q).keptImage s.limits c.point a) /
          euclid c.point.residuals ^ 2 := by
  rw [h.modelAt_eq, (h.isPart hoptions hpart).predicted_slope h.norm_eq (h.norm_ne_zero hoptions),
    h.norm_eq, h.masked_eq, h.residuals_eq, h.lostImage_eq, h.keptImage_eq]

/-- What is dropped can only raise the predicted reduction. -/
theorem lostImage_le : (s.proposalAt tall c a q).lostImage s.limits c.point a ⬝ᵥ
      (s.proposalAt tall c a q).keptImage s.limits c.point a ≤
    -((s.proposalAt tall c a q).lostImage s.limits c.point a ⬝ᵥ
      (s.proposalAt tall c a q).lostImage s.limits c.point a) := by
  rw [← h.lostImage_eq, ← h.keptImage_eq]
  exact (h.isPart hoptions hpart).lostImage_dotProduct_le

end Setting.Attempts

section Fit

variable {store : Store ℝ} {function : ResidualFunction ℝ} {options : Options ℝ}
  {initial : Option (Array ℝ)} {start : Start store function}

/-- In exact arithmetic, for every trial step of every fit from whose damped step no component is
dropped, however much limits and caps shorten it: what is predicted is what the linear model, without
the columns that point outward, falls along the step, and the slope is that of the linear model. The
damping and the rank do not matter. -/
theorem predicted_of_kept (hstart : prepare store function options initial = .ok start)
    (trials : ℕ) :
    let s := Setting.ofStore store function options start.mode
    ∀ c a q i, s.Attempts start.tall trials start.x c a q i →
      let t := s.proposalAt start.tall c a q
      let jacobian := Linearization.masked s.limits c.point a
      t.kept s.limits c.point.free = t.whole → Scalar.minNormal ≤ t.move.part →
      euclid c.point.residuals ≠ 0 ∧
      ∀ r, (s.judge (s.modelAt start.tall c a) q.point t r).predicted =
        ⟨Linearization.relativeFall jacobian c.point.residuals t.move.step,
          Linearization.relativeSlope jacobian c.point.residuals t.move.step⟩ := by
  intro s c a q i h t jacobian hkept hpart
  have hoptions : s.options.InRange := Options.validate_ok.1 (prepare_ok hstart).1
  have hlost : t.lostImage s.limits c.point a = 0 := t.lostImage_of_kept _ _ _ hkept
  have hnorm := h.norm_ne_zero hoptions
  rw [h.norm_eq, h.residuals_eq] at hnorm
  refine ⟨hnorm, fun r => ?_⟩
  have hreduction := h.predicted_reduction hoptions hpart r
  have hslope := h.predicted_slope hoptions hpart r
  change _ = _ - _ * (t.lostImage s.limits c.point a ⬝ᵥ _) / _ at hreduction
  change _ = _ + _ * (t.lostImage s.limits c.point a ⬝ᵥ _) / _ at hslope
  rw [hlost, zero_dotProduct, mul_zero, zero_div, sub_zero] at hreduction
  rw [hlost, zero_dotProduct, mul_zero, zero_div, add_zero] at hslope
  exact congrArg₂ Prediction.mk hreduction hslope

end Fit

/-! ### A step that is damped and cut by a cap -/

namespace Distant

/-- A parameter that starts at one, with steps of at most fifty. -/
noncomputable def store : Store ℝ := ⟨#[{ value := some 1, maxStep := some 50 }]⟩

noncomputable def slope : Mat ℝ 1 1 := Vector.replicate 1 (Vector.replicate 1 1)

noncomputable def offset : Vector ℝ 1 := Vector.replicate 1 (-201)

noncomputable def function : ResidualFunction ℝ := .ofAffine slope offset

noncomputable def start : Vector ℝ 1 := Vector.replicate 1 1

theorem tall : 1 ≤ 1 := le_rfl

theorem untied (i : Fin store.size) : (store.get i).tie = none :=
  (Fin.forall_fin_one (p := fun i => (store.get i).tie = none)).2 rfl i

theorem prepared : prepare store function .default (some #[1]) = .ok ⟨.analytic, start, tall⟩ := by
  refine prepare_default rfl rfl (Store.within_iff.2 ?_) (by decide) le_rfl
  exact Fin.forall_fin_one.2 fun _ => ⟨nofun, nofun⟩

noncomputable def setting : Setting ℝ 1 1 1 := .ofStore store function .default .analytic

noncomputable def checkpoint : Checkpoint ℝ 1 1 1 :=
  setting.firstCheckpoint (firstPoint store function slope offset start)

noncomputable def columns : Mat ℝ 1 1 := store.freeColumns slope

noncomputable def progress : Progress ℝ 1 1 1 := setting.progressAt tall checkpoint columns

noncomputable def proposal : Proposal ℝ 1 := setting.proposalAt tall checkpoint columns progress

theorem atLower_eq (e : Fin 1) (x : ℝ) : setting.limits.atLower e x = false :=
  (Fin.forall_fin_one (p := fun e => setting.limits.atLower e x = false)).2 rfl e

theorem atUpper_eq (e : Fin 1) (x : ℝ) : setting.limits.atUpper e x = false :=
  (Fin.forall_fin_one (p := fun e => setting.limits.atUpper e x = false)).2 rfl e

theorem held_eq : setting.limits.held checkpoint.point columns = ∅ := by
  refine Finset.filter_false_of_mem fun e _ => ?_
  rw [StepLimits.pointsOutward_iff, atLower_eq, atUpper_eq]
  simp

theorem getElem_columns (l e : Fin 1) : columns[l][e] = 1 := by
  refine (Mat.getElem_ofFn _ l e).trans ?_
  obtain rfl : l = 0 := Subsingleton.elim _ _
  exact getElem_replicate _ _

theorem getElem_residuals (l : Fin 1) : checkpoint.point.residuals[l] = -200 := by
  refine (getElem_ofFn _ l).trans ?_
  show ∑ j : Fin 1, slope[l][j] * start[j] + offset[l] = -200
  rw [Fin.sum_univ_one, slope, start, offset, getElem_replicate, getElem_replicate,
    getElem_replicate]
  norm_num

theorem free_eq (e : Fin 1) : checkpoint.point.free[e] = 1 := by
  have hone : ∀ i : Fin 1, start[i] = 1 := Fin.forall_fin_one.2 rfl
  exact (getElem_map _ _ e).trans (hone _)

theorem euclid_column (e : Fin 1) : euclid (columns.column e) = 1 := by
  rw [euclid_one, Mat.getElem_column, getElem_columns, abs_one]

theorem scale_eq (e : Fin 1) : (setting.scaleAt tall checkpoint columns)[e] = 1 := by
  rw [Setting.scaleAt_first (StepLimits.inward_of_held held_eq e) rfl rfl (by simp [euclid_column]),
    euclid_column]

theorem radius_eq : progress.region.radius = 100 := by
  have hradius : progress.region.radius = _ :=
    Setting.radius_one (StepLimits.inward_of_held held_eq 0) rfl rfl (by simp [euclid_column])
      (by simp [free_eq])
  rw [hradius, euclid_column, free_eq, abs_one, one_mul, mul_one]
  show (100.0 : ℝ) = 100
  norm_num

theorem exists_attempt (trials : ℕ) :
    ∃ i, setting.Attempts tall trials start checkpoint columns progress i := by
  refine exists_attempt_affine trials untied (ResidualFunction.isAffine_ofAffine slope offset) ?_
  apply Setting.lt_cosineAt (s := setting) (e := (0 : Fin 1)) (by norm_num)
    (StepLimits.inward_of_held held_eq 0) rfl
  show (1e-10 : ℝ) * euclid (columns.column 0) * euclid checkpoint.point.residuals <
    |dot checkpoint.point.residuals (columns.column 0)|
  rw [euclid_column, euclid_one, dot_eq, Fin.sum_univ_one, getElem_residuals, Mat.getElem_column,
    getElem_columns]
  norm_num

noncomputable def model : StepModel ℝ 1 :=
  (setting.modelAt tall checkpoint columns).stepModel (setting.scaleAt tall checkpoint columns)

theorem undamped_eq (e : Fin 1) : (model.undamped progress.workspace)[e] = -200 := by
  have hstep : euclid (columns.column e) ^ 2 * (model.undamped progress.workspace)[e] =
      dot (columns.column e) checkpoint.point.residuals := Setting.undamped_one held_eq _ e
  rwa [euclid_column, one_pow, one_mul, dot_eq, Fin.sum_univ_one, Mat.getElem_column,
    getElem_columns, getElem_residuals, one_mul] at hstep

theorem scale_pos (e : Fin 1) : 0 < model.scale[e] := (scale_eq e).symm ▸ one_pos

theorem scaledNorm_eq (x : Vector ℝ 1) : model.scaledNorm x = |x[(0 : Fin 1)]| := by
  have hlength : model.scaledNorm x = _ := Setting.scaledNorm_stepModel_one
    (StepLimits.inward_of_held held_eq 0) rfl rfl (by simp [euclid_column]) x
  rw [hlength, euclid_column, one_mul]

theorem exists_presents : ∃ order, model.Presents progress.workspace order 1 fun _ => -200 := by
  have hpresents := Linearization.presents_ofJacobian setting.limits checkpoint.point columns tall
    (setting.scaleAt tall checkpoint columns)
  rw [StepLimits.masked_of_held_eq_empty held_eq] at hpresents
  have hgram : columns.toMatrixᵀ * columns.toMatrix = 1 := by
    ext i e
    rw [Subsingleton.elim i e]
    simp [mul_apply, getElem_columns]
  have hmoment : columns.toMatrixᵀ *ᵥ coords checkpoint.point.residuals = fun _ => -200 := by
    ext e
    simp [mulVec, dotProduct, getElem_columns, getElem_residuals]
  rw [hgram, hmoment] at hpresents
  exact ⟨_, hpresents⟩

/-- The whole way is twice as long as the radius, and what is damped is as long as that. -/
theorem damped_eq : proposal.damped.damping = 1 ∧ model.scaledNorm proposal.damped.x = 100 := by
  obtain ⟨order, h⟩ := exists_presents
  have hdiagonal : ∀ j : Fin 1, progress.workspace[j][j] ≠ 0 := by
    intro j hzero
    have hgram := h.sum_upperPart_mul j j
    rw [Fin.sum_univ_one, Subsingleton.elim 0 j, upperPart_self, hzero] at hgram
    simp at hgram
  have hroot : model.scaledNorm (model.stepAt progress.workspace 1) = 100 := by
    have hproduct := h.gram_mul_scaledNorm scale_pos zero_le_one (h.stepAt_normal scale_pos one_pos)
    have hscale : model.scale[(0 : Fin 1)] = 1 := scale_eq 0
    rw [hscale, one_apply_eq] at hproduct
    norm_num at hproduct
    linarith
  have hundamped : model.scaledNorm (model.undamped progress.workspace) = 200 := by
    rw [scaledNorm_eq, undamped_eq]
    norm_num
  have hstep := h.dampedStep_one scale_pos hdiagonal (by norm_num) one_pos hroot
    (by rw [hundamped]; exact minNormal_le_one.trans (by norm_num)) (by rw [hundamped]; norm_num)
  have hproposal : proposal.damped = model.dampedStep progress.workspace 100 0 := by
    rw [← radius_eq]
    rfl
  rw [hproposal]
  exact hstep

theorem kept_eq (free : Vector ℝ 1) (t : Proposal ℝ 1) : t.kept setting.limits free = t.whole := by
  refine ext_getElem fun e => ?_
  rw [Proposal.kept, getElem_ofFn, StepLimits.dropOutward, atLower_eq, atUpper_eq]
  simp

theorem abs_whole (e : Fin 1) : |proposal.whole[e]| = 100 := by
  obtain rfl : e = 0 := Subsingleton.elim _ _
  rw [Proposal.whole, getElem_map, abs_neg]
  exact (scaledNorm_eq _).symm.trans damped_eq.2

theorem le_part_iff {t : ℝ} (ht : 0 < t) (hone : t ≤ 1) : t ≤ proposal.move.part ↔ t * 100 ≤ 50 := by
  have hlower : ∀ e : Fin 1, setting.limits.lower[e] = none := Fin.forall_fin_one.2 rfl
  have hupper : ∀ e : Fin 1, setting.limits.upper[e] = none := Fin.forall_fin_one.2 rfl
  have hcap : ∀ e : Fin 1, setting.limits.maxStep[e] = some 50 := Fin.forall_fin_one.2 rfl
  have hinward : ∀ e : Fin 1, (setting.limits.inward checkpoint.point.free proposal.whole)[e] =
      proposal.whole[e] := by
    intro e
    simp [StepLimits.inward, hlower, hupper]
  have hlength (e : Fin 1) : |t * (setting.limits.inward checkpoint.point.free proposal.whole)[e]| =
      t * 100 := by
    rw [hinward, abs_mul, abs_of_pos ht, abs_whole]
  have hrestrict : t ≤ proposal.move.part ↔
      setting.limits.Admits checkpoint.point.free proposal.whole t :=
    StepLimits.le_restrict_iff (by simp [hlower]) (by simp [hupper]) (by simp [hcap]) ht hone
  refine hrestrict.trans
    ⟨fun h => ?_, fun h => ⟨by simp [hlower], by simp [hupper], fun e cap hc => ?_⟩⟩
  · exact (hlength 0).symm.trans_le (h.cap 0 50 (hcap 0))
  · obtain rfl : 50 = cap := Option.some.inj ((hcap e).symm.trans hc)
    exact (hlength e).trans_le h

theorem part_eq : proposal.move.part = 1 / 2 := by
  have hge : 1 / 2 ≤ proposal.move.part :=
    (le_part_iff one_half_pos (by norm_num)).2 (by norm_num)
  have hle := (le_part_iff (one_half_pos.trans_le hge)
    (StepLimits.restrict_part_le_one _ _ _)).1 le_rfl
  linarith

end Distant

/-- The first step of a fit whose residual vanishes far away is damped, and its cap leaves half of it. -/
theorem predicted_of_kept_distant : ∃ i,
    Distant.setting.Attempts Distant.tall 1 Distant.start Distant.checkpoint Distant.columns
      Distant.progress i ∧
    Distant.proposal.damped.damping = 1 ∧
    Distant.proposal.kept Distant.setting.limits Distant.checkpoint.point.free =
      Distant.proposal.whole ∧
    Distant.proposal.move.part = 1 / 2 ∧
    Scalar.minNormal ≤ Distant.proposal.move.part ∧
    ∀ r, (Distant.setting.judge
        (Distant.setting.modelAt Distant.tall Distant.checkpoint Distant.columns)
        Distant.progress.point Distant.proposal r).predicted =
      ⟨Linearization.relativeFall (Linearization.masked Distant.setting.limits
          Distant.checkpoint.point Distant.columns) Distant.checkpoint.point.residuals
          Distant.proposal.move.step,
        Linearization.relativeSlope (Linearization.masked Distant.setting.limits
          Distant.checkpoint.point Distant.columns) Distant.checkpoint.point.residuals
          Distant.proposal.move.step⟩ := by
  obtain ⟨i, h⟩ := Distant.exists_attempt 1
  have hkept := Distant.kept_eq Distant.checkpoint.point.free Distant.proposal
  have hpart : Scalar.minNormal ≤ Distant.proposal.move.part := by
    rw [Distant.part_eq]
    exact (minNormal_le_zpow (e := -1) (by norm_num)).trans (by norm_num)
  obtain ⟨-, hpredicted⟩ := predicted_of_kept Distant.prepared 1 _ _ _ _ h hkept hpart
  exact ⟨i, h, Distant.damped_eq.1, hkept, Distant.part_eq, hpart, hpredicted⟩

section Fit

variable {store : Store ℝ} {function : ResidualFunction ℝ} {options : Options ℝ}
  {initial : Option (Array ℝ)} {start : Start store function}

/-- In exact arithmetic, for every trial step of every fit, whatever was dropped from its damped step:
the predicted reduction is at least what the linear model falls along the step, and they are the same
exactly if the dropped components together have no image. Then no more is predicted than there is. -/
theorem predicted_of_dropped (hstart : prepare store function options initial = .ok start)
    (trials : ℕ) :
    let s := Setting.ofStore store function options start.mode
    ∀ c a q i, s.Attempts start.tall trials start.x c a q i →
      let t := s.proposalAt start.tall c a q
      let fall := Linearization.relativeFall (Linearization.masked s.limits c.point a)
        c.point.residuals t.move.step
      let lost := t.lostImage s.limits c.point a
      Scalar.minNormal ≤ t.move.part →
      ∀ r, let reduction := (s.judge (s.modelAt start.tall c a) q.point t r).predicted.reduction
        reduction = fall - 2 * t.move.part * (lost ⬝ᵥ t.keptImage s.limits c.point a) /
          euclid c.point.residuals ^ 2 ∧
        fall + 2 * t.move.part * (lost ⬝ᵥ lost) / euclid c.point.residuals ^ 2 ≤ reduction ∧
        (reduction = fall ↔ lost = 0) ∧ (lost = 0 → reduction ≤ 1) := by
  intro s c a q i h t fall lost hpart r reduction
  have hoptions : s.options.InRange := Options.validate_ok.1 (prepare_ok hstart).1
  have hreduction : reduction = fall - 2 * t.move.part *
      (lost ⬝ᵥ t.keptImage s.limits c.point a) / euclid c.point.residuals ^ 2 :=
    h.predicted_reduction hoptions hpart r
  have hlost : lost ⬝ᵥ t.keptImage s.limits c.point a ≤ -(lost ⬝ᵥ lost) :=
    h.lostImage_le hoptions hpart
  have hpos : 0 < 2 * t.move.part := mul_pos two_pos (minNormal_pos.trans_le hpart)
  have hnorm := h.norm_ne_zero hoptions
  rw [h.norm_eq, h.residuals_eq] at hnorm
  have hsquares : 0 < euclid c.point.residuals ^ 2 := by positivity
  have hle : fall + 2 * t.move.part * (lost ⬝ᵥ lost) / euclid c.point.residuals ^ 2 ≤ reduction := by
    have hproduct := mul_le_mul_of_nonneg_left hlost hpos.le
    have hquotient := div_le_div_of_nonneg_right hproduct hsquares.le
    rw [mul_neg, neg_div] at hquotient
    linarith
  have hiff : reduction = fall ↔ lost = 0 := by
    constructor
    · intro heq
      -- the bound leaves no room for an image of what was dropped
      have hquotient : 2 * t.move.part * (lost ⬝ᵥ lost) / euclid c.point.residuals ^ 2 ≤ 0 := by
        linarith
      have hzero : lost ⬝ᵥ lost ≤ 0 := by
        by_contra hlt
        exact hquotient.not_gt (div_pos (mul_pos hpos (not_le.1 hlt)) hsquares)
      exact dotProduct_self_eq_zero.1 (le_antisymm hzero (dotProduct_self_nonneg lost))
    · intro hzero
      rw [hreduction, hzero, zero_dotProduct, mul_zero, zero_div, sub_zero]
  refine ⟨hreduction, hle, hiff, fun hzero => ?_⟩
  rw [hiff.2 hzero]
  exact Linearization.relativeFall_le_one _ _ _

end Fit

/-! ### A dropped component -/

namespace Cornered

/-- Two parameters that start at zero, the first of them on its lower limit. -/
noncomputable def store : Store ℝ :=
  ⟨#[{ value := some 0, bounds := ⟨some 0, none⟩ }, .ofValue 0]⟩

noncomputable def start : Vector ℝ 2 := #v[0, 0]

theorem tall : 2 ≤ 2 := le_rfl

theorem forall_places {P : Fin store.size → Prop} (hfirst : P (0 : Fin 2)) (hsecond : P (1 : Fin 2))
    (i : Fin store.size) : P i :=
  (Fin.forall_fin_two (p := P)).2 ⟨hfirst, hsecond⟩ i

theorem untied (i : Fin store.size) : (store.get i).tie = none :=
  forall_places (P := fun i => (store.get i).tie = none) rfl rfl i

theorem prepared (slope : Mat ℝ 2 2) (offset : Vector ℝ 2) :
    prepare store (.ofAffine slope offset) .default (some #[0, 0]) =
      .ok ⟨.analytic, start, tall⟩ := by
  refine prepare_default rfl rfl (Store.within_iff.2 ?_) (by decide) le_rfl
  apply forall_places
  · refine fun _ => ⟨fun l hl => ?_, nofun⟩
    obtain rfl : (0 : ℝ) = l := Option.some.inj hl
    exact le_rfl
  · exact fun _ => ⟨nofun, nofun⟩

theorem free_eq (function : ResidualFunction ℝ) (slope : Mat ℝ function.count 2)
    (offset : Vector ℝ function.count) (e : Fin 2) :
    (firstPoint store function slope offset start).free[e] = 0 := by
  have hzero : ∀ i : Fin 2, start[i] = 0 := Fin.forall_fin_two.2 ⟨rfl, rfl⟩
  exact (getElem_map _ _ e).trans (hzero _)

variable (function : ResidualFunction ℝ)

noncomputable def setting : Setting ℝ 2 function.count 2 :=
  .ofStore store function .default .analytic

theorem atUpper_eq (e : Fin 2) (x : ℝ) : (setting function).limits.atUpper e x = false :=
  (Fin.forall_fin_two (p := fun e => (setting function).limits.atUpper e x = false)).2 ⟨rfl, rfl⟩ e

theorem atLower_zero {x : Vector ℝ 2} (h : x[(0 : Fin 2)] = 0) :
    (setting function).limits.atLower 0 x[(0 : Fin 2)] = true := by
  rw [h]
  exact decide_eq_true le_rfl

theorem atLower_one (x : ℝ) : (setting function).limits.atLower 1 x = false := rfl

/-- A step that leaves the first parameter alone is not shortened. -/
theorem part_eq {x step : Vector ℝ 2} (hx : x[(0 : Fin 2)] = 0)
    (hstep : (setting function).limits.dropOutward x step 0 = 0) :
    ((setting function).limits.restrict x step).1 = 1 := by
  set limits := (setting function).limits
  have hlower : ∀ e : Fin 2, ∀ l ∈ limits.lower[e], l ≤ x[e] := by
    refine Fin.forall_fin_two.2 ⟨fun l hl => ?_, nofun⟩
    obtain rfl : (0 : ℝ) = l := Option.some.inj hl
    exact hx.ge
  have hupper : ∀ e : Fin 2, ∀ u ∈ limits.upper[e], x[e] ≤ u := Fin.forall_fin_two.2 ⟨nofun, nofun⟩
  refine StepLimits.restrict_fst_eq_one hlower hupper (Fin.forall_fin_two.2 ⟨nofun, nofun⟩)
    ⟨Fin.forall_fin_two.2 ⟨fun _ l hl => ?_, fun _ => nofun⟩,
      Fin.forall_fin_two.2 ⟨fun _ => nofun, fun _ => nofun⟩, Fin.forall_fin_two.2 ⟨nofun, nofun⟩⟩
  obtain rfl : (0 : ℝ) = l := Option.some.inj hl
  rw [← StepLimits.dropOutward_eq hlower hupper, hstep, hx]
  norm_num

end Cornered

namespace Coupled

/-- Both residuals ask for a larger second parameter, and only the first of them for a larger first
one: with both free, that would have to make up for the second. -/
noncomputable def slope : Mat ℝ 2 2 := .ofFn !![1, 1; 0, 1]

noncomputable def offset : Vector ℝ 2 := #v[-1, -2]

noncomputable def function : ResidualFunction ℝ := .ofAffine slope offset

noncomputable def setting : Setting ℝ 2 2 2 := Cornered.setting function

noncomputable def checkpoint : Checkpoint ℝ 2 2 2 :=
  setting.firstCheckpoint (firstPoint Cornered.store function slope offset Cornered.start)

noncomputable def columns : Mat ℝ 2 2 := Cornered.store.freeColumns slope

noncomputable def progress : Progress ℝ 2 2 2 := setting.progressAt Cornered.tall checkpoint columns

noncomputable def proposal : Proposal ℝ 2 :=
  setting.proposalAt Cornered.tall checkpoint columns progress

theorem toMatrix_columns : columns.toMatrix = !![1, 1; 0, 1] := by
  ext i e
  fin_cases i <;> fin_cases e <;> rfl

theorem coords_residuals : coords checkpoint.point.residuals = ![-1, -2] := by
  have hresiduals : checkpoint.point.residuals = affine slope offset Cornered.start := rfl
  ext i
  rw [coords_apply, hresiduals, affine, getElem_ofFn, Fin.sum_univ_two]
  fin_cases i
  · show (1 : ℝ) * 0 + 1 * 0 + -1 = -1
    norm_num
  · show (0 : ℝ) * 0 + 1 * 0 + -2 = -2
    norm_num

theorem free_eq (e : Fin 2) : checkpoint.point.free[e] = 0 :=
  Cornered.free_eq function slope offset e

theorem slope_eq (e : Fin 2) :
    (columns.toMatrixᵀ *ᵥ coords checkpoint.point.residuals) e = ![-1, -3] e := by
  rw [toMatrix_columns, coords_residuals]
  fin_cases e
  · simp [mulVec, dotProduct, Fin.sum_univ_two]
  · simp [mulVec, dotProduct, Fin.sum_univ_two]
    norm_num

theorem held_eq : setting.limits.held checkpoint.point columns = ∅ := by
  refine Finset.filter_false_of_mem fun e _ => ?_
  have hslope := slope_eq e
  rw [transpose_mulVec_apply, dot_comm] at hslope
  rw [StepLimits.pointsOutward_iff, hslope, setting, Cornered.atUpper_eq]
  revert e
  refine Fin.forall_fin_two.2 ⟨fun _ _ => ?_, fun _ _ => ?_⟩
  · simp
  · rw [Cornered.atLower_one]
    simp

theorem masked_eq : Linearization.masked setting.limits checkpoint.point columns = columns :=
  StepLimits.masked_of_held_eq_empty held_eq

theorem getElem_columns (i e : Fin 2) : columns[i][e] = !![1, 1; 0, 1] i e := by
  rw [← Mat.toMatrix_apply, toMatrix_columns]

theorem euclid_column_sq (e : Fin 2) : euclid (columns.column e) ^ 2 = ![1, 2] e := by
  rw [euclid_sq, Fin.sum_univ_two, Mat.getElem_column, Mat.getElem_column, getElem_columns,
    getElem_columns]
  revert e
  refine Fin.forall_fin_two.2 ⟨?_, ?_⟩
  · norm_num
  · norm_num

theorem euclid_column_ne (e : Fin 2) : euclid (columns.column e) ≠ 0 := by
  intro hzero
  have hsquares := euclid_column_sq e
  rw [hzero] at hsquares
  revert e
  refine Fin.forall_fin_two.2 ⟨fun _ h => ?_, fun _ h => ?_⟩
  · norm_num at h
  · norm_num at h

theorem scale_sq (e : Fin 2) :
    (setting.scaleAt Cornered.tall checkpoint columns)[e] ^ 2 = ![1, 2] e := by
  rw [Setting.scaleAt_first (StepLimits.inward_of_held held_eq e) rfl rfl (euclid_column_ne e),
    euclid_column_sq]

theorem radius_eq : progress.region.radius = 100 := by
  refine (Setting.radius_of_zero rfl rfl free_eq).trans ?_
  show (100.0 : ℝ) = 100
  norm_num

noncomputable def model : Linearization ℝ 2 2 := setting.modelAt Cornered.tall checkpoint columns

noncomputable def scale : Vector ℝ 2 := setting.scaleAt Cornered.tall checkpoint columns

noncomputable def whole : Vector ℝ 2 := (model.stepModel scale).undamped model.r

theorem isDampedStep : (model.stepModel scale).IsDampedStep model.r ⟨0, whole, model.r⟩ :=
  StepModel.isDampedStep_undamped (Linearization.distinct_ofJacobian _ _ _ Cornered.tall)
    (Linearization.revealsRank_ofJacobian _ _ _ Cornered.tall)

theorem whole_eq : whole[(0 : Fin 2)] = 1 ∧ whole[(1 : Fin 2)] = -2 := by
  have hnormal : ∀ e, (columns.toMatrixᵀ *ᵥ (columns.toMatrix *ᵥ coords whole)) e = ![-1, -3] e := by
    intro e
    have hcolumn := Linearization.normal_of_isDampedStep isDampedStep e
    rw [masked_eq, slope_eq, zero_mul, zero_mul, add_zero] at hcolumn
    exact hcolumn
  have hfirst := hnormal 0
  have hsecond := hnormal 1
  rw [toMatrix_columns] at hfirst hsecond
  simp [mulVec, dotProduct, Fin.sum_univ_two] at hfirst hsecond
  constructor
  · linarith
  · linarith

theorem damped_eq : proposal.damped = ⟨0, whole, model.r⟩ := by
  refine StepModel.dampedStep_of_near ?_
  have hlength : (model.stepModel scale).scaledNorm whole = 3 := by
    rw [StepModel.scaledNorm, norm_toList, ← Real.sqrt_sq (euclid_nonneg _), euclid_sq,
      Fin.sum_univ_two, getElem_scaleBy, getElem_scaleBy, mul_pow, mul_pow]
    show √(scale[(0 : Fin 2)] ^ 2 * whole[(0 : Fin 2)] ^ 2 +
      scale[(1 : Fin 2)] ^ 2 * whole[(1 : Fin 2)] ^ 2) = 3
    rw [scale, scale_sq, scale_sq, whole_eq.1, whole_eq.2]
    rw [Real.sqrt_eq_iff_mul_self_eq (by norm_num) (by norm_num)]
    norm_num
  change (model.stepModel scale).scaledNorm whole ≤ 1.1 * progress.region.radius
  rw [hlength, radius_eq]
  norm_num

theorem coords_whole : coords proposal.whole = ![-1, 2] := by
  have hwhole : ∀ e : Fin 2, proposal.whole[e] = -whole[e] := by
    intro e
    rw [Proposal.whole, getElem_map, damped_eq]
  ext e
  rw [coords_apply, hwhole]
  revert e
  refine Fin.forall_fin_two.2 ⟨?_, ?_⟩
  · rw [whole_eq.1]
    simp
  · rw [whole_eq.2]
    simp

/-- The first component leads out of the limit and is dropped. -/
theorem coords_kept :
    coords (proposal.kept setting.limits checkpoint.point.free) = ![0, 2] := by
  have hwhole : ∀ e : Fin 2, proposal.whole[e] = ![-1, 2] e := congrFun coords_whole
  ext e
  rw [coords_apply, Proposal.kept, getElem_ofFn, StepLimits.dropOutward, hwhole, setting,
    Cornered.atUpper_eq]
  revert e
  refine Fin.forall_fin_two.2 ⟨?_, ?_⟩
  · rw [Cornered.atLower_zero function (free_eq 0)]
    simp
  · rw [Cornered.atLower_one]
    simp

theorem part_eq : proposal.move.part = 1 :=
  Cornered.part_eq function (free_eq 0) ((getElem_ofFn _ _).symm.trans (congrFun coords_kept 0))

theorem keptImage_eq : proposal.keptImage setting.limits checkpoint.point columns = ![2, 2] := by
  rw [Proposal.keptImage, masked_eq, coords_kept, toMatrix_columns]
  ext i
  fin_cases i
  · simp [mulVec, dotProduct, Fin.sum_univ_two]
  · simp [mulVec, dotProduct, Fin.sum_univ_two]

theorem lostImage_eq : proposal.lostImage setting.limits checkpoint.point columns = ![-1, 0] := by
  rw [Proposal.lostImage, masked_eq, coords_whole, coords_kept, toMatrix_columns]
  ext i
  fin_cases i
  · simp [mulVec, dotProduct, Fin.sum_univ_two]
  · simp [mulVec, dotProduct, Fin.sum_univ_two]

theorem squares_eq : euclid checkpoint.point.residuals ^ 2 = 5 := by
  rw [euclid_sq_eq_dotProduct, coords_residuals]
  simp [dotProduct, Fin.sum_univ_two]
  norm_num

theorem exists_attempt (trials : ℕ) :
    ∃ i, setting.Attempts Cornered.tall trials Cornered.start checkpoint columns progress i := by
  refine exists_attempt_affine trials Cornered.untied
    (ResidualFunction.isAffine_ofAffine slope offset) ?_
  apply Setting.lt_cosineAt (s := setting) (e := (1 : Fin 2)) (by norm_num)
    (StepLimits.inward_of_held held_eq 1) rfl
  have hslope : dot checkpoint.point.residuals (columns.column 1) = -3 := by
    rw [dot_comm, ← transpose_mulVec_apply]
    exact slope_eq 1
  have hcolumn : euclid (columns.column 1) ≤ 2 := by
    apply (pow_le_pow_iff_left₀ (euclid_nonneg _) zero_le_two two_ne_zero).1
    rw [euclid_column_sq]
    norm_num
  have hresiduals : euclid checkpoint.point.residuals ≤ 3 := by
    apply (pow_le_pow_iff_left₀ (euclid_nonneg _) zero_le_three two_ne_zero).1
    rw [squares_eq]
    norm_num
  have hproduct := mul_le_mul hcolumn hresiduals (euclid_nonneg _) zero_le_two
  show 1e-10 * euclid (columns.column 1) * euclid checkpoint.point.residuals <
    |dot checkpoint.point.residuals (columns.column 1)|
  rw [hslope, abs_neg, abs_of_pos three_pos, mul_assoc]
  linarith

theorem coords_step : coords proposal.move.step = ![0, 2] := by
  obtain ⟨i, h⟩ := exists_attempt 0
  have hpart : coords proposal.move.step = proposal.move.part •
      coords (proposal.kept setting.limits progress.point.free) :=
    Setting.coords_step_propose setting _ _ progress
  rw [hpart, part_eq, one_smul, h.free_eq, coords_kept]

/-- The step gains four fifths of what there is. -/
theorem fall_eq : Linearization.relativeFall
    (Linearization.masked setting.limits checkpoint.point columns) checkpoint.point.residuals
    proposal.move.step = 4 / 5 := by
  rw [Linearization.relativeFall, masked_eq, coords_step, toMatrix_columns, coords_residuals]
  simp [dotProduct, Fin.sum_univ_two]
  norm_num

theorem minNormal_le_part : Scalar.minNormal ≤ proposal.move.part := by
  rw [part_eq]
  exact minNormal_le_one

end Coupled

/-- In the first step of a fit, the component of a parameter on its limit is dropped. What is lost has
an image, and more is predicted than there is to gain. -/
theorem predicted_of_dropped_coupled : ∃ i,
    Coupled.setting.Attempts Cornered.tall 1 Cornered.start Coupled.checkpoint Coupled.columns
      Coupled.progress i ∧
    Scalar.minNormal ≤ Coupled.proposal.move.part ∧
    ∀ r, 6 / 5 ≤
      (Coupled.setting.judge
        (Coupled.setting.modelAt Cornered.tall Coupled.checkpoint Coupled.columns)
        Coupled.progress.point Coupled.proposal r).predicted.reduction := by
  obtain ⟨i, h⟩ := Coupled.exists_attempt 1
  refine ⟨i, h, Coupled.minNormal_le_part, fun r => ?_⟩
  obtain ⟨-, hle, -, -⟩ :=
    predicted_of_dropped (Cornered.prepared Coupled.slope Coupled.offset) 1 _ _ _ _ h
      Coupled.minNormal_le_part r
  change Linearization.relativeFall
      (Linearization.masked Coupled.setting.limits Coupled.checkpoint.point Coupled.columns)
      Coupled.checkpoint.point.residuals Coupled.proposal.move.step +
    2 * Coupled.proposal.move.part *
      (Coupled.proposal.lostImage Coupled.setting.limits Coupled.checkpoint.point Coupled.columns ⬝ᵥ
        Coupled.proposal.lostImage Coupled.setting.limits Coupled.checkpoint.point
          Coupled.columns) / euclid Coupled.checkpoint.point.residuals ^ 2 ≤ _ at hle
  rw [Coupled.fall_eq, Coupled.part_eq, Coupled.lostImage_eq, Coupled.squares_eq] at hle
  refine le_trans ?_ hle
  simp [dotProduct, Fin.sum_univ_two]
  norm_num

/-- A prediction of eight fifths of the sum of squares, for a step along which the linear model falls
by four fifths. -/
theorem exists_predicted_above_fall :
    prepare Cornered.store Coupled.function .default (some #[0, 0]) =
      .ok ⟨.analytic, Cornered.start, Cornered.tall⟩ ∧
    (∃ i, Coupled.setting.Attempts Cornered.tall 1 Cornered.start Coupled.checkpoint Coupled.columns
      Coupled.progress i) ∧
    Coupled.setting.limits.atLower 0 Coupled.checkpoint.point.free[(0 : Fin 2)] = true ∧
    Coupled.proposal.whole[(0 : Fin 2)] = -1 ∧ Coupled.proposal.move.step[(0 : Fin 2)] = 0 ∧
    Linearization.relativeFall
      (Linearization.masked Coupled.setting.limits Coupled.checkpoint.point Coupled.columns)
      Coupled.checkpoint.point.residuals Coupled.proposal.move.step = 4 / 5 ∧
    ∀ r, (Coupled.setting.judge
      (Coupled.setting.modelAt Cornered.tall Coupled.checkpoint Coupled.columns)
      Coupled.progress.point Coupled.proposal r).predicted.reduction = 8 / 5 := by
  obtain ⟨i, h⟩ := Coupled.exists_attempt 1
  refine ⟨Cornered.prepared _ _, ⟨i, h⟩, Cornered.atLower_zero _ (Coupled.free_eq 0),
    congrFun Coupled.coords_whole 0, ?_, Coupled.fall_eq, fun r => ?_⟩
  · exact congrFun Coupled.coords_step 0
  · refine (h.predicted_reduction inRange_default Coupled.minNormal_le_part r).trans ?_
    change Linearization.relativeFall
        (Linearization.masked Coupled.setting.limits Coupled.checkpoint.point Coupled.columns)
        Coupled.checkpoint.point.residuals Coupled.proposal.move.step -
      2 * Coupled.proposal.move.part *
        (Coupled.proposal.lostImage Coupled.setting.limits Coupled.checkpoint.point Coupled.columns ⬝ᵥ
          Coupled.proposal.keptImage Coupled.setting.limits Coupled.checkpoint.point
            Coupled.columns) / euclid Coupled.checkpoint.point.residuals ^ 2 = 8 / 5
    rw [Coupled.fall_eq, Coupled.part_eq, Coupled.lostImage_eq, Coupled.keptImage_eq,
      Coupled.squares_eq]
    simp [dotProduct, Fin.sum_univ_two]
    norm_num

end LeastSquares
