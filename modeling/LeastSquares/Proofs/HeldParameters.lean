import LeastSquares.Proofs.Coherence
import LeastSquares.Proofs.Covariance
import LeastSquares.Proofs.FitDivisors
import LeastSquares.Proofs.Predictions

/-!
Parameters that their limits hold. A free parameter on a limit beyond which the sum of squares would
fall loses its column of the Jacobian, and nothing else is said about it: the steps do not look at it
again. A column that is clear stays clear under reflections and exchanges, so that no damped step has
a component there and rounding finds the parameter on its limit; and as its place on the diagonal of
`R` is zero, it comes at or after the rank, where the covariance is zero.
-/

namespace LeastSquares

open Matrix

variable {n m k : ℕ}

/-! ### Rounding on a limit -/

namespace StepLimits

theorem snapToLower_self (l : ℝ) : snapToLower l l = l := ite_self _

theorem snapToUpper_self (u : ℝ) : snapToUpper u u = u := ite_self _

/-- Rounding does not take one limit for the other. -/
def AreApart (lower upper : Option ℝ) : Prop :=
  ∀ l ∈ lower, ∀ u ∈ upper, snapToUpper u l = l ∧ snapToLower l u = u

theorem areApart_none (lower : Option ℝ) : AreApart lower none :=
  fun _ _ u hu => absurd hu (Option.not_mem_none u)

theorem AreApart.snapValue_eq {lower upper : Option ℝ} {v : ℝ} (h : AreApart lower upper)
    (hv : lower = some v ∨ upper = some v) : snapValue lower upper v = v := by
  rcases hv with rfl | rfl
  · cases upper with
    | none => exact snapToLower_self v
    | some u =>
        show snapToLower v (snapToUpper u v) = v
        rw [(h v rfl u rfl).1, snapToLower_self]
  · cases lower with
    | none => exact snapToUpper_self v
    | some l =>
        show snapToLower l (snapToUpper v v) = v
        rw [snapToUpper_self, (h l rfl v rfl).2]

theorem dropOutward_of_eq_zero (limits : StepLimits ℝ k) {x step : Vector ℝ k} {e : Fin k}
    (h : step[e] = 0) : limits.dropOutward x step e = 0 := by
  simp [dropOutward, h]

end StepLimits

/-! ### Trial steps -/

namespace Setting.Attempts

variable {s : Setting ℝ n m k} {tall : k ≤ m} {trials : ℕ} {x : Vector ℝ n}
  {c : Checkpoint ℝ n m k} {a : Mat ℝ m k} {q : Progress ℝ n m k} {i : Journal ℝ n} {e : Fin k}
  (h : s.Attempts tall trials x c a q i) (hoptions : s.options.InRange)
  (he : s.limits.pointsOutward c.point.free a c.point.residuals e = true)

include h hoptions he

theorem damped_eq_zero : (s.proposalAt tall c a q).damped.x[e] = 0 :=
  Linearization.zero_of_isDampedStep (h.isDampedStep hoptions)
    (StepLimits.getElem_masked_of_pointsOutward he)

/-- No step has a component for a parameter that its limit holds. -/
theorem step_eq_zero : (s.proposalAt tall c a q).move.step[e] = 0 := by
  have hmove : (s.proposalAt tall c a q).move =
      s.move q.point.free (s.proposalAt tall c a q).damped.x := rfl
  have hwhole : ((s.proposalAt tall c a q).damped.x.map (- ·))[e] = 0 := by
    rw [getElem_map, h.damped_eq_zero hoptions he, neg_zero]
  rw [hmove, getElem_move_step, s.limits.dropOutward_of_eq_zero hwhole, zero_mul]

theorem target_eq (hapart : StepLimits.AreApart s.limits.lower[e] s.limits.upper[e])
    (hlimit : s.limits.lower[e] = some c.point.free[e] ∨ s.limits.upper[e] = some c.point.free[e]) :
    (s.proposalAt tall c a q).move.target[e] = c.point.free[e] := by
  have hmove : (s.proposalAt tall c a q).move =
      s.move q.point.free (s.proposalAt tall c a q).damped.x := rfl
  have hstep := h.step_eq_zero hoptions he
  rw [hmove] at hstep ⊢
  rw [getElem_move_target, hstep, add_zero, h.free_eq]
  exact hapart.snapValue_eq hlimit

end Setting.Attempts

/-! ### The covariance -/

namespace Setting

/-- A parameter whose column of the linear model is clear has no covariance. -/
theorem covarianceAt_eq_zero {s : Setting ℝ n m k} (hfree : Distinct s.free)
    (htolerance : 0 ≤ s.options.rankTolerance) {tall : k ≤ m} {p : Iterate ℝ n m k} {a : Mat ℝ m k}
    {f : Finish ℝ n m k} (hmodel : f.model = .ofJacobian s.limits p a tall)
    (hworkspace : f.workspace.SameUpper (Linearization.ofJacobian s.limits p a tall).r) {e : Fin k}
    (he : ∀ l : Fin m, (Linearization.masked s.limits p a)[l][e] = 0) (d : Fin n) :
    (s.covarianceAt f).1[s.free[e]][d] = 0 ∧ (s.covarianceAt f).1[d][s.free[e]] = 0 := by
  obtain ⟨j, rfl⟩ := (Linearization.order s.limits p a tall).surjective e
  -- a clear column has no diagonal entry, and so its place is not before the rank
  have hdiagonal : f.workspace[j][j] = 0 := by
    rw [hworkspace j j le_rfl, ← upperPart_self]
    exact Linearization.upperPart_eq_zero_of_column he j
  have hrank := Covariance.rank_le_of_eq_zero htolerance hdiagonal
  have hpivot : Distinct f.model.pivot := by
    rw [hmodel]
    exact Linearization.distinct_ofJacobian _ _ _ _
  have hplace : Linearization.order s.limits p a tall j = f.model.pivot[j] := by
    rw [hmodel, Linearization.order_apply]
  have hzero := Covariance.unpermute_eq_zero hpivot
    (Covariance.triangle f.workspace (Covariance.rank f.workspace s.options.rankTolerance)) hrank
  simp only [covarianceAt, embedCovariance, Mat.getElem_ofFn, lastIndex?_of_distinct hfree]
  rw [hplace]
  cases lastIndex? s.free d with
  | none => exact ⟨rfl, rfl⟩
  | some b => exact hzero b

end Setting

/-! ### A whole fit -/

section Fit

variable {store : Store ℝ} {function : ResidualFunction ℝ} {options : Options ℝ}
  {initial : Option (Array ℝ)} {start : Start store function}

/-- In exact arithmetic, whatever the pivoting, the rank, the damping and the number of rejected
steps: in an iteration of a fit from a point where a free parameter is on a limit and the sum of
squares would fall beyond it, the parameter is exactly on that limit at every point that is tried, if
rounding does not take the limit for the other one; and if that iteration ends the fit, the row and
the column of the parameter in the covariance are zero, and so is its error. -/
theorem held_parameters_stay (hstart : prepare store function options initial = .ok start)
    (trials : ℕ) :
    let s := Setting.ofStore store function options start.mode
    ∀ c i a i', s.Visits start.tall trials start.x c i →
      (s.jacobianAt c.point.x c.point.residuals).resume i = (.ok a, i') →
    ∀ e : Fin store.free.size,
      let place := store.freePlaces[e]
      let bounds := (store.get place).bounds
      bounds.lower = some c.point.x[place] ∧ 0 < dot c.point.residuals (a.column e) ∨
        bounds.upper = some c.point.x[place] ∧ dot c.point.residuals (a.column e) < 0 →
      (StepLimits.AreApart bounds.lower bounds.upper →
        ∀ q j, s.Attempts start.tall trials start.x c a q j →
          (s.proposalAt start.tall c a q).move.target[e] = c.point.x[place] ∧
          (s.applyTies (s.withFree q.point.x
            (s.proposalAt start.tall c a q).move.target))[place] = c.point.x[place]) ∧
      ∀ f i'' solution j, (s.iteration start.tall trials c).resume i = (.ok (.inl f), i'') →
        minimizeWithin trials store function options initial = (.ok solution, j) →
        (∀ d : Fin store.size, solution.covariance[place][d] = 0 ∧ solution.covariance[d][place] = 0) ∧
          solution.errors[place] = 0 := by
  intro s c i a i' hc ha e place bounds hheld
  have hoptions : s.options.InRange := Options.validate_ok.1 (prepare_ok hstart).1
  obtain ⟨-, hwithin⟩ := constraints_of_visits hstart hc
  have hfree : c.point.free[e] = c.point.x[place] := Store.free_eq_of_visits hc e
  have houtward : s.limits.pointsOutward c.point.free a c.point.residuals e = true := by
    rw [StepLimits.pointsOutward_iff, Store.atLower_iff hwithin hfree,
      Store.atUpper_iff hwithin hfree]
    exact hheld
  refine ⟨fun hapart q j hq => ?_, fun f i'' solution j hend hrun => ?_⟩
  · have htarget : (s.proposalAt start.tall c a q).move.target[e] = c.point.x[place] := by
      rw [← hfree]
      apply hq.target_eq hoptions houtward
      · rw [Store.lower_ofStore, Store.upper_ofStore]
        exact hapart
      · rw [Store.lower_ofStore, Store.upper_ofStore, hfree]
        exact hheld.imp And.left And.left
    refine ⟨htarget, ?_⟩
    have huntied : (store.get place).tie = none :=
      (Store.isFree_eq_true.1 (store.isFree_freePlaces e)).2
    show (store.applyTies _)[place] = _
    rw [store.getElem_applyTies_of_untied _ huntied, ← htarget]
    exact getElem_overwrite_place store.distinct_freePlaces _ _ e
  · obtain ⟨start', hstart', hsearch⟩ := minimizeWithin_ok hrun
    cases hstart.symm.trans hstart'
    obtain ⟨norm, evaluations, jacobians, rfl⟩ := Setting.solution_of_last hsearch hc hend
    obtain ⟨b, i₁, hb, hadvance⟩ := Setting.iteration_ok hend
    cases ha.symm.trans hb
    obtain ⟨hmodel, hworkspace, -⟩ := Setting.advance_endsWith hadvance
    have hzero := Setting.covarianceAt_eq_zero store.distinct_freePlaces
      (Options.isTolerance_iff.1 hoptions.rankTolerance) hmodel hworkspace
      (StepLimits.getElem_masked_of_pointsOutward houtward)
    refine ⟨hzero, ?_⟩
    show (standardErrors (s.covarianceAt f).1)[place] = 0
    rw [standardErrors, getElem_map, Mat.diagonal, getElem_ofFn]
    have hvariance : (s.covarianceAt f).1[place][place] = 0 := (hzero place).1
    rw [hvariance, ZeroRoot.sqrt_max_zero]

end Fit

/-! ### A parameter at rest -/

namespace Resting

noncomputable def slope : Mat ℝ 2 2 := .ofFn !![1, 0; 0, 1]

/-- The first residual asks for a first parameter beyond its limit. The second is hardly off. -/
noncomputable def offset : Vector ℝ 2 := #v[1, -1e-6]

noncomputable def function : ResidualFunction ℝ := .ofAffine slope offset

noncomputable def setting : Setting ℝ 2 2 2 := Cornered.setting function

noncomputable def checkpoint : Checkpoint ℝ 2 2 2 :=
  setting.firstCheckpoint (firstPoint Cornered.store function slope offset Cornered.start)

noncomputable def columns : Mat ℝ 2 2 := Cornered.store.freeColumns slope

noncomputable def progress : Progress ℝ 2 2 2 := setting.progressAt Cornered.tall checkpoint columns

noncomputable def proposal : Proposal ℝ 2 :=
  setting.proposalAt Cornered.tall checkpoint columns progress

theorem toMatrix_columns : columns.toMatrix = !![1, 0; 0, 1] := by
  ext i e
  fin_cases i <;> fin_cases e <;> rfl

theorem coords_residuals : coords checkpoint.point.residuals = ![1, -1e-6] := by
  have hresiduals : checkpoint.point.residuals = affine slope offset Cornered.start := rfl
  ext i
  rw [coords_apply, hresiduals, affine, getElem_ofFn, Fin.sum_univ_two]
  fin_cases i
  · show (1 : ℝ) * 0 + 0 * 0 + 1 = 1
    norm_num
  · show (0 : ℝ) * 0 + 1 * 0 + -1e-6 = -1e-6
    norm_num

theorem free_eq (e : Fin 2) : checkpoint.point.free[e] = 0 :=
  Cornered.free_eq function slope offset e

theorem getElem_columns (i e : Fin 2) : columns[i][e] = !![1, 0; 0, 1] i e := by
  rw [← Mat.toMatrix_apply, toMatrix_columns]

theorem slope_eq (e : Fin 2) :
    dot checkpoint.point.residuals (columns.column e) = ![1, -1e-6] e := by
  rw [dot_comm, ← transpose_mulVec_apply, toMatrix_columns, coords_residuals]
  fin_cases e
  · simp [mulVec, dotProduct, Fin.sum_univ_two]
  · simp [mulVec, dotProduct, Fin.sum_univ_two]

theorem outward : setting.limits.pointsOutward checkpoint.point.free columns
    checkpoint.point.residuals 0 = true := by
  refine StepLimits.pointsOutward_iff.2 (.inl ⟨Cornered.atLower_zero function (free_eq 0), ?_⟩)
  rw [slope_eq]
  exact one_pos

theorem inward : ¬ setting.limits.pointsOutward checkpoint.point.free columns
    checkpoint.point.residuals 1 = true := by
  rw [StepLimits.pointsOutward_iff]
  rintro (⟨hlower, -⟩ | ⟨hupper, -⟩)
  · cases hlower
  · cases hupper

theorem toMatrix_masked : (Linearization.masked setting.limits checkpoint.point columns).toMatrix =
    !![0, 0; 0, 1] := by
  ext i e
  rw [Mat.toMatrix_apply]
  revert e
  refine Fin.forall_fin_two.2 ⟨?_, ?_⟩
  · rw [StepLimits.getElem_masked_of_pointsOutward outward]
    fin_cases i <;> rfl
  · rw [StepLimits.getElem_masked_of_inward inward, getElem_columns]
    fin_cases i <;> rfl

theorem euclid_column : euclid (columns.column (1 : Fin 2)) = 1 := by
  rw [← Real.sqrt_sq (euclid_nonneg _), euclid_sq, Fin.sum_univ_two, Mat.getElem_column,
    Mat.getElem_column, getElem_columns, getElem_columns]
  norm_num

theorem squares_eq : euclid checkpoint.point.residuals ^ 2 = 1 + 1e-12 := by
  rw [euclid_sq_eq_dotProduct, coords_residuals]
  simp [dotProduct, Fin.sum_univ_two]
  norm_num

theorem lt_cosine : 1e-10 < setting.cosineAt Cornered.tall checkpoint columns := by
  apply Setting.lt_cosineAt (e := (1 : Fin 2)) (by norm_num) inward rfl
  have hresiduals : euclid checkpoint.point.residuals ≤ 2 := by
    apply (pow_le_pow_iff_left₀ (euclid_nonneg _) zero_le_two two_ne_zero).1
    rw [squares_eq]
    norm_num
  have hslope : |dot checkpoint.point.residuals (columns.column 1)| = 1e-6 := by
    rw [slope_eq]
    show |-(1e-6 : ℝ)| = 1e-6
    rw [abs_neg, abs_of_pos (by norm_num)]
  rw [hslope, euclid_column]
  linarith

noncomputable def model : Linearization ℝ 2 2 := setting.modelAt Cornered.tall checkpoint columns

noncomputable def scale : Vector ℝ 2 := setting.scaleAt Cornered.tall checkpoint columns

noncomputable def whole : Vector ℝ 2 := (model.stepModel scale).undamped model.r

theorem isDampedStep : (model.stepModel scale).IsDampedStep model.r ⟨0, whole, model.r⟩ :=
  StepModel.isDampedStep_undamped (Linearization.distinct_ofJacobian _ _ _ Cornered.tall)
    (Linearization.revealsRank_ofJacobian _ _ _ Cornered.tall)

theorem coords_whole : coords whole = ![0, -1e-6] := by
  have hfirst : whole[(0 : Fin 2)] = 0 :=
    Linearization.zero_of_isDampedStep isDampedStep
      (StepLimits.getElem_masked_of_pointsOutward outward)
  have hsecond := Linearization.normal_of_isDampedStep isDampedStep 1
  rw [toMatrix_masked, coords_residuals] at hsecond
  simp [mulVec, dotProduct, Fin.sum_univ_two] at hsecond
  ext e
  rw [coords_apply]
  revert e
  refine Fin.forall_fin_two.2 ⟨hfirst, ?_⟩
  exact hsecond

theorem damped_eq : proposal.damped = ⟨0, whole, model.r⟩ := by
  refine StepModel.dampedStep_of_near ?_
  have hradius : progress.region.radius = 100 := by
    refine (Setting.radius_of_zero rfl rfl free_eq).trans ?_
    show (100.0 : ℝ) = 100
    norm_num
  have hscale : scale[(1 : Fin 2)] = 1 := by
    rw [scale, Setting.scaleAt_first inward rfl rfl (by simp [euclid_column]), euclid_column]
  have hwhole : ∀ e : Fin 2, whole[e] = ![0, -1e-6] e := congrFun coords_whole
  have hlength : (model.stepModel scale).scaledNorm whole ≤ 1 := by
    rw [StepModel.scaledNorm, norm_toList]
    refine (pow_le_pow_iff_left₀ (euclid_nonneg _) zero_le_one two_ne_zero).1 ?_
    rw [euclid_sq, Fin.sum_univ_two, getElem_scaleBy, getElem_scaleBy, hwhole, hwhole]
    show (scale[(0 : Fin 2)] * 0) ^ 2 + (scale[(1 : Fin 2)] * -1e-6) ^ 2 ≤ 1 ^ 2
    rw [hscale]
    norm_num
  change (model.stepModel scale).scaledNorm whole ≤ 1.1 * progress.region.radius
  rw [hradius]
  linarith

theorem dropped_eq (e : Fin 2) :
    setting.limits.dropOutward checkpoint.point.free (whole.map (- ·)) e = -whole[e] := by
  revert e
  refine Fin.forall_fin_two.2 ⟨?_, ?_⟩
  · have hfirst : whole[(0 : Fin 2)] = 0 := congrFun coords_whole 0
    rw [setting.limits.dropOutward_of_eq_zero (by rw [getElem_map, hfirst, neg_zero]), hfirst,
      neg_zero]
  · rw [StepLimits.dropOutward, setting, Cornered.atUpper_eq, Cornered.atLower_one]
    simp

theorem part_eq : proposal.move.part = 1 := by
  have hmove : proposal.move = setting.move checkpoint.point.free whole := by
    change setting.move checkpoint.point.free proposal.damped.x = _
    rw [damped_eq]
  rw [hmove]
  refine Cornered.part_eq function (free_eq 0) ((dropped_eq 0).trans ?_)
  exact neg_eq_zero.2 (congrFun coords_whole 0)

theorem isUndamped : proposal.IsUndamped model scale := by
  refine Setting.isUndamped_propose damped_eq isDampedStep dropped_eq ?_
  change Scalar.minNormal ≤ proposal.move.part
  rw [part_eq]
  exact minNormal_le_one

theorem coords_step : coords proposal.move.step = ![0, 1e-6] := by
  rw [isUndamped.isShortened.coords_step, part_eq, one_smul, damped_eq, coords_whole]
  ext e
  fin_cases e
  · exact neg_zero
  · exact neg_neg _

theorem descent_eq :
    proposal.descent (Linearization.masked setting.limits checkpoint.point columns) scale = 1e-12 := by
  rw [isUndamped.descent_eq, part_eq, Proposal.gain, toMatrix_masked, damped_eq, coords_whole]
  simp [mulVec, dotProduct, Fin.sum_univ_two]
  norm_num

/-- The step leads to where it points: the first parameter does not move, and the second is free. -/
theorem target_eq (e : Fin 2) : proposal.move.target[e] = (0 : ℝ) + proposal.move.step[e] := by
  have hmove : proposal.move = setting.move checkpoint.point.free proposal.damped.x := rfl
  have hstep : proposal.move.step[(0 : Fin 2)] = 0 := congrFun coords_step 0
  rw [hmove, Setting.getElem_move_target, ← hmove, free_eq]
  revert e
  refine Fin.forall_fin_two.2 ⟨?_, rfl⟩
  rw [hstep, add_zero]
  exact StepLimits.snapToLower_self 0

/-- The linear model is exact, also without the column that was cleared. -/
theorem residuals_eq : coords (affine slope offset
      (setting.withFree progress.point.x proposal.move.target)) =
    coords checkpoint.point.residuals +
      (Linearization.masked setting.limits checkpoint.point columns).toMatrix *ᵥ
        coords proposal.move.step := by
  have hcolumns : columns.toMatrix *ᵥ coords proposal.move.step =
      (Linearization.masked setting.limits checkpoint.point columns).toMatrix *ᵥ
        coords proposal.move.step := by
    rw [toMatrix_columns, toMatrix_masked, coords_step]
    ext i
    fin_cases i
    · simp [mulVec, dotProduct, Fin.sum_univ_two]
    · simp [mulVec, dotProduct, Fin.sum_univ_two]
  rw [← hcolumns]
  refine @Store.coords_affine_overwrite 2 Cornered.store Cornered.start slope offset
    proposal.move.step proposal.move.target fun e => (target_eq e).trans (congrArg (· + _) ?_)
  revert e
  exact Fin.forall_fin_two.2 ⟨rfl, rfl⟩

/-- The first step gains so little that it ends the fit. -/
theorem contains_ftolConverged (cosine : ℝ) (evaluations : ℕ) :
    (setting.resultOf model scale cosine progress (affine slope offset
      (setting.withFree progress.point.x proposal.move.target)) evaluations).status.contains
        .ftolConverged = true := by
  have hpos : 0 < proposal.descent
      (Linearization.masked setting.limits checkpoint.point columns) scale := by
    rw [descent_eq]
    norm_num
  have hsmall : proposal.descent (Linearization.masked setting.limits checkpoint.point columns)
      scale ≤ 1e-10 * euclid checkpoint.point.residuals ^ 2 := by
    rw [descent_eq, squares_eq]
    norm_num
  exact Setting.contains_ftolConverged_of_descent_le (s := setting) cosine evaluations rfl rfl
    residuals_eq isUndamped.isShortened hpos hsmall

theorem exists_fit : ∃ f solution i i' i'' j,
    setting.Visits Cornered.tall 1 Cornered.start checkpoint i ∧
    (setting.jacobianAt checkpoint.point.x checkpoint.point.residuals).resume i =
      (.ok columns, i') ∧
    (setting.iteration Cornered.tall 1 checkpoint).resume i = (.ok (.inl f), i'') ∧
    minimizeWithin 1 Cornered.store function .default (some #[0, 0]) = (.ok solution, j) := by
  have hfunction := ResidualFunction.isAffine_ofAffine slope offset
  obtain ⟨result, -, ⟨i, i', i'', hc, ha, hend⟩, evaluations, jacobians, j, hsearch⟩ :=
    search_of_first_step (P := fun _ => True) Cornered.untied hfunction Cornered.tall 0
      lt_cosine fun i => by
        obtain ⟨evaluations, i', hstep⟩ :=
          tryStep_affine Cornered.untied hfunction .analytic model scale _ progress i
        exact ⟨_, i', hstep, Status.isEmpty_eq_false (contains_ftolConverged _ evaluations),
          trivial⟩
  exact ⟨_, _, i, i', i'', j, hc, ha, hend,
    (minimizeWithin_of_start (Cornered.prepared slope offset) 1).trans hsearch⟩

end Resting

/-- A fit that ends with its first step. The first parameter is on its limit, and stays there. -/
theorem held_parameters_stay_resting :
    Resting.setting.limits.pointsOutward Resting.checkpoint.point.free Resting.columns
      Resting.checkpoint.point.residuals 0 = true ∧
    (∃ i, Resting.setting.Attempts Cornered.tall 1 Cornered.start Resting.checkpoint Resting.columns
      Resting.progress i) ∧
    Resting.proposal.move.target[(0 : Fin 2)] = 0 ∧
    ∃ (solution : Solution ℝ 2 2) (j : Journal ℝ 2),
      minimizeWithin 1 Cornered.store Resting.function .default (some #[0, 0]) = (.ok solution, j) ∧
      (∀ d : Fin 2, solution.covariance[(0 : Fin 2)][d] = 0 ∧
        solution.covariance[d][(0 : Fin 2)] = 0) ∧
      solution.errors[(0 : Fin 2)] = 0 := by
  obtain ⟨f, solution, i, i', i'', j, hc, ha, hend, hrun⟩ := Resting.exists_fit
  have hslope : 0 < dot Resting.checkpoint.point.residuals (Resting.columns.column (0 : Fin 2)) := by
    rw [Resting.slope_eq]
    exact one_pos
  have hlimit : (Options.default : Options ℝ).maxIterations ≠ 0 := by
    simp [Options.default]
  have hattempt : Resting.setting.Attempts Cornered.tall 1 Cornered.start Resting.checkpoint
      Resting.columns Resting.progress i' := ⟨Resting.lt_cosine, hlimit, i, i', hc, ha, .first⟩
  obtain ⟨hstay, hlast⟩ := held_parameters_stay (Cornered.prepared Resting.slope Resting.offset) 1
    Resting.checkpoint i Resting.columns i' hc ha (0 : Fin 2) (.inl ⟨rfl, hslope⟩)
  have htarget := (hstay (StepLimits.areApart_none _) Resting.progress i' hattempt).1
  obtain ⟨hcovariance, herror⟩ := hlast f i'' solution j hend hrun
  exact ⟨Resting.outward, ⟨i', hattempt⟩, htarget, solution, j, hrun, hcovariance, herror⟩

end LeastSquares
