import LeastSquares.Proofs.Coherence
import LeastSquares.Proofs.Covariance
import LeastSquares.Proofs.ExactModel
import Mathlib.Analysis.Calculus.Deriv.Pow

/-!
Which point the covariance belongs to. It is that of the Jacobian evaluated last, and that was
evaluated where the last iteration began. An iteration that ends without having accepted a step,
with the gradient test or with a step that was rejected, ends where it began, and the covariance is
that of the solution. An iteration whose last step is accepted and gives a reason to stop leaves the
covariance of the point before the step: the Jacobian at the solution is never evaluated.
-/

namespace LeastSquares

open Matrix

variable {n m k : ℕ}

namespace Setting

variable {s : Setting ℝ n m k} {l : Linearization ℝ m k} {trials : ℕ}

/-- The last iteration of a search ends where it began, or one accepted step from there; the
gradient test lets it end where it began. -/
theorem advance_point {c : Checkpoint ℝ n m k} {f : Finish ℝ n m k} {j j' : Journal ℝ n}
    (h : (s.advance l trials c).resume j = (.ok (.inl f), j')) :
    f.point.iterations = c.point.iterations ∧ f.point.x = c.point.x ∨
      f.point.iterations = c.point.iterations + 1 ∧ f.status.contains .gtolConverged = false ∧
        ∃ target, f.point.x = s.applyTies (s.withFree c.point.x target) := by
  rcases advance_cases h with ⟨_, -, hend, -⟩ | ⟨-, -, q, i, result, hq, hstep, hend⟩
  · cases hend
    exact .inl ⟨rfl, rfl⟩
  · rcases hend with ⟨-, hend⟩ | ⟨-, -, hend⟩
    · cases hend
      have hpoint : q.point = c.point := hq.point_eq
      cases haccepted : result.accepted with
      | false =>
          have hstay := (tryStep_rejected hstep haccepted).trans hpoint
          exact .inl ⟨congrArg Iterate.iterations hstay, congrArg Iterate.x hstay⟩
      | true =>
          have hcount := tryStep_accepted hstep haccepted
          rw [hpoint] at hcount
          obtain ⟨r, i, -, -, rfl⟩ := tryStep_ok hstep
          refine .inr ⟨hcount, Options.contains_stepStatus _ _ _,
            (s.propose l (s.stepScale l c.scale) q).move.target, ?_⟩
          rw [← hpoint]
          exact congrArg Iterate.x (if_pos haccepted)
    · cases hend

end Setting

/-! ### The Jacobian of the last iteration -/

/-- At `x`, where the Jacobian is `full`, no free parameter is on a limit, and the columns of the
free parameters are independent. -/
structure Store.IsRegular (store : Store ℝ) (x : Vector ℝ store.size) (full : Mat ℝ m store.size) :
    Prop where
  lower : ∀ c : Fin store.free.size,
    (store.get store.freePlaces[c]).bounds.lower ≠ some x[store.freePlaces[c]]
  upper : ∀ c : Fin store.free.size,
    (store.get store.freePlaces[c]).bounds.upper ≠ some x[store.freePlaces[c]]
  rank : ∀ v, (store.freeColumns full).toMatrix *ᵥ v = 0 → v = 0

/-- The covariance of the free parameters is `(JᵗJ)⁻¹` for their columns `J` of the Jacobian `full`.
-/
def Solution.HasCovarianceOf {store : Store ℝ} (solution : Solution ℝ store.size m)
    (full : Mat ℝ m store.size) : Prop :=
  ∀ c d : Fin store.free.size, solution.covariance[store.freePlaces[c]][store.freePlaces[d]] =
    ((store.freeColumns full).toMatrixᵀ * (store.freeColumns full).toMatrix)⁻¹ c d

section Fit

variable {store : Store ℝ} {function : ResidualFunction ℝ} {options : Options ℝ}
  {initial : Option (Array ℝ)} {start : Start store function} {trials : ℕ}
  {c : Checkpoint ℝ store.size function.count store.free.size} {j : Journal ℝ store.size}
  {full : Mat ℝ function.count store.size}

/-- Where no free parameter is on a limit, no column is cleared. -/
theorem Store.IsRegular.masked_eq (h : store.IsRegular c.point.x full)
    (hwithin : store.Within c.point.x)
    (hfree : ∀ d : Fin store.free.size, c.point.free[d] = c.point.x[store.freePlaces[d]]) :
    Linearization.masked (start.setting options).limits c.point (store.freeColumns full) =
      store.freeColumns full := by
  refine StepLimits.masked_of_held_eq_empty (Finset.filter_eq_empty_iff.2 fun d _ => ?_)
  have hlower : (start.setting options).limits.atLower d c.point.free[d] = false := by
    rw [← Bool.not_eq_true, Store.atLower_iff hwithin (hfree d)]
    exact h.lower d
  have hupper : (start.setting options).limits.atUpper d c.point.free[d] = false := by
    rw [← Bool.not_eq_true, Store.atUpper_iff hwithin (hfree d)]
    exact h.upper d
  simp [StepLimits.pointsOutward, hlower, hupper]

theorem hasCovarianceOf_of_visits (hstart : prepare store function options initial = .ok start)
    (hcutoff : options.rankTolerance = 0)
    (hc : (start.setting options).Visits start.tall trials start.x c j)
    (hregular : store.IsRegular c.point.x full)
    {solution : Solution ℝ store.size function.count}
    (hsolution : solution.DerivesFrom (start.setting options) start.tall c.point
      (store.freeColumns full)) : solution.HasCovarianceOf full := by
  obtain ⟨-, hwithin⟩ := constraints_of_visits hstart hc
  have hmasked : Linearization.masked (start.setting options).limits c.point
      (store.freeColumns full) = store.freeColumns full :=
    hregular.masked_eq hwithin (Store.free_eq_of_visits hc)
  intro d e
  have heq := Linearization.covariance_eq (start.setting options).limits c.point
    (store.freeColumns full) start.tall (by rw [hmasked]; exact hregular.rank) d e
  rw [hmasked] at heq
  refine (hsolution.covariance d e).trans (Eq.trans ?_ heq)
  rw [Setting.freeCovariance]
  change (covariance _ _ options.rankTolerance).1[d][e] = _
  rw [hcutoff, ← covariance_congr (PivotedQR.sameUpper_workspace _)]
  rfl

/-- In exact arithmetic and with no diagonal entry but zero counted as negligible, the covariance of
a solution is that of the Jacobian at the last checkpoint of the search, if it has full column rank
and no free parameter is on a limit there. This is the solution itself where as many Jacobians were
evaluated as iterations counted and one more: then the search ended with the gradient test, without
an iteration, or after a rejected step. Otherwise the search ended with an accepted step, and the
checkpoint is the point before it. -/
theorem covariance_of_last_jacobian {solution : Solution ℝ store.size function.count}
    (hstart : prepare store function options initial = .ok start)
    (hanalytic : start.mode = .analytic) (hcutoff : options.rankTolerance = 0)
    (h : minimizeWithin trials store function options initial = (.ok solution, j)) :
    ∃ c i full, (start.setting options).Visits start.tall trials start.x c i ∧
      solution.jacobians = c.point.iterations + 1 ∧
      function.jacobian (store.applyTies c.point.x) = .ok full ∧
      (store.TiesOrdered → store.applyTies c.point.x = c.point.x) ∧
      (store.IsRegular c.point.x full → solution.HasCovarianceOf full) ∧
      (solution.jacobians = solution.iterations + 1 ∧ solution.parameters = c.point.x ∨
        solution.jacobians = solution.iterations ∧
          solution.status.contains .gtolConverged = false ∧
          ∃ target, solution.parameters =
            store.applyTies (overwrite c.point.x store.freePlaces target)) := by
  obtain ⟨start', hstart', hsearch⟩ := minimizeWithin_ok h
  cases hstart.symm.trans hstart'
  obtain ⟨first, c, i, a, i', f, i'', -, hc, ha, hadvance, rfl, -⟩ := Setting.search_last hsearch
  obtain ⟨full, hfull, rfl⟩ := Setting.jacobianAt_analytic_ok hanalytic ha
  obtain ⟨hmodel, hworkspace, hjacobians⟩ := Setting.advance_endsWith hadvance
  obtain ⟨hsame, hold⟩ : ((start.setting options).rescale
      (.ofJacobian (start.setting options).limits c.point (store.freeColumns full) start.tall)
        c).point.iterations = c.point.iterations ∧
      ((start.setting options).rescale
        (.ofJacobian (start.setting options).limits c.point (store.freeColumns full) start.tall)
          c).point.x = c.point.x := by
    obtain ⟨v, hpoint⟩ := Setting.rescale_point (s := start.setting options)
      (.ofJacobian (start.setting options).limits c.point (store.freeColumns full) start.tall) c
    rw [hpoint]
    exact ⟨rfl, rfl⟩
  have hcount : i''.jacobians = c.point.iterations + 1 := by
    rw [hjacobians, (Setting.jacobianAt_adds c.point.residuals i _ i' ha).jacobians,
      (Setting.counted_of_visits hc).jacobians]
  refine ⟨c, i, full, hc, hcount, hfull, fun hordered => ?_, fun hregular => ?_, ?_⟩
  · exact (Setting.settled_of_visits (fun x => store.applyTies_applyTies hordered x) hc).ties
  · refine hasCovarianceOf_of_visits hstart hcutoff hc hregular ?_
    exact Solution.derivesFrom_solutionOf _ _ _ _ store.distinct_freePlaces hmodel hworkspace
  · rcases Setting.advance_point hadvance with ⟨hiterations, hx⟩ | ⟨hiterations, hstatus, target, hx⟩
    · refine .inl ⟨?_, hx.trans hold⟩
      show i''.jacobians = f.point.iterations + 1
      rw [hcount, hiterations, ← hsame]
      rfl
    · refine .inr ⟨?_, hstatus, target, hx.trans ?_⟩
      · show i''.jacobians = f.point.iterations
        rw [hcount, hiterations, ← hsame]
        rfl
      · exact congrArg (fun x => store.applyTies (overwrite x store.freePlaces target)) hold

end Fit

/-! ### A step that is not looked back on -/

namespace Parabola

/-- A large residual that does not change, beside the square of the parameter. -/
noncomputable def residuals (p : ℝ) : Vector ℝ 2 := #v[10 ^ 6, p ^ 2]

noncomputable def slopes (p : ℝ) : Vector ℝ 2 := #v[0, 2 * p]

@[simp] theorem getElem_residuals_zero (p : ℝ) : (residuals p)[(0 : Fin 2)] = 10 ^ 6 := rfl

@[simp] theorem getElem_residuals_one (p : ℝ) : (residuals p)[(1 : Fin 2)] = p ^ 2 := rfl

@[simp] theorem getElem_slopes_zero (p : ℝ) : (slopes p)[(0 : Fin 2)] = 0 := rfl

@[simp] theorem getElem_slopes_one (p : ℝ) : (slopes p)[(1 : Fin 2)] = 2 * p := rfl

theorem hasDerivAt (p : ℝ) : ∀ i : Fin 2, HasDerivAt (fun q => (residuals q)[i]) (slopes p)[i] p :=
  Fin.forall_fin_two.2 ⟨hasDerivAt_const p _, (hasDerivAt_pow 2 p).congr_deriv (by simp)⟩

noncomputable def columns (p : ℝ) : Mat ℝ 2 1 := Mat.ofFn fun i _ => (slopes p)[i]

noncomputable def function : ResidualFunction ℝ where
  count := 2
  eval x := .ok (residuals x.toList.sum)
  hasJacobian := true
  jacobian x := .ok (Mat.ofFn fun i _ => (slopes x.toList.sum)[i])

noncomputable def store : Store ℝ := ⟨#[.ofValue 1]⟩

noncomputable def options : Options ℝ := { (.default : Options ℝ) with rankTolerance := 0 }

theorem prepared : prepare store function options (some #[1]) =
    .ok ⟨.analytic, #v[1], by decide⟩ := by
  refine prepare_eq_ok (Options.validate_ok.2 ?_) rfl (Store.check_ok.2 ?_) (by decide) (by decide)
    rfl (mode_default rfl)
  · exact { inRange_default with rankTolerance := Options.isTolerance_iff.2 le_rfl }
  · exact Store.within_iff.2 (Fin.forall_fin_one.2 fun _ => ⟨nofun, nofun⟩)

noncomputable def setting : Setting ℝ 1 2 1 := .ofStore store function options .analytic

theorem unlimited : setting.limits.Unlimited where
  lower := Fin.forall_fin_one.2 rfl
  upper := Fin.forall_fin_one.2 rfl
  maxStep := Fin.forall_fin_one.2 rfl

theorem untied (i : Fin store.size) : (store.get i).tie = none :=
  (Fin.forall_fin_one (p := fun i => (store.get i).tie = none)).2 rfl i

theorem applyTies_eq (x : Vector ℝ 1) : setting.applyTies x = x := applyTies_of_untied untied x

theorem map_dampen (r : Vector ℝ 2) : r.map setting.dampen = r := Setting.map_dampen_eq rfl r

theorem sum_toList_one (x : Vector ℝ 1) : x.toList.sum = x[(0 : Fin 1)] := by
  rw [sum_toList, Fin.sum_univ_one]

theorem eval_eq (x : Vector ℝ 1) : function.eval x = .ok (residuals x[(0 : Fin 1)]) :=
  congrArg (fun p => Except.ok (residuals p)) (sum_toList_one x)

theorem jacobian_eq (x : Vector ℝ 1) : function.jacobian x = .ok (columns x[(0 : Fin 1)]) :=
  congrArg (fun p => Except.ok (columns p)) (sum_toList_one x)

theorem euclid_residuals_sq (p : ℝ) : euclid (residuals p) ^ 2 = 10 ^ 12 + p ^ 4 := by
  rw [euclid_sq, Fin.sum_univ_two, getElem_residuals_zero, getElem_residuals_one]
  ring

theorem column_columns (p : ℝ) (e : Fin 1) : (columns p).column e = slopes p :=
  ext_getElem fun i => by rw [Mat.getElem_column, columns, Mat.getElem_ofFn]

theorem euclid_slopes {p : ℝ} (hp : 0 ≤ p) : euclid (slopes p) = 2 * p := by
  rw [euclid, Fin.sum_univ_two, getElem_slopes_zero, getElem_slopes_one, zero_pow two_ne_zero,
    zero_add, Real.sqrt_sq (by linarith)]

theorem dot_residuals (p q : ℝ) : dot (residuals p) (slopes q) = 2 * p ^ 2 * q := by
  rw [dot_eq, Fin.sum_univ_two, getElem_residuals_one, getElem_slopes_zero, getElem_slopes_one]
  ring

noncomputable def checkpoint : Checkpoint ℝ 1 2 1 := setting.firstCheckpoint
  ⟨.replicate 1 1, setting.freePart (.replicate 1 1), residuals 1, setting.normOf (residuals 1),
    0, 0⟩

noncomputable def scale : Vector ℝ 1 := setting.scaleAt (by decide) checkpoint (columns 1)

noncomputable def model : Linearization ℝ 2 1 := setting.modelAt (by decide) checkpoint (columns 1)

noncomputable def progress : Progress ℝ 1 2 1 := setting.progressAt (by decide) checkpoint (columns 1)

theorem euclid_column (e : Fin 1) : euclid ((columns 1).column e) = 2 := by
  rw [column_columns, euclid_slopes zero_le_one, mul_one]

theorem free_eq (e : Fin 1) : checkpoint.point.free[e] = 1 := by
  have hone : ∀ i : Fin 1, (#v[(1 : ℝ)])[i] = 1 := Fin.forall_fin_one.2 rfl
  exact (getElem_map _ _ e).trans (hone _)

theorem radius_eq : progress.region.radius = 200 := by
  have hradius : progress.region.radius = _ :=
    Setting.radius_one (unlimited.inward _ _ 0) rfl rfl (by simp [euclid_column]) (by simp [free_eq])
  rw [hradius, euclid_column, free_eq, abs_one, mul_one]
  show (100.0 : ℝ) * 2 = 200
  norm_num

theorem undamped_eq (e : Fin 1) : ((model.stepModel scale).undamped model.r)[e] = 1 / 2 := by
  have hstep : euclid ((columns 1).column e) ^ 2 * ((model.stepModel scale).undamped model.r)[e] =
      dot ((columns 1).column e) (residuals 1) := Setting.undamped_one (unlimited.held_eq _ _) _ e
  rw [euclid_column, dot_comm, column_columns, dot_residuals] at hstep
  linarith

noncomputable def step : Proposal ℝ 1 := setting.propose model scale progress

theorem damped_eq : step.damped = ⟨0, (model.stepModel scale).undamped model.r, model.r⟩ := by
  have hlength (x : Vector ℝ 1) : (model.stepModel scale).scaledNorm x = _ :=
    Setting.scaledNorm_stepModel_one (unlimited.inward _ _ 0) rfl rfl (by simp [euclid_column]) x
  refine StepModel.dampedStep_of_near ?_
  rw [radius_eq, hlength, euclid_column]
  show 2 * |((model.stepModel scale).undamped model.r)[(0 : Fin 1)]| ≤ _
  rw [undamped_eq]
  norm_num

theorem model_eq : model = .ofJacobian setting.limits progress.point (columns 1) (by decide) := rfl

theorem isShortened : step.IsShortened
    (.ofJacobian setting.limits progress.point (columns 1) (by decide)) scale := by
  rw [← model_eq]
  refine Setting.isShortened_propose unlimited ?_
  change (model.stepModel scale).IsDampedStep model.r step.damped
  rw [damped_eq]
  exact StepModel.isDampedStep_undamped
    (Linearization.distinct_ofJacobian setting.limits checkpoint.point (columns 1) (by decide))
    (Linearization.revealsRank_ofJacobian setting.limits checkpoint.point (columns 1) (by decide))

theorem move_eq (e : Fin 1) : step.move.step[e] = -(1 / 2) := by
  have hstep : step.move.step[e] = -step.damped.x[e] := Setting.step_propose unlimited e
  rw [hstep, damped_eq, undamped_eq]

theorem target_eq (e : Fin 1) : step.move.target[e] = 1 / 2 := by
  have htarget : step.move.target[e] = checkpoint.point.free[e] + step.move.step[e] :=
    Setting.target_propose unlimited e
  rw [htarget, move_eq, free_eq]
  norm_num

/-- The linear model expects the small residual to vanish. -/
theorem descent_eq : step.descent
    (Linearization.masked setting.limits progress.point (columns 1)) scale = 1 := by
  have hdescent : step.descent (columns 1) scale =
      step.gain (columns 1) + 2 * step.weight scale := Setting.descent_propose unlimited _
  have himage : ∀ i : Fin 2, ((columns 1).toMatrix *ᵥ coords step.damped.x) i = (slopes 1)[i] / 2 := by
    intro i
    rw [mulVec, dotProduct, Fin.sum_univ_one, coords_apply, damped_eq, undamped_eq, Mat.toMatrix_apply,
      columns, Mat.getElem_ofFn, mul_one_div]
  rw [unlimited.masked_eq, hdescent, Proposal.weight, damped_eq, zero_mul, mul_zero, add_zero,
    Proposal.gain, dotProduct, Fin.sum_univ_two, himage, himage, getElem_slopes_zero,
    getElem_slopes_one]
  norm_num

theorem norm_eq : progress.point.norm = euclid (residuals 1) := by
  rw [progress, Setting.progressAt, Setting.norm_rescale]
  exact Setting.normOf_eq setting (residuals 1)

/-! ### What it leads to -/

noncomputable def verdict : Verdict ℝ := setting.judge model progress.point step (residuals (1 / 2))

theorem predicted_eq : verdict.predicted.reduction = 1 / (10 ^ 12 + 1) := by
  have hreduction : verdict.predicted.reduction = _ := isShortened.predicted_reduction
  rw [hreduction, descent_eq, norm_eq, euclid_residuals_sq, one_pow]

theorem actual_eq : verdict.actual = 15 / 16 / (10 ^ 12 + 1) := by
  have hpos : 0 < euclid (residuals 1) := by
    refine lt_of_le_of_ne (euclid_nonneg _) fun hzero => ?_
    have hsquare := euclid_residuals_sq 1
    rw [← hzero] at hsquare
    norm_num at hsquare
  have hle : euclid (residuals (1 / 2)) ≤ euclid (residuals 1) := by
    refine (pow_le_pow_iff_left₀ (euclid_nonneg _) (euclid_nonneg _) two_ne_zero).1 ?_
    rw [euclid_residuals_sq, euclid_residuals_sq]
    norm_num
  show TrustRegion.actualReduction progress.point.norm (setting.normOf (residuals (1 / 2))) = _
  rw [norm_eq, Setting.normOf_eq, TrustRegion.actualReduction, if_pos (by linarith)]
  dsimp only
  rw [← pow_two, div_pow, euclid_residuals_sq, euclid_residuals_sq]
  norm_num

theorem ratio_eq : verdict.ratio = 15 / 16 := by
  show TrustRegion.gainRatio verdict.actual verdict.predicted.reduction = _
  rw [TrustRegion.gainRatio, predicted_eq, actual_eq, if_pos (by norm_num)]
  norm_num

theorem accepted : verdict.accepted = true := by
  rw [Verdict.accepted, ratio_eq, Verdict.acceptRatio]
  norm_num

theorem lt_cosine : setting.options.gtol < setting.cosineAt (by decide) checkpoint (columns 1) := by
  have hlt : euclid (residuals 1) < 10 ^ 7 := by
    refine lt_of_pow_lt_pow_left₀ 2 (by norm_num) ?_
    rw [euclid_residuals_sq]
    norm_num
  refine Setting.lt_cosineAt (e := (0 : Fin 1)) ?_ (unlimited.inward _ _ _)
    (Setting.normOf_eq setting (residuals 1)) ?_
  · show (0 : ℝ) ≤ 1e-10
    norm_num
  · show (1e-10 : ℝ) * euclid ((columns 1).column 0) * euclid (residuals 1) <
      |dot (residuals 1) ((columns 1).column 0)|
    rw [euclid_column, column_columns, dot_residuals]
    norm_num
    linarith

/-- The first step leads to one half, and its reductions are within the tolerance. -/
theorem tryStep_eq (cosine : ℝ) (j : Journal ℝ 1) : ∃ result j',
    (setting.tryStep model scale cosine progress).resume j = (.ok result, j') ∧
    result.status.contains .ftolConverged = true ∧ result.progress.point.x[(0 : Fin 1)] = 1 / 2 := by
  have hx : (setting.withFree progress.point.x step.move.target)[(0 : Fin 1)] = 1 / 2 := by
    rw [Setting.withFree_one, target_eq]
  obtain ⟨evaluations, j', hstep⟩ := Setting.tryStep_of_eval (s := setting) model scale cosine
    progress j (eval_eq _)
  rw [applyTies_eq, map_dampen] at hstep
  change (setting.tryStep model scale _ progress).resume j = (.ok (setting.resultOf model scale _
    progress (residuals (setting.withFree progress.point.x step.move.target)[(0 : Fin 1)])
    evaluations), j') at hstep
  rw [hx] at hstep
  refine ⟨_, j', hstep, ?_, ?_⟩
  · refine Options.contains_stepStatus_ftol.2 (StepStatistics.reductionWithin_iff.2 ?_)
    show |verdict.actual| ≤ 1e-10 ∧ verdict.predicted.reduction ≤ 1e-10 ∧ 0.5 * verdict.ratio ≤ 1
    rw [actual_eq, predicted_eq, ratio_eq]
    norm_num
  · have haccept : (setting.resultOf model scale cosine progress (residuals (1 / 2))
        evaluations).progress.point =
          setting.accept progress.point scale step.move.target (residuals (1 / 2)) := if_pos accepted
    rw [haccept]
    show (setting.applyTies (setting.withFree progress.point.x step.move.target))[(0 : Fin 1)] = _
    rw [applyTies_eq, hx]

theorem search_eq : ∃ f evaluations jacobians i j,
    (setting.search (by decide) 1 store.names #v[1]).resume .empty =
      (.ok (setting.solutionOf store.names checkpoint.point.norm f evaluations jacobians), j) ∧
    setting.Visits (by decide) 1 #v[1] checkpoint i ∧
    f.model = .ofJacobian setting.limits checkpoint.point (columns 1) (by decide) ∧
    f.workspace.SameUpper
      (Linearization.ofJacobian setting.limits checkpoint.point (columns 1) (by decide)).r ∧
    f.point.x[(0 : Fin 1)] = 1 / 2 ∧ f.status.contains .ftolConverged = true := by
  have hone : ∀ e : Fin 1, (#v[(1 : ℝ)])[e] = 1 := Fin.forall_fin_one.2 rfl
  obtain ⟨i, hp⟩ := Setting.startAt_of_eval (s := setting) (x := #v[1]) (j := .empty) (eval_eq _)
  rw [applyTies_eq, applyTies_eq, map_dampen, hone] at hp
  have hjacobian : setting.jacobian (setting.applyTies #v[1]) = .ok (columns 1) := by
    rw [applyTies_eq, ← hone 0]
    exact jacobian_eq #v[1]
  obtain ⟨i', ha⟩ := Setting.jacobianAt_one (s := setting) (j := i) rfl hjacobian (residuals 1)
  obtain ⟨result, i'', hstep, hstatus, hx⟩ :=
    tryStep_eq (setting.cosineAt (by decide) checkpoint (columns 1)) i'
  have hiteration := Setting.iteration_of_first_step (s := setting) (c := checkpoint) 0 ha lt_cosine
    (by simp [setting, Setting.ofStore, options, Options.default]) hstep
    (Status.isEmpty_eq_false hstatus)
  obtain ⟨evaluations, jacobians, j, hsearch⟩ := Setting.search_of_first store.names hp hiteration
  exact ⟨_, evaluations, jacobians, i, j, hsearch, .start hp, rfl, Setting.sameUpper_tryStep hstep, hx,
    hstatus⟩

/-! ### Where the covariance is wrong -/

instance : Subsingleton (Fin store.free.size) := inferInstanceAs (Subsingleton (Fin 1))

theorem getElem_freeColumns (p : ℝ) (i : Fin 2) (c : Fin store.free.size) :
    (store.freeColumns (columns p))[i][c] = (slopes p)[i] :=
  (Mat.getElem_ofFn _ i c).trans (Mat.getElem_ofFn _ i _)

theorem isRegular {p : ℝ} (hp : p ≠ 0) (x : Vector ℝ 1) : store.IsRegular x (columns p) where
  lower := Fin.forall_fin_one.2 nofun
  upper := Fin.forall_fin_one.2 nofun
  rank v hv := by
    ext e
    have hrow := congrFun hv 1
    rw [mulVec, dotProduct, Fintype.sum_subsingleton _ e, Mat.toMatrix_apply, getElem_freeColumns,
      getElem_slopes_one] at hrow
    exact (mul_eq_zero.1 hrow).resolve_left (mul_ne_zero two_ne_zero hp)

theorem covariance_eq {solution : Solution ℝ store.size 2} {p : ℝ}
    (h : solution.HasCovarianceOf (columns p)) (c : Fin store.free.size) :
    solution.covariance[store.freePlaces[c]][store.freePlaces[c]] = ((2 * p) ^ 2)⁻¹ := by
  rw [h c c, Matrix.inv_subsingleton, Matrix.diagonal_apply_eq, Ring.inverse_eq_inv',
    Matrix.mul_apply, Fin.sum_univ_two]
  simp only [transpose_apply, Mat.toMatrix_apply, getElem_freeColumns, getElem_slopes_zero,
    getElem_slopes_one]
  rw [mul_zero, zero_add, ← pow_two]

theorem minimizeWithin_eq : ∃ solution j,
    minimizeWithin 1 store function options (some #[1]) = (.ok solution, j) ∧
    solution.converged = true ∧ solution.parameters[(0 : Fin 1)] = 1 / 2 ∧
    solution.HasCovarianceOf (columns 1) := by
  obtain ⟨f, evaluations, jacobians, i, j, hsearch, hc, hmodel, hworkspace, hx, hstatus⟩ := search_eq
  refine ⟨setting.solutionOf store.names checkpoint.point.norm f evaluations jacobians, j,
    (minimizeWithin_of_start prepared 1).trans hsearch, Status.converged_iff.2 (.inl hstatus), hx,
    hasCovarianceOf_of_visits prepared rfl hc (isRegular one_ne_zero _) ?_⟩
  exact Solution.derivesFrom_solutionOf _ _ _ _ store.distinct_freePlaces hmodel hworkspace

end Parabola

/-- The fit of a parabola converges with a step from one to one half, and returns the covariance at
one. -/
theorem covariance_of_last_jacobian_parabola : ∃ solution j,
    prepare Parabola.store Parabola.function Parabola.options (some #[1]) =
      .ok ⟨.analytic, #v[1], by decide⟩ ∧
    minimizeWithin 1 Parabola.store Parabola.function Parabola.options (some #[1]) =
      (.ok solution, j) ∧
    ∃ c i full, Parabola.setting.Visits (by decide) 1 #v[1] c i ∧
      solution.jacobians = c.point.iterations + 1 ∧
      Parabola.function.jacobian (Parabola.store.applyTies c.point.x) = .ok full ∧
      (Parabola.store.TiesOrdered → Parabola.store.applyTies c.point.x = c.point.x) ∧
      (Parabola.store.IsRegular c.point.x full → solution.HasCovarianceOf full) ∧
      (solution.jacobians = solution.iterations + 1 ∧ solution.parameters = c.point.x ∨
        solution.jacobians = solution.iterations ∧
          solution.status.contains .gtolConverged = false ∧
          ∃ target, solution.parameters = Parabola.store.applyTies
            (overwrite c.point.x Parabola.store.freePlaces target)) := by
  obtain ⟨solution, j, hrun, -, -, -⟩ := Parabola.minimizeWithin_eq
  exact ⟨solution, j, Parabola.prepared, hrun,
    covariance_of_last_jacobian Parabola.prepared rfl rfl hrun⟩

/-- The covariance of a fit that converged need not be that of its solution: an exact Jacobian of
full column rank, no limits, nothing but zero negligible, and the default options otherwise. -/
theorem exists_covariance_of_earlier_point :
    (∀ (p : ℝ) (i : Fin 2), HasDerivAt (fun q => (Parabola.residuals q)[i])
      (Parabola.columns p)[i][(0 : Fin 1)] p) ∧
    (∀ x : Vector ℝ 1, Parabola.function.eval x = .ok (Parabola.residuals x[(0 : Fin 1)]) ∧
      Parabola.function.jacobian x = .ok (Parabola.columns x[(0 : Fin 1)])) ∧
    ∃ solution j full,
      minimize Parabola.store Parabola.function Parabola.options (some #[1]) = (.ok solution, j) ∧
      solution.converged = true ∧ Parabola.function.jacobian solution.parameters = .ok full ∧
      Parabola.store.IsRegular solution.parameters full ∧ ¬ solution.HasCovarianceOf full := by
  refine ⟨fun p i => ?_, fun x => ⟨Parabola.eval_eq x, Parabola.jacobian_eq x⟩, ?_⟩
  · rw [Parabola.columns, Mat.getElem_ofFn]
    exact Parabola.hasDerivAt p i
  · obtain ⟨solution, j, hrun, hconverged, hx, hcovariance⟩ := Parabola.minimizeWithin_eq
    have hminimize : minimize Parabola.store Parabola.function Parabola.options (some #[1]) =
        (.ok solution, j) := by
      rw [← hrun]
      exact minimizeWithin_eq_of_le (by decide) (by simp [hrun])
    refine ⟨solution, j, Parabola.columns (1 / 2), hminimize, hconverged, ?_,
      Parabola.isRegular (by norm_num) _, fun hwrong => ?_⟩
    · rw [← hx]
      exact Parabola.jacobian_eq solution.parameters
    · have heq := (Parabola.covariance_eq hcovariance (0 : Fin 1)).symm.trans
        (Parabola.covariance_eq hwrong (0 : Fin 1))
      norm_num at heq

end LeastSquares
