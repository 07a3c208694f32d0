import LeastSquares.Proofs.AffineRuns

/-!
Fits of affine residuals. A fit that converged has nearly the least sum of squares among the points
within reach of the test that ended it. Beyond reach it need not: slopes that count as zero add up
over a long way, and a step that a limit has cut short tells little of what a longer one would gain.
Two fits at the end show this.
-/

namespace LeastSquares

open Matrix

section Bounds

variable {store : Store ℝ} {function : ResidualFunction ℝ} {a : Mat ℝ function.count store.size}
  {b : Vector ℝ function.count} {initial : Option (Array ℝ)} {start : Start store function}
  {trials : ℕ} (huntied : ∀ i, (store.get i).tie = none) (hfunction : function.IsAffine a b)
  (hstart : prepare store function .default initial = .ok start)

include huntied hfunction hstart

/-- Where the gradient test fires, no point within reach has a sum of squares that is much smaller. -/
theorem squares_le_of_gradientCosine
    {c : Checkpoint ℝ store.size function.count store.free.size}
    {jacobian : Mat ℝ function.count store.free.size} {j i i' : Journal ℝ store.size}
    (h : (Setting.ofStore store function .default start.mode).Visits start.tall trials start.x c j)
    (hjacobian : ((Setting.ofStore store function .default start.mode).jacobianAt c.point.x
      c.point.residuals).resume i = (.ok jacobian, i'))
    (hcosine : ((Setting.ofStore store function .default start.mode).modelAt start.tall c
      jacobian).gradientCosine c.point.norm ≤ 1e-10)
    {y : Vector ℝ store.size} (hy : store.Feasible start.x y)
    (hreach : ∑ i, euclid (a.column i) * |y[i] - c.point.x[i]| ≤ 5000 * c.point.norm) :
    c.point.norm ^ 2 ≤ euclid (affine a b y) ^ 2 + 1e-6 * c.point.norm ^ 2 := by
  have hnorm : c.point.norm = euclid c.point.residuals := by
    rw [Setting.norm_eq_of_visits h, Setting.normOf_eq]
  have hnonneg : 0 ≤ c.point.norm := by
    rw [hnorm]
    exact euclid_nonneg _
  obtain ⟨hallows, hmodel⟩ := model_of_visits huntied hfunction hstart h hjacobian hy
  have hsum : ∑ d, euclid (jacobian.column d) * |store.displacement c.point.x y d| =
      ∑ i, euclid (a.column i) * |y[i] - c.point.x[i]| := by
    rw [Store.sum_freePlaces fun i hi => by
      rw [Store.eq_of_feasible huntied (constraints_of_visits hstart h) hy hi, sub_self, abs_zero,
        mul_zero]]
    refine Finset.sum_congr rfl fun d _ => ?_
    rw [jacobianAt_affine hfunction hstart hjacobian, Store.column_freeColumns, Store.displacement]
  have hbound := Linearization.norm_sq_le_of_gradientCosine (by norm_num) hnorm hcosine hallows
  rw [← hmodel, ← euclid_sq_eq_dotProduct, hsum] at hbound
  have hslopes := mul_le_mul_of_nonneg_left hreach hnonneg
  linarith

section LastStep

variable (last : (Setting.ofStore store function .default start.mode).LastStep start.tall trials
  start.x)

/-- Where a search stops for small reductions, no point within reach of its last step has a sum of
squares that is much smaller. -/
theorem squares_le_of_reaches (hftol : last.result.status.contains .ftolConverged = true)
    {y : Vector ℝ store.size} (hy : store.Feasible start.x y)
    (hreach : last.Reaches (store.displacement last.origin.x y)) :
    last.origin.norm ^ 2 ≤ euclid (affine a b y) ^ 2 + 1e-6 * last.origin.norm ^ 2 := by
  obtain ⟨_, _, _, _, hvisits, hjacobian, -, -⟩ := last.run
  obtain ⟨hallows, hmodel⟩ := model_of_visits huntied hfunction hstart hvisits hjacobian hy
  have hoptions := Options.validate_ok.1 (prepare_ok hstart).1
  have hnorm : last.origin.norm = euclid last.origin.residuals := by
    rw [Setting.LastStep.origin, Setting.norm_eq_of_visits hvisits, Setting.normOf_eq]
  rw [euclid_sq_eq_dotProduct, hmodel]
  exact last.norm_sq_le hoptions le_rfl hnorm hallows hftol hreach

/-- A whole step goes to a point with the least sum of squares among those where the parameters that
it held have not moved. -/
theorem squares_le_of_isWhole (hwhole : last.IsWhole) {y : Vector ℝ store.size}
    (hy : store.Feasible start.x y)
    (hheld : ∀ e ∈ last.held, store.displacement last.origin.x y e = 0) :
    last.result.progress.point.norm ^ 2 ≤ euclid (affine a b y) ^ 2 := by
  obtain ⟨_, _, _, _, hvisits, hjacobian, -, -⟩ := last.run
  obtain ⟨-, hmodel⟩ := model_of_visits huntied hfunction hstart hvisits hjacobian hy
  have hoptions := Options.validate_ok.1 (prepare_ok hstart).1
  obtain ⟨r, _, _, hr, hnorm⟩ := last.found_of_accepted hwhole.accepted
  have htarget : ∀ e : Fin store.free.size, last.proposal.move.target[e] =
      last.origin.x[store.freePlaces[e]] + last.aim[e] := by
    intro e
    rw [hwhole.target e, Setting.LastStep.origin, Store.free_eq_of_visits hvisits]
  have hfound : coords r = coords last.origin.residuals +
      last.jacobian.toMatrix *ᵥ coords last.aim := by
    rw [residualsAt_affine huntied hfunction hr, Setting.LastStep.origin,
      residuals_of_visits huntied hfunction hvisits, jacobianAt_affine hfunction hstart hjacobian]
    exact Store.coords_affine_overwrite a b htarget
  rw [hnorm, euclid_sq_eq_dotProduct, euclid_sq_eq_dotProduct, hfound, hmodel]
  exact last.squares_aim_le hoptions hwhole.undamped hheld

end LastStep

end Bounds

/-- In exact arithmetic, a converged fit of affine residuals has nearly the least sum of squares
among the feasible points within reach of the test that ended it. The gradient test reaches as far
as slopes that count as zero matter little, and the test of the reductions as far as the last step
tells. A last step that nothing damped, shortened or snapped goes to a minimum, among the points
where the parameters that it held stay, whatever test ended the fit. -/
theorem converged_affine_fit {store : Store ℝ} {function : ResidualFunction ℝ}
    {a : Mat ℝ function.count store.size} {b : Vector ℝ function.count}
    {initial : Option (Array ℝ)} {start : Start store function} {trials : ℕ}
    {solution : Solution ℝ store.size function.count} {j : Journal ℝ store.size}
    (huntied : ∀ i, (store.get i).tie = none) (hfunction : function.IsAffine a b)
    (hstart : prepare store function .default initial = .ok start)
    (hrun : minimizeWithin trials store function .default initial = (.ok solution, j))
    (hconverged : solution.converged = true) :
    (solution.status.contains .gtolConverged = true ∧
      ∀ y, store.Feasible start.x y →
        ∑ i, euclid (a.column i) * |y[i] - solution.parameters[i]| ≤ 5000 * √solution.chiSquare →
        solution.chiSquare ≤ euclid (affine a b y) ^ 2 + 1e-6 * solution.startChiSquare) ∨
    ∃ last : (Setting.ofStore store function .default start.mode).LastStep start.tall trials start.x,
      solution.parameters = last.result.progress.point.x ∧
      solution.status = last.result.status ∧
      (solution.status.contains .ftolConverged = true ∨
        solution.status.contains .xtolConverged = true) ∧
      ∀ y, store.Feasible start.x y →
        (solution.status.contains .ftolConverged = true →
          last.Reaches (store.displacement last.origin.x y) →
          solution.chiSquare ≤ euclid (affine a b y) ^ 2 + 1e-6 * solution.startChiSquare) ∧
        (last.IsWhole → (∀ e ∈ last.held, store.displacement last.origin.x y e = 0) →
          solution.chiSquare ≤ euclid (affine a b y) ^ 2) := by
  obtain ⟨start', hstart', h⟩ := minimizeWithin_ok hrun
  cases hstart.symm.trans hstart'
  have hlimit : (Options.default : Options ℝ).maxIterations ≠ 0 := by
    simp [Options.default]
  obtain ⟨norm, f, evaluations, jacobians, rfl, hbelow, hend⟩ := Setting.search_ends hlimit h
  have hnonneg : 0 ≤ f.point.norm := by
    rw [hbelow.measured]
    exact euclid_nonneg _
  have hle : 1e-6 * f.point.norm ^ 2 ≤ 1e-6 * (norm * norm) := by
    rw [← pow_two]
    exact mul_le_mul_of_nonneg_left (pow_le_pow_left₀ hnonneg hbelow.le 2) (by norm_num)
  rw [Setting.chiSquare_solutionOf hbelow.measured, Real.sqrt_sq hnonneg]
  -- the search ends with the gradient test of an iteration or with the last step of one
  rcases hend with ⟨c, jacobian, v, i, i', hc, hjacobian, hcosine, hpoint, hstatus⟩ |
    ⟨last, hpoint, hstatus⟩
  · refine .inl ⟨?_, fun y hy hreach => ?_⟩
    · change f.status.contains .gtolConverged = true
      rw [hstatus]
      exact Options.contains_gradientStatus.2 hcosine
    · change ∑ i, euclid (a.column i) * |y[i] - f.point.x[i]| ≤ 5000 * f.point.norm at hreach
      have hnorm : f.point.norm = c.point.norm := by
        rw [hpoint]
      have hx : f.point.x = c.point.x := by
        rw [hpoint]
      rw [hnorm, hx] at hreach
      rw [hnorm] at hle ⊢
      have hbound := squares_le_of_gradientCosine huntied hfunction hstart hc hjacobian hcosine hy
        hreach
      exact hbound.trans (add_le_add_right hle _)
  · refine .inr ⟨last, congrArg Iterate.x hpoint, hstatus, ?_, fun y hy => ⟨?_, ?_⟩⟩
    · rcases Status.converged_iff.1 hconverged with h | h | h
      · exact .inl h
      · exact .inr h
      · change f.status.contains .gtolConverged = true at h
        rw [hstatus, last.not_gtolConverged] at h
        cases h
    · intro hftol hreach
      change f.status.contains .ftolConverged = true at hftol
      rw [hstatus] at hftol
      have hbound := squares_le_of_reaches huntied hfunction hstart last hftol hy hreach
      have hsquares := pow_le_pow_left₀ hnonneg (hpoint ▸ last.norm_result_le) 2
      change f.point.norm ^ 2 ≤ euclid (affine a b y) ^ 2 + 1e-6 * (norm * norm)
      linarith
    · intro hwhole hheld
      rw [hpoint]
      exact squares_le_of_isWhole huntied hfunction hstart last hwhole hy hheld

/-! ### A fit with hardly any slope -/

theorem affine_two (a : Mat ℝ 2 2) (b x : Vector ℝ 2) (i : Fin 2) :
    (affine a b x)[i] = a[i][(0 : Fin 2)] * x[(0 : Fin 2)] + a[i][(1 : Fin 2)] * x[(1 : Fin 2)] +
      b[i] := by
  rw [affine, getElem_ofFn, Fin.sum_univ_two]

namespace Parallel

noncomputable def store : Store ℝ := ⟨#[.ofValue 0, .ofValue 0]⟩

noncomputable def columns : Mat ℝ 2 2 := #v[#v[1, 1], #v[0, 1e-11]]

noncomputable def offset : Vector ℝ 2 := #v[0, 1]

theorem get_store (i : Fin store.size) : store.get i = .ofValue 0 := by
  obtain ⟨i, hi⟩ := i
  have hi' : i < 2 := hi
  interval_cases i <;> rfl

theorem feasible (start y : Vector ℝ 2) : store.Feasible start y := by
  refine ⟨⟨fun i _ hfixed => ?_, fun _ i t ht => ?_⟩, Store.within_iff.2 fun i _ => ?_⟩
  · rw [get_store] at hfixed
    cases hfixed
  · rw [get_store] at ht
    cases ht
  · rw [get_store]
    simp [Parameter.ofValue]

theorem untied (i : Fin store.size) : (store.get i).tie = none := by
  rw [get_store]
  rfl

theorem prepared : prepare store (.ofAffine columns offset) .default (some #[0, 0]) =
    .ok ⟨.analytic, #v[0, 0], by decide⟩ :=
  prepare_default rfl rfl (feasible #v[0, 0] _).2 (by decide) (by decide)

theorem residuals_start : affine columns offset #v[0, 0] = #v[0, 1] := by
  refine ext_getElem fun i => ?_
  rw [affine_two]
  change _ * 0 + _ * 0 + (#v[0, 1] : Vector ℝ 2)[i] = _
  rw [mul_zero, mul_zero, zero_add, zero_add]

theorem squares_start : euclid (affine columns offset #v[0, 0]) ^ 2 = 1 := by
  rw [residuals_start, euclid_sq, Fin.sum_univ_two]
  change (0 : ℝ) ^ 2 + 1 ^ 2 = 1
  norm_num

theorem one_le_euclid_column (i : Fin 2) : 1 ≤ euclid (columns.column i) := by
  have hentry : columns[(0 : Fin 2)][i] = 1 := by
    fin_cases i <;> rfl
  refine le_of_sq_le_sq ?_ (euclid_nonneg _)
  rw [euclid_sq, Fin.sum_univ_two, Mat.getElem_column, hentry]
  exact le_add_of_nonneg_right (sq_nonneg _)

theorem flat_start (i : Fin 2) : |dot (affine columns offset #v[0, 0]) (columns.column i)| ≤
    1e-10 * euclid (columns.column i) * euclid (affine columns offset #v[0, 0]) := by
  have hnorm : euclid (affine columns offset #v[0, 0]) = 1 := by
    rw [← Real.sqrt_sq (euclid_nonneg _), squares_start, Real.sqrt_one]
  have hslope : dot (affine columns offset #v[0, 0]) (columns.column i) =
      columns[(1 : Fin 2)][i] := by
    rw [residuals_start, dot_eq, Fin.sum_univ_two, Mat.getElem_column, Mat.getElem_column]
    change 0 * _ + 1 * _ = _
    rw [zero_mul, zero_add, one_mul]
  have hentry : |columns[(1 : Fin 2)][i]| ≤ 1e-11 := by
    fin_cases i
    · change |(0 : ℝ)| ≤ 1e-11
      norm_num
    · change |(1e-11 : ℝ)| ≤ 1e-11
      norm_num
  rw [hnorm, hslope]
  linarith [one_le_euclid_column i]

theorem minimize_eq : ∃ solution j,
    minimize store (.ofAffine columns offset) .default (some #[0, 0]) = (.ok solution, j) ∧
      solution.status.contains .gtolConverged = true ∧ solution.chiSquare = 1 ∧
      solution.startChiSquare = 1 := by
  obtain ⟨solution, j, hsearch, hstatus, hchi, hstart⟩ := search_of_flat untied
    (ResidualFunction.isAffine_ofAffine columns offset) (by decide)
    (Options.trialBound (.default : Options ℝ)) (x := #v[0, 0]) flat_start
  exact ⟨solution, j, (minimizeWithin_of_start prepared _).trans hsearch, hstatus,
    hchi.trans squares_start, hstart.trans squares_start⟩

theorem squares_far : euclid (affine columns offset #v[1e11, -1e11]) ^ 2 = 0 := by
  rw [sq_eq_zero_iff, euclid_eq_zero]
  intro i
  rw [affine_two]
  fin_cases i
  · change (1 : ℝ) * 1e11 + 1 * -1e11 + 0 = 0
    norm_num
  · change (0 : ℝ) * 1e11 + 1e-11 * -1e11 + 1 = 0
    norm_num

end Parallel

/-! ### A fit next to a limit -/

theorem sq_euclid_of_const {x : Vector ℝ 2} {v : ℝ} (h : ∀ e : Fin 2, x[e] = v) :
    euclid x ^ 2 = 2 * v ^ 2 := by
  rw [euclid_sq, Fin.sum_univ_two, h, h, two_mul]

theorem euclid_of_const {x : Vector ℝ 2} {v : ℝ} (hv : 0 ≤ v) (h : ∀ e : Fin 2, x[e] = v) :
    euclid x = √2 * v := by
  rw [← Real.sqrt_sq (euclid_nonneg x), sq_euclid_of_const h, Real.sqrt_mul zero_le_two,
    Real.sqrt_sq hv]

namespace Cramped

/-- Two parameters that are best at two and start at one, the first of them next to its upper
limit. -/
noncomputable def store : Store ℝ :=
  ⟨#[{ value := some 1, bounds := ⟨none, some (1 + 1e-12)⟩ }, .ofValue 1]⟩

noncomputable def columns : Mat ℝ 2 2 := #v[#v[1, 0], #v[0, 1]]

noncomputable def offset : Vector ℝ 2 := #v[-2, -2]

noncomputable def setting : Setting ℝ 2 2 2 :=
  .ofStore store (.ofAffine columns offset) .default .analytic

noncomputable def point : Iterate ℝ 2 2 2 :=
  firstPoint store (.ofAffine columns offset) columns offset #v[1, 1]

noncomputable def model : Linearization ℝ 2 2 :=
  .ofJacobian setting.limits point columns le_rfl

theorem getElem_start (i : Fin 2) : (#v[1, 1] : Vector ℝ 2)[i] = 1 := by
  fin_cases i <;> rfl

theorem free_point (e : Fin 2) : point.free[e] = 1 := by
  change (setting.free.map ((#v[1, 1] : Vector ℝ 2)[·]))[e] = 1
  rw [getElem_map, getElem_start]

theorem residuals_point (i : Fin 2) : point.residuals[i] = -1 := by
  change (affine columns offset #v[1, 1])[i] = -1
  rw [affine_two]
  fin_cases i
  · change (1 : ℝ) * 1 + 0 * 1 + -2 = -1
    norm_num
  · change (0 : ℝ) * 1 + 1 * 1 + -2 = -1
    norm_num

theorem not_atLower (e : Fin 2) (x : ℝ) : setting.limits.atLower e x = false := by
  fin_cases e <;> rfl

theorem not_atUpper (e : Fin 2) : setting.limits.atUpper e 1 = false := by
  fin_cases e
  · change decide ((1 : ℝ) + 1e-12 ≤ 1) = false
    norm_num
  · rfl

theorem held_eq : setting.limits.held point columns = ∅ := by
  refine Finset.filter_false_of_mem fun e _ => ?_
  rw [StepLimits.pointsOutward_iff, free_point, not_atLower, not_atUpper]
  simp

theorem toMatrix_columns : columns.toMatrix = 1 := by
  ext i c
  fin_cases i <;> fin_cases c <;> rfl

theorem masked_eq : Linearization.masked setting.limits point columns = columns :=
  StepLimits.masked_of_held_eq_empty held_eq

theorem columnNorms_eq (e : Fin 2) : model.columnNorms[e] = 1 := by
  rw [model, Linearization.columnNorms_ofJacobian, masked_eq, euclid, Fin.sum_univ_two,
    Mat.getElem_column, Mat.getElem_column]
  fin_cases e
  · change √((1 : ℝ) ^ 2 + 0 ^ 2) = 1
    norm_num
  · change √((0 : ℝ) ^ 2 + 1 ^ 2) = 1
    norm_num

theorem slope_lt : 1e-10 < model.gradientCosine point.norm := by
  refine not_le.1 fun h => ?_
  rcases (Setting.gradientCosine_le_iff (by norm_num) rfl).1 h with hzero | hall
  · have hzero := hzero 0
    rw [residuals_point] at hzero
    norm_num at hzero
  · rcases hall 0 with h | ⟨hlimit, -⟩ | ⟨hlimit, -⟩ | h
    · exact one_ne_zero (α := ℝ) (h 0)
    · rw [not_atLower] at hlimit
      cases hlimit
    · rw [free_point, not_atUpper] at hlimit
      cases hlimit
    · have hslope : dot point.residuals (columns.column 0) = -1 := by
        rw [dot_eq, Fin.sum_univ_two, residuals_point, residuals_point,
          Mat.getElem_column, Mat.getElem_column]
        change (-1 : ℝ) * 1 + -1 * 0 = -1
        norm_num
      have hcolumn : euclid (columns.column 0) = 1 := by
        rw [← masked_eq]
        exact (Linearization.columnNorms_ofJacobian _ _ _ le_rfl 0).symm.trans (columnNorms_eq 0)
      have hnorm : euclid point.residuals ≤ 2 := by
        refine abs_le_of_sq_le_sq' ?_ (by norm_num) |>.2
        rw [sq_euclid_of_const residuals_point]
        norm_num
      rw [hslope, hcolumn] at h
      norm_num at h
      linarith

noncomputable def scale : Vector ℝ 2 :=
  firstScale store (.ofAffine columns offset) columns offset le_rfl #v[1, 1]

theorem scale_eq (e : Fin 2) : scale[e] = 1 := by
  have hinitial : model.initialScale[e] = 1 := by
    rw [Linearization.initialScale, getElem_map, columnNorms_eq, if_neg (by simp)]
  change (model.raiseScale model.initialScale)[e] = 1
  rw [Linearization.raiseScale, getElem_zipWith, hinitial, columnNorms_eq]
  exact max_self 1

noncomputable def whole : Vector ℝ 2 := (model.stepModel scale).undamped model.r

theorem isDampedStep : (model.stepModel scale).IsDampedStep model.r ⟨0, whole, model.r⟩ :=
  StepModel.isDampedStep_undamped (Linearization.distinct_ofJacobian _ _ _ le_rfl)
    (Linearization.revealsRank_ofJacobian _ _ _ le_rfl)

theorem getElem_whole (e : Fin 2) : whole[e] = -1 := by
  have hnormal := Linearization.normal_of_isDampedStep isDampedStep e
  rw [masked_eq, toMatrix_columns] at hnormal
  simp only [transpose_one, one_mulVec, coords_apply, zero_mul, add_zero, residuals_point]
    at hnormal
  exact hnormal

noncomputable def proposal : Proposal ℝ 2 :=
  firstProposal store (.ofAffine columns offset) columns offset le_rfl #v[1, 1]

theorem damped_eq : proposal.damped = ⟨0, whole, model.r⟩ := by
  have hscaled : ∀ e : Fin 2, (scaleBy model.initialScale point.free)[e] = 1 := by
    intro e
    rw [getElem_scaleBy, Linearization.initialScale, getElem_map, columnNorms_eq,
      free_point, if_neg (by simp), one_mul]
  have hlength : euclid (scaleBy model.initialScale point.free) = √2 := by
    rw [euclid_of_const zero_le_one hscaled, mul_one]
  have hradius : (TrustRegion.initial 100.0 (setting.scaledNorm model.initialScale
      point.free)).radius = 100 * √2 := by
    rw [Setting.scaledNorm, Setting.normOf_eq, hlength, TrustRegion.initial, if_neg (by simp)]
    norm_num
  refine StepModel.dampedStep_of_le (r := model.r) (hradius.ge.trans' (by positivity)) ?_
  · have hstep : ∀ e : Fin 2, (scaleBy scale whole)[e] = -1 := by
      intro e
      rw [getElem_scaleBy, getElem_whole, scale_eq, one_mul]
    change NormedScalar.norm (scaleBy scale whole).toList ≤
      (TrustRegion.initial 100.0 (setting.scaledNorm model.initialScale point.free)).radius
    rw [hradius, norm_toList, ← Real.sqrt_sq (euclid_nonneg _), sq_euclid_of_const hstep]
    norm_num

theorem dropped_eq (e : Fin 2) :
    setting.limits.dropOutward point.free (whole.map (- ·)) e = 1 := by
  unfold StepLimits.dropOutward
  rw [free_point, not_atLower, not_atUpper]
  simp [getElem_whole]

theorem move_eq : proposal.move = setting.move point.free whole := by
  change setting.move point.free proposal.damped.x = _
  rw [damped_eq]

theorem part_eq : proposal.move.part = 1e-12 := by
  have hlower : ∀ e : Fin 2, ∀ l ∈ setting.limits.lower[e], l ≤ point.free[e] :=
    Fin.forall_fin_two.2 ⟨nofun, nofun⟩
  have hupper : ∀ e : Fin 2, ∀ u ∈ setting.limits.upper[e], point.free[e] ≤ u := by
    refine Fin.forall_fin_two.2 ⟨fun u hu => ?_, nofun⟩
    obtain rfl : (1 : ℝ) + 1e-12 = u := Option.some.inj hu
    rw [free_point]
    norm_num
  have hreached : ∀ (t : ℝ) (e : Fin 2),
      point.free[e] + t * (setting.limits.inward point.free (whole.map (- ·)))[e] = 1 + t := by
    intro t e
    rw [← StepLimits.dropOutward_eq hlower hupper, dropped_eq, free_point, mul_one]
  have hlarge : ∀ e : Fin 2, Scalar.epsilon < |(whole.map (- ·))[e]| := fun e => by
    rw [getElem_map, getElem_whole, neg_neg]
    change (2 : ℝ) ^ (-52 : ℤ) < |1|
    norm_num
  rw [move_eq]
  change (setting.limits.restrict point.free (whole.map (- ·))).1 = 1e-12
  refine (StepLimits.isGreatest_restrict_fst hlower hupper
    (Fin.forall_fin_two.2 ⟨nofun, nofun⟩)).unique ⟨⟨⟨by norm_num, by norm_num⟩, ?_⟩, ?_⟩
  · refine ⟨Fin.forall_fin_two.2 ⟨fun _ => nofun, fun _ => nofun⟩,
      Fin.forall_fin_two.2 ⟨fun _ u hu => ?_, fun _ => nofun⟩, Fin.forall_fin_two.2 ⟨nofun, nofun⟩⟩
    rw [hreached]
    exact (Option.some.inj hu).le
  · rintro t ⟨-, h⟩
    have hle := h.upper 0 (hlarge 0) (1 + 1e-12) rfl
    rw [hreached] at hle
    exact le_of_add_le_add_left hle

theorem step_eq (e : Fin 2) : proposal.move.step[e] = 1e-12 := by
  rw [move_eq, Setting.getElem_move_step, ← move_eq, dropped_eq, part_eq, one_mul]

theorem target_eq (e : Fin 2) : proposal.move.target[e] = 1 + 1e-12 := by
  rw [move_eq, Setting.getElem_move_target, ← move_eq, free_point, step_eq]
  fin_cases e
  · change StepLimits.snapToUpper ((1 : ℝ) + 1e-12) (1 + 1e-12) = 1 + 1e-12
    unfold StepLimits.snapToUpper
    split <;> rfl
  · rfl

theorem isUndamped : proposal.IsUndamped model scale := by
  refine Setting.isUndamped_propose damped_eq isDampedStep (fun e => ?_) ?_
  · rw [getElem_whole, neg_neg]
    exact dropped_eq e
  · change Scalar.minNormal ≤ proposal.move.part
    rw [part_eq]
    exact (minNormal_le_zpow (e := -40) (by norm_num)).trans (by norm_num)

theorem gain_eq : proposal.gain columns = 2 := by
  rw [Proposal.gain, toMatrix_columns, one_mulVec, damped_eq, ← euclid_sq_eq_dotProduct,
    sq_euclid_of_const getElem_whole]
  norm_num

theorem cutsFirstStep :
    CutsFirstStep store (.ofAffine columns offset) columns offset le_rfl #v[1, 1] where
  slope := slope_lt
  undamped := isUndamped
  gain := gain_eq.symm ▸ two_pos
  held := held_eq
  target e := by
    refine (target_eq e).trans (congrArg₂ (· + ·) ?_ (step_eq e).symm)
    exact (getElem_start store.freePlaces[e]).symm
  cut := by
    change 2 * proposal.move.part ≤ 1e-10
    rw [part_eq]
    norm_num

theorem get_store (i : Fin store.size) : (store.get i).tie = none ∧ (store.get i).isFixed = false ∧
    (store.get i).bounds.lower = none ∧
      ∀ u ∈ (store.get i).bounds.upper, i.val = 0 ∧ u = 1 + 1e-12 := by
  obtain ⟨i, hi⟩ := i
  have hi' : i < 2 := hi
  interval_cases i
  · refine ⟨rfl, rfl, rfl, fun u hu => ⟨rfl, ?_⟩⟩
    exact (Option.some.inj hu).symm
  · exact ⟨rfl, rfl, rfl, nofun⟩

theorem untied (i : Fin store.size) : (store.get i).tie = none := (get_store i).1

theorem feasible (start : Vector ℝ 2) {y : Vector ℝ 2} (h : y[(0 : Fin 2)] ≤ 1 + 1e-12) :
    store.Feasible start y := by
  refine ⟨⟨fun i _ hfixed => ?_, fun _ i t ht => ?_⟩,
    Store.within_iff.2 fun i _ => ⟨fun l hl => ?_, fun u hu => ?_⟩⟩
  · rw [(get_store i).2.1] at hfixed
    cases hfixed
  · rw [untied] at ht
    cases ht
  · rw [(get_store i).2.2.1] at hl
    cases hl
  · obtain ⟨hi, rfl⟩ := (get_store i).2.2.2 u hu
    obtain rfl : i = (0 : Fin 2) := Fin.ext hi
    exact h

theorem prepared : prepare store (.ofAffine columns offset) .default (some #[1, 1]) =
    .ok ⟨.analytic, #v[1, 1], le_rfl⟩ :=
  prepare_default rfl rfl (feasible #v[1, 1] (by norm_num [getElem_start])).2 (by decide) le_rfl

theorem minimize_eq : ∃ solution j,
    minimize store (.ofAffine columns offset) .default (some #[1, 1]) = (.ok solution, j) ∧
      solution.status.contains .ftolConverged = true ∧
      solution.status.contains .xtolConverged = true ∧ solution.startChiSquare = 2 ∧
      (1 - 1e-10) * 2 ≤ solution.chiSquare := by
  obtain ⟨solution, j, hsearch, hftol, hxtol, hstart, hchi⟩ := cutsFirstStep.search 99999 untied
    (ResidualFunction.isAffine_ofAffine columns offset)
  have hsquares : euclid (affine columns offset #v[1, 1]) ^ 2 = 2 :=
    (sq_euclid_of_const residuals_point).trans (by norm_num)
  refine ⟨solution, j, (minimizeWithin_of_start prepared _).trans hsearch, hftol, hxtol ?_,
    hstart.trans hsquares, ?_⟩
  · have hlength : proposal.length = √2 * 1e-12 := by
      refine (Setting.normOf_eq setting _).trans (euclid_of_const (by norm_num) fun e => ?_)
      change (scaleBy scale proposal.move.step)[e] = 1e-12
      rw [getElem_scaleBy, scale_eq, step_eq, one_mul]
    have hnorm : setting.scaledNorm scale proposal.move.target = √2 * (1 + 1e-12) := by
      refine (Setting.normOf_eq setting _).trans (euclid_of_const (by norm_num) fun e => ?_)
      rw [getElem_scaleBy, scale_eq, target_eq, one_mul]
    change proposal.length / 0.5 ≤ 1e-10 * setting.scaledNorm scale proposal.move.target
    rw [hlength, hnorm, mul_div_assoc, mul_left_comm]
    exact mul_le_mul_of_nonneg_left (by norm_num) (Real.sqrt_nonneg 2)
  · exact (congrArg ((1 - 1e-10) * ·) hsquares).symm.trans_le hchi

theorem squares_far : euclid (affine columns offset #v[1, 2]) ^ 2 = 1 := by
  rw [euclid_sq, Fin.sum_univ_two, affine_two, affine_two]
  change ((1 : ℝ) * 1 + 0 * 2 + -2) ^ 2 + (0 * 1 + 1 * 2 + -2) ^ 2 = 1
  norm_num

end Cramped

/-- A converged fit can be far above the minimum inside the limits: at a start where slopes count as
zero, and after a first step that a limit has cut short. -/
theorem exists_converged_above_minimum :
    (∃ solution j y,
      minimize Parallel.store (.ofAffine Parallel.columns Parallel.offset) .default
        (some #[0, 0]) = (.ok solution, j) ∧
      solution.converged = true ∧ solution.status.contains .gtolConverged = true ∧
      Parallel.store.Feasible #v[0, 0] y ∧
      1.01 * euclid (affine Parallel.columns Parallel.offset y) ^ 2 +
        1e-6 * solution.startChiSquare < solution.chiSquare) ∧
    ∃ solution j y,
      minimize Cramped.store (.ofAffine Cramped.columns Cramped.offset) .default
        (some #[1, 1]) = (.ok solution, j) ∧
      solution.converged = true ∧ solution.status.contains .ftolConverged = true ∧
      solution.status.contains .xtolConverged = true ∧ Cramped.store.Feasible #v[1, 1] y ∧
      1.01 * euclid (affine Cramped.columns Cramped.offset y) ^ 2 +
        1e-6 * solution.startChiSquare < solution.chiSquare := by
  constructor
  · obtain ⟨solution, j, hrun, hgtol, hchi, hstart⟩ := Parallel.minimize_eq
    refine ⟨solution, j, #v[1e11, -1e11], hrun, Status.converged_iff.2 (.inr (.inr hgtol)), hgtol,
      Parallel.feasible _ _, ?_⟩
    rw [Parallel.squares_far, hstart, hchi]
    norm_num
  · obtain ⟨solution, j, hrun, hftol, hxtol, hstart, hchi⟩ := Cramped.minimize_eq
    refine ⟨solution, j, #v[1, 2], hrun, Status.converged_iff.2 (.inl hftol), hftol, hxtol,
      Cramped.feasible _ ?_, ?_⟩
    · change (1 : ℝ) ≤ 1 + 1e-12
      norm_num
    · rw [Cramped.squares_far, hstart]
      linarith

/-- Within reach of its start, the fit with hardly any slope has nearly the least sum of squares. -/
theorem converged_parallel_fit : ∃ solution j,
    minimize Parallel.store (.ofAffine Parallel.columns Parallel.offset) .default (some #[0, 0]) =
      (.ok solution, j) ∧
    solution.converged = true ∧
    ∀ y, Parallel.store.Feasible #v[0, 0] y →
      ∑ i : Fin 2, euclid (Parallel.columns.column i) * |y[i] - solution.parameters[i]| ≤
        5000 * √solution.chiSquare →
      solution.chiSquare ≤ euclid (affine Parallel.columns Parallel.offset y) ^ 2 +
        1e-6 * solution.startChiSquare := by
  obtain ⟨solution, j, hrun, hgtol, -, -⟩ := Parallel.minimize_eq
  have hconverged : solution.converged = true := Status.converged_iff.2 (.inr (.inr hgtol))
  refine ⟨solution, j, hrun, hconverged, ?_⟩
  rcases converged_affine_fit Parallel.untied
      (ResidualFunction.isAffine_ofAffine Parallel.columns Parallel.offset) Parallel.prepared hrun
      hconverged with ⟨-, hreach⟩ | ⟨last, -, hstatus, -⟩
  · exact hreach
  · rw [hstatus, last.not_gtolConverged] at hgtol
    cases hgtol

end LeastSquares
