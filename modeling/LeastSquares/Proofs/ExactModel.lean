import LeastSquares.Proofs.Counters
import LeastSquares.Proofs.Derivatives
import LeastSquares.Proofs.ShortSteps
import LeastSquares.Proofs.Trials

/-!
Fits whose linear model is exact: affine residuals with their exact Jacobian, and no limit, cap or tie
that could keep a step from being taken as it was computed. Every trial step gains what was predicted
of it, so that none is rejected. Where the first step needs no damping it leads to a minimum, whatever
the rank of the Jacobian, and the fit ends there.
-/

namespace LeastSquares

open Matrix

variable {n m k : ℕ}

/-! ### Steps without limits -/

namespace StepLimits

structure Unlimited (limits : StepLimits ℝ k) : Prop where
  lower : ∀ c : Fin k, limits.lower[c] = none
  upper : ∀ c : Fin k, limits.upper[c] = none
  maxStep : ∀ c : Fin k, limits.maxStep[c] = none

namespace Unlimited

variable {limits : StepLimits ℝ k} (h : limits.Unlimited)

include h

theorem atLower_eq (c : Fin k) (x : ℝ) : limits.atLower c x = false := by
  rw [atLower, h.lower, Option.any_none]

theorem atUpper_eq (c : Fin k) (x : ℝ) : limits.atUpper c x = false := by
  rw [atUpper, h.upper, Option.any_none]

theorem held_eq (p : Iterate ℝ n m k) (jacobian : Mat ℝ m k) : limits.held p jacobian = ∅ := by
  rw [held, Finset.filter_eq_empty_iff]
  intro c _
  simp [pointsOutward, h.atLower_eq, h.atUpper_eq]

theorem inward (p : Iterate ℝ n m k) (jacobian : Mat ℝ m k) (c : Fin k) :
    ¬ limits.pointsOutward p.free jacobian p.residuals c = true :=
  inward_of_held (h.held_eq p jacobian) c

theorem masked_eq (p : Iterate ℝ n m k) (jacobian : Mat ℝ m k) :
    Linearization.masked limits p jacobian = jacobian :=
  masked_of_held_eq_empty (h.held_eq p jacobian)

theorem restrict_eq (x step : Vector ℝ k) : limits.restrict x step = (1, step) := by
  have hpart : (limits.restrict x step).1 = 1 := by
    refine restrict_fst_eq_one ?_ ?_ ?_ ⟨fun c _ => ?_, fun c _ => ?_, fun c => ?_⟩
    · simp [h.lower]
    · simp [h.upper]
    · simp [h.maxStep]
    · simp [h.lower]
    · simp [h.upper]
    · simp [h.maxStep]
  refine Prod.ext hpart (ext_getElem fun c => ?_)
  rw [getElem_restrict_snd, hpart, mul_one]
  simp [dropOutward, h.atLower_eq, h.atUpper_eq]

theorem snap_eq (trial : Vector ℝ k) : limits.snap trial = trial := by
  refine ext_getElem fun c => ?_
  rw [snap, getElem_ofFn, snapValue, h.lower, h.upper]
  rfl

end Unlimited

end StepLimits

namespace Linearization

variable {limits : StepLimits ℝ k} {p : Iterate ℝ n m k} {jacobian : Mat ℝ m k} {tall : k ≤ m}

theorem gradientCosine_le_of_slope (norm : ℝ) {tolerance : ℝ} (htolerance : 0 ≤ tolerance)
    (h : (masked limits p jacobian).toMatrixᵀ *ᵥ coords p.residuals = 0) :
    (ofJacobian limits p jacobian tall).gradientCosine norm ≤ tolerance := by
  refine (gradientCosine_le_iff htolerance).2 (.inr fun j _ => ?_)
  rw [cosineAt_eq, ← transpose_mulVec_apply, h]
  simpa using htolerance

/-- A damped step that neither gains nor weighs anything was computed where no slope is left. -/
theorem slope_eq_zero {scale : Vector ℝ k} {t : Proposal ℝ k}
    (hdamped : ((ofJacobian limits p jacobian tall).stepModel scale).IsDampedStep
      (ofJacobian limits p jacobian tall).r t.damped)
    (hgain : t.gain (masked limits p jacobian) = 0) (hweight : t.weight scale = 0) :
    (masked limits p jacobian).toMatrixᵀ *ᵥ coords p.residuals = 0 := by
  have himage : (masked limits p jacobian).toMatrix *ᵥ coords t.damped.x = 0 :=
    dotProduct_self_eq_zero.1 hgain
  ext e
  rw [← normal_of_isDampedStep hdamped e, himage, mulVec_zero, Pi.zero_apply, zero_add]
  rw [Proposal.weight, mul_eq_zero] at hweight
  rcases hweight with hdamping | hlength
  · rw [hdamping, zero_mul, zero_mul]
  · rw [Finset.sum_eq_zero_iff_of_nonneg fun _ _ => sq_nonneg _] at hlength
    have hentry : scale[e] * t.damped.x[e] = 0 := pow_eq_zero_iff two_ne_zero |>.1
      (hlength e (Finset.mem_univ e))
    rw [pow_two, mul_assoc, mul_assoc, hentry, mul_zero, mul_zero]

end Linearization

namespace Setting

variable {s : Setting ℝ n m k} {l : Linearization ℝ m k} {scale : Vector ℝ k}
  {p : Progress ℝ n m k}

section Unlimited

variable (h : s.limits.Unlimited)

include h

theorem part_propose : (s.propose l scale p).move.part = 1 := by
  show (s.limits.restrict _ _).1 = 1
  rw [h.restrict_eq]

theorem step_propose (e : Fin k) :
    (s.propose l scale p).move.step[e] = -(s.propose l scale p).damped.x[e] := by
  show (s.limits.restrict _ _).2[e] = _
  rw [h.restrict_eq, getElem_map]
  rfl

theorem target_propose (e : Fin k) : (s.propose l scale p).move.target[e] =
    p.point.free[e] + (s.propose l scale p).move.step[e] := by
  show (s.limits.snap _)[e] = _
  rw [h.snap_eq, getElem_zipWith]
  rfl

theorem isShortened_propose
    (hdamped : (l.stepModel scale).IsDampedStep l.r (s.propose l scale p).damped) :
    (s.propose l scale p).IsShortened l scale where
  damped := hdamped
  region := damping_propose
  step e := by rw [part_propose h, one_mul, step_propose h]
  length _ := by
    show s.scaledNorm scale (s.propose l scale p).move.step ^ 2 = _
    rw [scaledNorm, normOf_eq, euclid_sq, part_propose h, one_pow, one_mul]
    refine Finset.sum_congr rfl fun e _ => ?_
    rw [getElem_scaleBy, step_propose h, mul_neg, neg_sq]
  minNormal_le := by
    rw [part_propose h]
    exact minNormal_le_one
  le_one := (part_propose h).le

theorem descent_propose (jacobian : Mat ℝ m k) :
    (s.propose l scale p).descent jacobian scale =
      (s.propose l scale p).gain jacobian + 2 * (s.propose l scale p).weight scale := by
  rw [Proposal.descent, part_propose h]
  ring

variable {tall : k ≤ m} {trials : ℕ} {x : Vector ℝ n} {c : Checkpoint ℝ n m k} {a : Mat ℝ m k}
  {q : Progress ℝ n m k} {i : Journal ℝ n}

/-- The gradient test lets no step through that would not gain. -/
theorem Attempts.descent_pos (hq : s.Attempts tall trials x c a q i)
    (hoptions : s.options.InRange) :
    0 < (s.proposalAt tall c a q).descent (Linearization.masked s.limits c.point a)
      (s.scaleAt tall c a) := by
  set t := s.proposalAt tall c a q
  have hdamped := hq.isDampedStep hoptions
  have hgain := t.gain_nonneg (Linearization.masked s.limits c.point a)
  have hweight : 0 ≤ t.weight (s.scaleAt tall c a) := (isShortened_propose h hdamped).weight_nonneg
  rw [show t.descent _ (s.scaleAt tall c a) = _ from descent_propose h _]
  refine lt_of_le_of_ne (by linarith) fun hzero => not_le.2 hq.gradient ?_
  -- nothing to gain means that there is no slope, and then the test has fired
  have hgtol : 0 ≤ s.options.gtol := Options.isTolerance_iff.1 hoptions.gtol
  exact Linearization.gradientCosine_le_of_slope _ hgtol
    (Linearization.slope_eq_zero hdamped (by linarith) (by linarith))

end Unlimited

end Setting

/-! ### The first step -/

namespace Setting

section FirstStep

variable {s : Setting ℝ n m k} {tall : k ≤ m} {c : Checkpoint ℝ n m k} {a : Mat ℝ m k} {e : Fin k}

theorem norm_rescale (l : Linearization ℝ m k) (c : Checkpoint ℝ n m k) :
    (s.rescale l c).point.norm = c.point.norm := by
  obtain ⟨v, hpoint⟩ := rescale_point (s := s) l c
  rw [hpoint]

/-- Before the first step the scale is that of the columns, unless it was chosen. -/
theorem rescale_first (hchosen : s.options.scale = none) (hfirst : c.point.iterations = 0)
    (l : Linearization ℝ m k) :
    s.rescale l c =
      ⟨l.initialScale, .initial s.options.factor (s.scaledNorm l.initialScale c.point.free),
        { c.point with scaledNorm := s.scaledNorm l.initialScale c.point.free }⟩ := by
  rw [rescale, if_pos hfirst, chosenScale, hchosen]
  rfl

/-- A slope that is not small and does not point outward keeps the gradient test from firing. -/
theorem lt_cosineAt {tolerance : ℝ} (htolerance : 0 ≤ tolerance)
    (hinward : ¬ s.limits.pointsOutward c.point.free a c.point.residuals e = true)
    (hnorm : c.point.norm = euclid c.point.residuals)
    (hslope : tolerance * euclid (a.column e) * euclid c.point.residuals <
      |dot c.point.residuals (a.column e)|) : tolerance < s.cosineAt tall c a := by
  refine lt_of_not_ge fun hle => ?_
  have hzero : dot c.point.residuals (a.column e) ≠ 0 := by
    intro heq
    rw [heq, abs_zero] at hslope
    exact hslope.not_ge (mul_nonneg (mul_nonneg htolerance (euclid_nonneg _)) (euclid_nonneg _))
  rw [cosineAt, norm_rescale] at hle
  rcases (gradientCosine_le_iff htolerance hnorm).1 hle with hresiduals | hstationary
  · refine hzero ?_
    rw [dot_eq]
    exact Finset.sum_eq_zero fun l _ => by rw [hresiduals l, zero_mul]
  · rw [StepLimits.pointsOutward_iff] at hinward
    rcases hstationary e with hcolumn | hlower | hupper | hsmall
    · refine hzero ?_
      rw [dot_eq]
      exact Finset.sum_eq_zero fun l _ => by rw [Mat.getElem_column, hcolumn l, mul_zero]
    · exact hinward (.inl hlower)
    · exact hinward (.inr hupper)
    · exact hslope.not_ge hsmall

theorem radius_of_zero (hchosen : s.options.scale = none) (hfirst : c.point.iterations = 0)
    (hzero : ∀ d : Fin k, c.point.free[d] = 0) :
    (s.progressAt tall c a).region.radius = s.options.factor := by
  have hnorm : s.scaledNorm (s.modelAt tall c a).initialScale c.point.free = 0 := by
    rw [scaledNorm, normOf_eq, euclid_eq_zero]
    intro d
    rw [getElem_scaleBy, hzero, mul_zero]
  rw [progressAt, rescale_first hchosen hfirst]
  show (TrustRegion.initial s.options.factor (s.scaledNorm (s.modelAt tall c a).initialScale
    c.point.free)).radius = s.options.factor
  rw [hnorm, TrustRegion.initial, if_pos (by simp)]

variable (h : ¬ s.limits.pointsOutward c.point.free a c.point.residuals e = true)

include h

theorem columnNorms_modelAt : (s.modelAt tall c a).columnNorms[e] = euclid (a.column e) := by
  rw [modelAt, Linearization.columnNorms_ofJacobian, StepLimits.column_maskJacobian, if_neg h]

theorem initialScale_modelAt (hcolumn : euclid (a.column e) ≠ 0) :
    (s.modelAt tall c a).initialScale[e] = euclid (a.column e) := by
  rw [Linearization.initialScale, getElem_map, columnNorms_modelAt h, if_neg (by simpa using hcolumn)]

theorem scaleAt_first (hchosen : s.options.scale = none) (hfirst : c.point.iterations = 0)
    (hcolumn : euclid (a.column e) ≠ 0) : (s.scaleAt tall c a)[e] = euclid (a.column e) := by
  rw [scaleAt, stepScale, hchosen, if_pos Option.isNone_none, rescale_first hchosen hfirst,
    Linearization.raiseScale, getElem_zipWith, initialScale_modelAt h hcolumn, columnNorms_modelAt h]
  exact max_self (euclid (a.column e))

end FirstStep

/-! ### The first step of one parameter -/

section OneParameter

variable {s : Setting ℝ n m 1} {tall : 1 ≤ m} {c : Checkpoint ℝ n m 1} {a : Mat ℝ m 1}

theorem undamped_one (h : s.limits.held c.point a = ∅) (scale : Vector ℝ 1) (e : Fin 1) :
    euclid (a.column e) ^ 2 * (((s.modelAt tall c a).stepModel scale).undamped
      (s.modelAt tall c a).r)[e] = dot (a.column e) c.point.residuals := by
  have hdamped : ((s.modelAt tall c a).stepModel scale).IsDampedStep (s.modelAt tall c a).r
      ⟨0, ((s.modelAt tall c a).stepModel scale).undamped (s.modelAt tall c a).r, _⟩ :=
    StepModel.isDampedStep_undamped (Linearization.distinct_ofJacobian s.limits c.point a tall)
      (Linearization.revealsRank_ofJacobian s.limits c.point a tall)
  have hnormal := Linearization.normal_of_isDampedStep hdamped e
  rw [StepLimits.masked_of_held_eq_empty h, zero_mul, zero_mul, add_zero,
    transpose_mulVec_apply] at hnormal
  rw [← hnormal, euclid_sq, Finset.sum_mul, Subsingleton.elim e 0]
  simp only [mulVec, dotProduct, transpose_apply, Mat.toMatrix_apply, Fin.sum_univ_one, coords_apply,
    Mat.getElem_column]
  exact Finset.sum_congr rfl fun l _ => by ring

theorem withFree_one (s : Setting ℝ 1 m 1) (x target : Vector ℝ 1) : s.withFree x target = target := by
  have hdistinct : Distinct s.free := fun _ _ _ => Subsingleton.elim _ _
  have hplace : s.free[(0 : Fin 1)] = (0 : Fin 1) := Subsingleton.elim _ _
  refine ext_getElem (Fin.forall_fin_one.2 ?_)
  have hentry := getElem_overwrite_place hdistinct x target (0 : Fin 1)
  rwa [hplace] at hentry

theorem jacobianAt_one {s : Setting ℝ 1 m 1} {x : Vector ℝ 1} {a : Mat ℝ m 1} {j : Journal ℝ 1}
    (hmode : s.mode = .analytic) (h : s.jacobian (s.applyTies x) = .ok a) (fx : Vector ℝ m) :
    ∃ j', (s.jacobianAt x fx).resume j = (.ok a, j') := by
  have hcolumns : (Mat.ofFn fun (l : Fin m) (e : Fin 1) => a[l][s.free[e]]) = a := by
    refine ext_getElem fun l => ext_getElem fun e => ?_
    rw [Mat.getElem_ofFn, Subsingleton.elim s.free[e] e]
  obtain ⟨j', ha⟩ := jacobianAt_of_analytic (j := j) hmode h fx
  rw [hcolumns] at ha
  exact ⟨j', ha⟩

section Scale

variable (h : ¬ s.limits.pointsOutward c.point.free a c.point.residuals (0 : Fin 1) = true)
  (hchosen : s.options.scale = none) (hfirst : c.point.iterations = 0)
  (hcolumn : euclid (a.column 0) ≠ 0)

include h hcolumn

theorem scaledNorm_initialScale_one :
    s.scaledNorm (s.modelAt tall c a).initialScale c.point.free =
      euclid (a.column 0) * |c.point.free[(0 : Fin 1)]| := by
  rw [scaledNorm, normOf_eq, euclid_one, getElem_scaleBy, initialScale_modelAt h hcolumn, abs_mul,
    abs_of_nonneg (euclid_nonneg _)]

include hchosen hfirst

theorem radius_one (hfree : c.point.free[(0 : Fin 1)] ≠ 0) :
    (s.progressAt tall c a).region.radius =
      s.options.factor * (euclid (a.column 0) * |c.point.free[(0 : Fin 1)]|) := by
  have hstart : s.scaledNorm (s.modelAt tall c a).initialScale c.point.free = _ :=
    scaledNorm_initialScale_one h hcolumn
  have hne : euclid (a.column 0) * |c.point.free[(0 : Fin 1)]| ≠ 0 :=
    mul_ne_zero hcolumn (abs_ne_zero.2 hfree)
  rw [progressAt, rescale_first hchosen hfirst]
  show (TrustRegion.initial s.options.factor (s.scaledNorm (s.modelAt tall c a).initialScale
    c.point.free)).radius = _
  rw [hstart, TrustRegion.initial, if_neg (by simpa using hne)]

theorem scaledNorm_stepModel_one (x : Vector ℝ 1) :
    ((s.modelAt tall c a).stepModel (s.scaleAt tall c a)).scaledNorm x =
      euclid (a.column 0) * |x[(0 : Fin 1)]| := by
  have hscale : (s.scaleAt tall c a)[(0 : Fin 1)] = euclid (a.column 0) :=
    scaleAt_first h hchosen hfirst hcolumn
  rw [StepModel.scaledNorm_one]
  change |(s.scaleAt tall c a)[(0 : Fin 1)]| * _ = _
  rw [hscale, abs_of_nonneg (euclid_nonneg _)]

end Scale

end OneParameter

end Setting

/-- A search of affine residuals that the gradient test does not stop tries a step from its start. -/
theorem exists_attempt_affine {store : Store ℝ} {function : ResidualFunction ℝ}
    {a : Mat ℝ function.count store.size} {b : Vector ℝ function.count}
    {tall : store.free.size ≤ function.count} (trials : ℕ) {x : Vector ℝ store.size}
    (huntied : ∀ i, (store.get i).tie = none) (hfunction : function.IsAffine a b)
    (hgradient : 1e-10 < (Setting.ofStore store function .default .analytic).cosineAt tall
      ((Setting.ofStore store function .default .analytic).firstCheckpoint
        (firstPoint store function a b x)) (store.freeColumns a)) :
    let s := Setting.ofStore store function .default .analytic
    let c := s.firstCheckpoint (firstPoint store function a b x)
    ∃ i, s.Attempts tall trials x c (store.freeColumns a) (s.progressAt tall c (store.freeColumns a))
      i := by
  have hlimit : (Options.default : Options ℝ).maxIterations ≠ 0 := by
    simp [Options.default]
  obtain ⟨j, hp⟩ := startAt_affine huntied hfunction .analytic x
  obtain ⟨i, ha⟩ := exists_jacobianAt_affine hfunction x (affine a b x) j
  exact ⟨i, hgradient, hlimit, j, i, .start hp, ha, .first⟩

/-- Where affine residuals have no slope in the free parameters, they are as short as these can make
them. -/
theorem Store.euclid_le_of_slope {store : Store ℝ} {a : Mat ℝ m store.size} {b : Vector ℝ m}
    {x y : Vector ℝ store.size}
    (hslope : (store.freeColumns a).toMatrixᵀ *ᵥ coords (affine a b x) = 0)
    (hy : ∀ i, (store.get i).isFree = false → y[i] = x[i]) :
    euclid (affine a b x) ≤ euclid (affine a b y) := by
  have hle := squares_le_of_undamped (M := (store.freeColumns a).toMatrix)
    (f := coords (affine a b x)) (q := 0) (δ := store.displacement x y) fun e => by
      rw [mulVec_zero, mulVec_zero, hslope, Pi.zero_apply, neg_zero]
  rw [mulVec_zero, add_zero, ← store.coords_affine a b hy, ← euclid_sq_eq_dotProduct,
    ← euclid_sq_eq_dotProduct] at hle
  exact (pow_le_pow_iff_left₀ (euclid_nonneg _) (euclid_nonneg _) two_ne_zero).1 hle

/-! ### Exact fits -/

/-- A fit whose linear model is exact and whose steps nothing shortens: affine residuals with their
exact Jacobian, given or by differences without damping, no ties, and free parameters without limits
and caps. -/
structure ExactFit (store : Store ℝ) (function : ResidualFunction ℝ) (options : Options ℝ)
    (initial : Option (Array ℝ)) (start : Start store function) (a : Mat ℝ function.count store.size)
    (b : Vector ℝ function.count) : Prop where
  accepted : prepare store function options initial = .ok start
  eval : ∀ x : Vector ℝ store.size, function.eval x = .ok (affine a b x)
  analytic : start.mode = .analytic → ∀ x : Vector ℝ store.size, function.jacobian x = .ok a
  differences : start.mode = .finiteDifference → options.damp = 0
  untied : ∀ i, (store.get i).tie = none
  lower : ∀ i, (store.get i).isFree = true → (store.get i).bounds.lower = none
  upper : ∀ i, (store.get i).isFree = true → (store.get i).bounds.upper = none
  maxStep : ∀ i, (store.get i).isFree = true → (store.get i).maxStep = none

namespace ExactFit

variable {store : Store ℝ} {function : ResidualFunction ℝ} {options : Options ℝ}
  {initial : Option (Array ℝ)} {start : Start store function}
  {a : Mat ℝ function.count store.size} {b : Vector ℝ function.count}

noncomputable abbrev setting (_ : ExactFit store function options initial start a b) :
    Setting ℝ store.size function.count store.free.size :=
  .ofStore store function options start.mode

variable (h : ExactFit store function options initial start a b)

include h

theorem inRange : options.InRange := Options.validate_ok.1 (prepare_ok h.accepted).1

/-- An analytic Jacobian is refused where residuals are damped. -/
theorem damp_eq : options.damp = 0 := by
  cases hmode : start.mode with
  | finiteDifference => exact h.differences hmode
  | analytic =>
      obtain ⟨-, -, -, -, hmode'⟩ := prepare_ok h.accepted
      obtain ⟨mode, -, hchecked⟩ := except_bind_ok.1 hmode'
      have hnonneg : 0 ≤ options.damp := Options.isTolerance_iff.1 h.inRange.damp
      by_contra hne
      rw [hmode] at hchecked
      split at hchecked
      · cases hchecked
      · next hfree =>
        cases hchecked
        exact hfree ⟨rfl, lt_of_le_of_ne hnonneg (Ne.symm hne)⟩

theorem unlimited : h.setting.limits.Unlimited where
  lower c := (Store.lower_ofStore c).trans (h.lower _ (store.isFree_freePlaces c))
  upper c := (Store.upper_ofStore c).trans (h.upper _ (store.isFree_freePlaces c))
  maxStep c := (Store.maxStep_ofStore c).trans (h.maxStep _ (store.isFree_freePlaces c))

theorem applyTies_eq (x : Vector ℝ store.size) : h.setting.applyTies x = x :=
  applyTies_of_untied h.untied x

theorem dampen_eq (r : ℝ) : h.setting.dampen r = r := Setting.dampen_eq h.damp_eq r

theorem map_dampen (r : Vector ℝ function.count) : r.map h.setting.dampen = r :=
  Setting.map_dampen_eq h.damp_eq r

/-- Either way of taking it, the Jacobian is that of the free parameters. -/
theorem jacobianAt_eq (x : Vector ℝ store.size) (j : Journal ℝ store.size) :
    ∃ i, (h.setting.jacobianAt x (affine a b x)).resume j = (.ok (store.freeColumns a), i) := by
  cases hmode : start.mode with
  | analytic => exact Setting.jacobianAt_of_analytic hmode (h.analytic hmode _) _
  | finiteDifference =>
      have huntied : ∀ i, (store.get i).isTied = false := fun i => Store.isTied_eq_false.2 (h.untied i)
      have hties : store.TiesAffine (Mat.zero : Mat ℝ store.size store.size)
          (Vector.replicate store.size 0) := by
        intro i t ht
        rw [h.untied i] at ht
        cases ht
      have hhold : store.TiesHold x := by
        intro i t ht
        rw [h.untied i] at ht
        cases ht
      have hcaps : ∀ c : Fin store.free.size,
          ∀ cap ∈ (store.get store.freePlaces[c]).maxStep, 0 < cap := by
        intro c
        rw [h.maxStep _ (store.isFree_freePlaces c)]
        nofun
      have hcolumns : store.freeColumns a = store.totalColumns a Mat.zero := by
        refine freeColumns_eq_totalColumns_iff.2 fun l c => ?_
        rw [Finset.sum_filter]
        exact Finset.sum_eq_zero fun t _ => if_neg (by simp [huntied t])
      rw [hcolumns, setting, hmode]
      exact jacobianAt_difference_of_eval h.eval hties hcaps (h.differences hmode) hhold j

theorem residuals_of_visits {trials : ℕ} {x : Vector ℝ store.size}
    {c : Checkpoint ℝ store.size function.count store.free.size} {j : Journal ℝ store.size}
    (hc : h.setting.Visits start.tall trials x c j) :
    c.point.residuals = affine a b c.point.x := by
  have heval := Setting.eval_of_visits h.applyTies_eq h.dampen_eq hc
  exact Except.ok.inj (heval.symm.trans (h.eval c.point.x))

/-! ### Every trial -/

section Attempts

variable {trials : ℕ} {c : Checkpoint ℝ store.size function.count store.free.size}
  {jacobian : Mat ℝ function.count store.free.size}
  {q : Progress ℝ store.size function.count store.free.size} {i : Journal ℝ store.size}
  (hq : h.setting.Attempts start.tall trials start.x c jacobian q i)

include hq

theorem jacobian_eq : jacobian = store.freeColumns a := by
  obtain ⟨j, j', hvisits, hjacobian, -⟩ := hq.run
  obtain ⟨i', hi⟩ := h.jacobianAt_eq c.point.x j
  rw [← h.residuals_of_visits hvisits] at hi
  cases hi.symm.trans hjacobian
  rfl

theorem residuals_eq :
    coords (affine a b (h.setting.withFree q.point.x
        (h.setting.proposalAt start.tall c jacobian q).move.target)) =
      coords q.point.residuals +
        (Linearization.masked h.setting.limits q.point jacobian).toMatrix *ᵥ
          coords (h.setting.proposalAt start.tall c jacobian q).move.step := by
  obtain ⟨j, j', hvisits, -, -⟩ := hq.run
  obtain ⟨v, hpoint⟩ := hq.point_eq
  have hx : q.point.x = c.point.x := by rw [hpoint]
  have hfree : q.point.free = c.point.free := by rw [hpoint]
  have hresiduals : q.point.residuals = affine a b c.point.x := by
    rw [hpoint]
    exact h.residuals_of_visits hvisits
  rw [h.unlimited.masked_eq, h.jacobian_eq hq, hresiduals, hx]
  refine Store.coords_affine_overwrite a b fun e => ?_
  rw [Setting.target_propose h.unlimited, hfree, Store.free_eq_of_visits hvisits]

theorem isShortened : (h.setting.proposalAt start.tall c jacobian q).IsShortened
    (.ofJacobian h.setting.limits q.point jacobian start.tall)
    (h.setting.scaleAt start.tall c jacobian) := by
  rw [← hq.modelAt_eq]
  exact Setting.isShortened_propose h.unlimited (hq.isDampedStep h.inRange)

theorem descent_pos : 0 < (h.setting.proposalAt start.tall c jacobian q).descent
    (Linearization.masked h.setting.limits q.point jacobian)
    (h.setting.scaleAt start.tall c jacobian) := by
  have hpos := hq.descent_pos h.unlimited h.inRange
  rw [h.unlimited.masked_eq] at hpos ⊢
  exact hpos

theorem ratio_eq_one : (h.setting.judge (h.setting.modelAt start.tall c jacobian) q.point
    (h.setting.proposalAt start.tall c jacobian q) (affine a b (h.setting.withFree q.point.x
      (h.setting.proposalAt start.tall c jacobian q).move.target))).ratio = 1 := by
  rw [hq.modelAt_eq]
  exact (h.isShortened hq).ratio_eq_one hq.norm_eq (h.descent_pos hq) (h.residuals_eq hq)

/-- No trial step fails, and none is rejected. -/
theorem tryStep_accepts (cosine : ℝ) : ∃ result i',
    (h.setting.tryStep (h.setting.modelAt start.tall c jacobian)
      (h.setting.scaleAt start.tall c jacobian) cosine q).resume i = (.ok result, i') ∧
    result.accepted = true ∧ result.progress.point = h.setting.accept q.point
      (h.setting.scaleAt start.tall c jacobian)
      (h.setting.proposalAt start.tall c jacobian q).move.target
      (affine a b (h.setting.withFree q.point.x
        (h.setting.proposalAt start.tall c jacobian q).move.target)) := by
  obtain ⟨evaluations, i', hstep⟩ := Setting.tryStep_of_eval (s := h.setting)
    (h.setting.modelAt start.tall c jacobian) (h.setting.scaleAt start.tall c jacobian) cosine q i
    (h.eval _)
  rw [h.map_dampen, h.applyTies_eq] at hstep
  have haccepted : (h.setting.judge (h.setting.modelAt start.tall c jacobian) q.point
      (h.setting.proposalAt start.tall c jacobian q) (affine a b (h.setting.withFree q.point.x
        (h.setting.proposalAt start.tall c jacobian q).move.target))).accepted = true := by
    rw [Verdict.accepted, h.ratio_eq_one hq, Verdict.acceptRatio]
    norm_num
  exact ⟨_, i', hstep, haccepted, if_pos haccepted⟩

end Attempts

theorem ratio_of_log (trials : ℕ) {norm ratio part radius damping : ℝ}
    (hentry : .trial norm ratio part radius damping ∈
      (minimizeWithin trials store function options initial).2.log) : ratio = 1 := by
  have hlogs : Run.Logs (fun entry => ∀ norm ratio part radius damping,
      entry = .trial norm ratio part radius damping → ratio = 1)
      (h.setting.search start.tall trials store.names start.x) .empty := by
    refine Setting.search_logs (fun entry hother norm ratio part radius damping heq => ?_)
      (fun c jacobian q i r i' hq hr norm ratio part radius damping heq => ?_) _
    · rw [heq] at hother
      cases hother
    · obtain ⟨f, hf, rfl, -, -⟩ := Setting.residualsAt_ok.1 hr
      rw [h.applyTies_eq] at hf
      cases (h.eval _).symm.trans hf
      cases heq
      rw [h.map_dampen]
      exact h.ratio_eq_one hq
  rw [minimizeWithin_of_start h.accepted] at hentry
  rcases hlogs _ hentry with hbefore | hratio
  · simp [Journal.empty] at hbefore
  · exact hratio _ _ _ _ _ rfl

/-! ### The count of trials -/

section Counts

variable {trials : ℕ} {c : Checkpoint ℝ store.size function.count store.free.size}
  {j j' : Journal ℝ store.size}

/-- An iteration takes no step or one, and accepts the one it takes. -/
theorem iteration_trials
    {outcome : Finish ℝ store.size function.count store.free.size ⊕
      Checkpoint ℝ store.size function.count store.free.size}
    (hc : h.setting.Visits start.tall trials start.x c j)
    (hiteration : (h.setting.iteration start.tall trials c).resume j = (.ok outcome, j'))
    (hj : j.trials = c.point.iterations) :
    j'.trials = (outcome.elim Finish.point Checkpoint.point).iterations := by
  obtain ⟨jacobian, i, hjacobian, hadvance⟩ := Setting.iteration_ok hiteration
  have htrials : i.trials = c.point.iterations := by
    rw [(Setting.jacobianAt_adds c.point.residuals j jacobian i hjacobian).trials, hj, add_zero]
  obtain ⟨v, hpoint⟩ := Setting.rescale_point (s := h.setting)
    (.ofJacobian h.setting.limits c.point jacobian start.tall) c
  rcases Setting.advance_cases hadvance with ⟨status, -, rfl, rfl, -⟩ |
    ⟨hgradient, hlimit, q, i', result, hq, hstep, hend⟩
  · rw [Sum.elim_inl, hpoint]
    exact htrials
  · have hgradient : options.gtol < h.setting.cosineAt start.tall c jacobian :=
      Options.isEmpty_gradientStatus_iff_lt.1 hgradient
    have hattempts : ∀ q i', h.setting.Tries (h.setting.modelAt start.tall c jacobian)
        (h.setting.scaleAt start.tall c jacobian) (h.setting.cosineAt start.tall c jacobian)
        (h.setting.progressAt start.tall c jacobian) i q i' →
        h.setting.Attempts start.tall trials start.x c jacobian q i' :=
      fun q i' hq => ⟨hgradient, hlimit, j, i, hc, hjacobian, hq⟩
    -- a step after the first would follow one that was rejected
    cases hq with
    | next hq hrejected hfalse _ =>
        obtain ⟨_, _, hstep', haccepted, -⟩ := h.tryStep_accepts (hattempts _ _ hq) _
        cases hstep'.symm.trans hrejected
        cases haccepted.symm.trans hfalse
    | first =>
        obtain ⟨_, _, hstep', haccepted, -⟩ := h.tryStep_accepts (hattempts _ _ .first) _
        cases hstep'.symm.trans hstep
        have hcount : j'.trials = result.progress.point.iterations := by
          rw [(Setting.tryStep_adds i result j' hstep).trials, htrials,
            Setting.tryStep_accepted hstep haccepted, hpoint]
        rcases hend with ⟨-, rfl⟩ | ⟨-, -, rfl⟩
        · exact hcount
        · exact hcount

theorem trials_of_visits (hc : h.setting.Visits start.tall trials start.x c j) :
    j.trials = c.point.iterations := by
  induction hc with
  | start hp =>
      obtain ⟨r, i, -, hpoint⟩ := Setting.startAt_ok hp
      rw [(Setting.startAt_adds start.x _ _ _ hp).trials, hpoint]
      simp [Journal.empty, Journal.trials, Setting.firstCheckpoint]
  | next hc hstep ih => exact h.iteration_trials hc hstep ih

theorem trials_eq_iterations {solution : Solution ℝ store.size function.count}
    (hsolution : minimizeWithin trials store function options initial = (.ok solution, j)) :
    j.trials = solution.iterations := by
  rw [minimizeWithin_of_start h.accepted] at hsolution
  obtain ⟨p, i₀, c, i₁, f, i₂, -, hc, hlast, rfl, log, rfl⟩ := Setting.search_cases hsolution
  exact h.iteration_trials hc hlast (h.trials_of_visits hc)

end Counts

/-! ### One step -/

noncomputable def checkpoint : Checkpoint ℝ store.size function.count store.free.size :=
  h.setting.firstCheckpoint (firstPoint store function a b start.x)

/-- The step without damping from there, and its length in the scale of the search. -/
noncomputable def wholeStep : Vector ℝ store.free.size :=
  ((h.setting.modelAt start.tall h.checkpoint (store.freeColumns a)).stepModel
    (h.setting.scaleAt start.tall h.checkpoint (store.freeColumns a))).undamped
    (h.setting.modelAt start.tall h.checkpoint (store.freeColumns a)).r

noncomputable def wholeLength : ℝ :=
  ((h.setting.modelAt start.tall h.checkpoint (store.freeColumns a)).stepModel
    (h.setting.scaleAt start.tall h.checkpoint (store.freeColumns a))).scaledNorm h.wholeStep

noncomputable def radius : ℝ :=
  (h.setting.progressAt start.tall h.checkpoint (store.freeColumns a)).region.radius

/-- The search takes the whole step first: it may take one, the gradient test does not stop it, and
the step exceeds the radius by no more than a tenth. -/
structure TakesWholeStep : Prop where
  limit : options.maxIterations ≠ 0
  gradient : options.gtol < h.setting.cosineAt start.tall h.checkpoint (store.freeColumns a)
  length : h.wholeLength ≤ 1.1 * h.radius

noncomputable def wholeTarget : Vector ℝ store.size :=
  h.setting.withFree start.x (h.setting.proposalAt start.tall h.checkpoint (store.freeColumns a)
    (h.setting.progressAt start.tall h.checkpoint (store.freeColumns a))).move.target

theorem startAt_eq : ∃ j, (h.setting.startAt start.x).resume .empty =
    (.ok (firstPoint store function a b start.x), j) := by
  obtain ⟨j, hp⟩ := Setting.startAt_of_eval (s := h.setting) (x := start.x) (j := .empty) (h.eval _)
  rw [h.applyTies_eq, h.applyTies_eq, h.map_dampen, Setting.normOf_eq] at hp
  exact ⟨j, hp⟩

theorem wholeTarget_of_not_free {i : Fin store.size} (hi : (store.get i).isFree = false) :
    h.wholeTarget[i] = start.x[i] := by
  apply getElem_overwrite_of_forall_ne
  rintro e rfl
  cases (store.isFree_freePlaces e).symm.trans hi

theorem iteration_of_slope (trials : ℕ) {x : Vector ℝ store.size} {scale : Vector ℝ store.free.size}
    {region : TrustRegion ℝ} {point : Iterate ℝ store.size function.count store.free.size}
    (hx : point.x = x) (hresiduals : point.residuals = affine a b x)
    (hslope : (store.freeColumns a).toMatrixᵀ *ᵥ coords (affine a b x) = 0)
    (j : Journal ℝ store.size) :
    ∃ f v i, (h.setting.iteration start.tall trials ⟨scale, region, point⟩).resume j =
      (.ok (.inl f), i) ∧ f.point = { point with scaledNorm := v } := by
  have hcosine : (Linearization.ofJacobian h.setting.limits point (store.freeColumns a)
      start.tall).gradientCosine point.norm ≤ options.gtol := by
    apply Linearization.gradientCosine_le_of_slope _ (Options.isTolerance_iff.1 h.inRange.gtol)
    rw [h.unlimited.masked_eq, hresiduals, hslope]
  obtain ⟨i, ha⟩ := h.jacobianAt_eq x j
  rw [← hresiduals, ← hx] at ha
  obtain ⟨f, v, hf, hpoint, -⟩ := Setting.iteration_of_gradient (s := h.setting) trials
    (c := ⟨scale, region, point⟩) ha hcosine
  exact ⟨f, v, i, hf, hpoint⟩

section WholeStep

variable (hwhole : h.TakesWholeStep)

include hwhole

theorem damped_eq : (h.setting.proposalAt start.tall h.checkpoint (store.freeColumns a)
    (h.setting.progressAt start.tall h.checkpoint (store.freeColumns a))).damped =
      ⟨0, h.wholeStep, (h.setting.modelAt start.tall h.checkpoint (store.freeColumns a)).r⟩ :=
  StepModel.dampedStep_of_near hwhole.length

theorem exists_attempt (trials : ℕ) : ∃ j i,
    (h.setting.startAt start.x).resume .empty = (.ok (firstPoint store function a b start.x), j) ∧
    (h.setting.jacobianAt start.x (affine a b start.x)).resume j = (.ok (store.freeColumns a), i) ∧
    h.setting.Attempts start.tall trials start.x h.checkpoint (store.freeColumns a)
      (h.setting.progressAt start.tall h.checkpoint (store.freeColumns a)) i := by
  obtain ⟨j, hp⟩ := h.startAt_eq
  obtain ⟨i, hi⟩ := h.jacobianAt_eq start.x j
  exact ⟨j, i, hp, hi, hwhole.gradient, hwhole.limit, j, i, .start hp, hi, .first⟩

/-- The whole step leaves no slope, at any rank of the Jacobian. -/
theorem slope_wholeTarget :
    (store.freeColumns a).toMatrixᵀ *ᵥ coords (affine a b h.wholeTarget) = 0 := by
  obtain ⟨j, i, -, -, hq⟩ := h.exists_attempt hwhole 1
  have hresiduals := h.residuals_eq hq
  have hdamped := hq.isDampedStep h.inRange
  rw [hq.modelAt_eq] at hdamped
  have hstep := (h.isShortened hq).coords_step
  rw [Setting.part_propose h.unlimited, one_smul] at hstep
  rw [hstep, h.unlimited.masked_eq, mulVec_neg] at hresiduals
  obtain ⟨v, hpoint⟩ := hq.point_eq
  have hx : start.x = (h.setting.progressAt start.tall h.checkpoint
      (store.freeColumns a)).point.x := by rw [hpoint]; rfl
  rw [wholeTarget, hx, hresiduals]
  ext e
  have hnormal := Linearization.normal_of_isDampedStep hdamped e
  rw [h.damped_eq hwhole, zero_mul, zero_mul, add_zero, h.unlimited.masked_eq] at hnormal
  rw [mulVec_add, mulVec_neg, Pi.add_apply, Pi.neg_apply, h.damped_eq hwhole, hnormal,
    add_neg_cancel, Pi.zero_apply]

/-- The search takes the whole step, and ends with it or with the gradient test after it. -/
theorem search_eq : ∃ solution j,
    (h.setting.search start.tall 1 store.names start.x).resume .empty = (.ok solution, j) ∧
    solution.iterations = 1 ∧ solution.parameters = h.wholeTarget := by
  obtain ⟨j, i, hp, hi, hq⟩ := h.exists_attempt hwhole 1
  obtain ⟨result, i', hstep, haccepted, hpoint⟩ := h.tryStep_accepts hq
    (h.setting.cosineAt start.tall h.checkpoint (store.freeColumns a))
  obtain ⟨v, horigin⟩ := hq.point_eq
  have hx : result.progress.point.x = h.wholeTarget := by
    rw [hpoint, horigin]
    exact h.applyTies_eq _
  have hresiduals : result.progress.point.residuals = affine a b h.wholeTarget := by
    rw [hpoint, horigin]
    rfl
  have hiterations : result.progress.point.iterations = 1 := by
    rw [hpoint, horigin]
    rfl
  have hfirst : (h.setting.iteration start.tall 1 h.checkpoint).resume j = _ :=
    Setting.iteration_of_step 0 hi hwhole.gradient hwhole.limit hstep (.inl haccepted)
  obtain ⟨iterations, hsucc⟩ := Nat.exists_eq_succ_of_ne_zero hwhole.limit
  obtain ⟨f, i'', hf, hfx, hfiterations⟩ : ∃ f i'', (h.setting.iterate start.tall 1
      (options.maxIterations + 1) h.checkpoint).resume j = (.ok f, i'') ∧
      f.point.x = h.wholeTarget ∧ f.point.iterations = 1 := by
    by_cases hstatus : result.status.isEmpty = true
    · rw [if_pos hstatus] at hfirst
      obtain ⟨f, v, i'', hf, hfpoint⟩ := h.iteration_of_slope 1 hx hresiduals
        (h.slope_wholeTarget hwhole) i'
      refine ⟨f, i'', ?_, by rw [hfpoint, hx], by rw [hfpoint, hiterations]⟩
      rw [hsucc]
      exact Run.bind_ok.2 ⟨_, i', hfirst, Run.bind_ok.2 ⟨_, i'', hf, rfl⟩⟩
    · rw [if_neg hstatus] at hfirst
      exact ⟨_, i', Run.bind_ok.2 ⟨_, i', hfirst, rfl⟩, hx, hiterations⟩
  obtain ⟨evaluations, jacobians, j', hsearch⟩ := Setting.search_of_iterate store.names hp hf
  exact ⟨_, j', hsearch, hfiterations, hfx⟩

end WholeStep

end ExactFit

/-- In exact arithmetic, for affine residuals with their exact Jacobian, without ties, and without
limits and caps on the free parameters: every trial step of a fit succeeds and is accepted, with a gain
ratio of one, so that there are as many trials as iterations; and if the first step needs no damping
the fit returns a solution after one iteration, with parameters that no change of the free ones
improves. The rank of the Jacobian does not matter. -/
theorem exact_model_fits {store : Store ℝ} {function : ResidualFunction ℝ} {options : Options ℝ}
    {initial : Option (Array ℝ)} {start : Start store function}
    {a : Mat ℝ function.count store.size} {b : Vector ℝ function.count}
    (h : ExactFit store function options initial start a b) :
    (∀ trials c jacobian q i,
      h.setting.Attempts start.tall trials start.x c jacobian q i →
      ∃ result i', (h.setting.tryStep (h.setting.modelAt start.tall c jacobian)
          (h.setting.scaleAt start.tall c jacobian) (h.setting.cosineAt start.tall c jacobian)
          q).resume i = (.ok result, i') ∧ result.accepted = true) ∧
    (∀ trials norm ratio part radius damping,
      .trial norm ratio part radius damping ∈
        (minimizeWithin trials store function options initial).2.log → ratio = 1) ∧
    (∀ trials solution j,
      minimizeWithin trials store function options initial = (.ok solution, j) →
      j.trials = solution.iterations) ∧
    (h.TakesWholeStep → ∃ solution j,
      minimize store function options initial = (.ok solution, j) ∧
      (∀ trials > 0, minimizeWithin trials store function options initial = (.ok solution, j)) ∧
      solution.iterations = 1 ∧
      (∀ i, (store.get i).isFree = false → solution.parameters[i] = start.x[i]) ∧
      ∀ y : Vector ℝ store.size, (∀ i, (store.get i).isFree = false → y[i] = start.x[i]) →
        euclid (affine a b solution.parameters) ≤ euclid (affine a b y)) := by
  refine ⟨fun trials c jacobian q i hq => ?_, fun trials _ _ _ _ _ => h.ratio_of_log trials,
    fun trials solution j => h.trials_eq_iterations, fun hwhole => ?_⟩
  · obtain ⟨result, i', hstep, haccepted, -⟩ := h.tryStep_accepts hq _
    exact ⟨result, i', hstep, haccepted⟩
  · obtain ⟨solution, j, hsearch, hiterations, hparameters⟩ := h.search_eq hwhole
    have hone : minimizeWithin 1 store function options initial = (.ok solution, j) := by
      rw [minimizeWithin, h.accepted]
      exact hsearch
    have hall : ∀ trials > 0,
        minimizeWithin trials store function options initial = (.ok solution, j) := by
      intro trials htrials
      rw [← hone]
      exact minimizeWithin_eq_of_le htrials (by simp [hone])
    have hbound : 0 < options.trialBound := by
      unfold Options.trialBound
      split
      · exact Nat.succ_pos _
      · norm_num
    refine ⟨solution, j, hall _ hbound, hall, hiterations, fun i hi => ?_, fun y hy => ?_⟩
    · rw [hparameters, h.wholeTarget_of_not_free hi]
    · rw [hparameters]
      apply Store.euclid_le_of_slope (h.slope_wholeTarget hwhole)
      intro i hi
      rw [hy i hi, h.wholeTarget_of_not_free hi]

/-! ### One parameter -/

theorem exactFit_one {l : ℕ} (slope : Mat ℝ l 1) (offset : Vector ℝ l) (hl : 1 ≤ l) :
    ExactFit ⟨#[.ofValue 1]⟩ (.ofAffine slope offset) .default (some #[1])
      ⟨.analytic, .replicate 1 1, hl⟩ slope offset where
  accepted := by
    have hwithin : Store.Within (⟨#[.ofValue 1]⟩ : Store ℝ) (.replicate 1 1) :=
      Store.within_iff.2 fun i _ => by simp [Store.get, Parameter.ofValue]
    exact prepare_default rfl rfl hwithin (by decide) _
  eval x := (ResidualFunction.isAffine_ofAffine slope offset).eval x
  analytic _ x := (ResidualFunction.isAffine_ofAffine slope offset).jacobian x
  differences := nofun
  untied := Fin.forall_fin_one.2 rfl
  lower := Fin.forall_fin_one.2 fun _ => rfl
  upper := Fin.forall_fin_one.2 fun _ => rfl
  maxStep := Fin.forall_fin_one.2 fun _ => rfl

/-- The residual `p - 2`, to be fitted from one. -/
noncomputable def minusTwo : ResidualFunction ℝ :=
  .ofAffine (Vector.replicate 1 (Vector.replicate 1 1)) (Vector.replicate 1 (-2))

namespace MinusTwo

noncomputable abbrev slope : Mat ℝ 1 1 := Vector.replicate 1 (Vector.replicate 1 1)

noncomputable abbrev offset : Vector ℝ 1 := Vector.replicate 1 (-2)

noncomputable abbrev store : Store ℝ := ⟨#[.ofValue 1]⟩

noncomputable abbrev start : Vector ℝ 1 := Vector.replicate 1 1

theorem isExact : ExactFit store minusTwo .default (some #[1]) ⟨.analytic, start, le_rfl⟩ slope
    offset :=
  exactFit_one slope offset le_rfl

noncomputable def setting : Setting ℝ 1 1 1 := isExact.setting

noncomputable def checkpoint : Checkpoint ℝ 1 1 1 := isExact.checkpoint

noncomputable def columns : Mat ℝ 1 1 := store.freeColumns slope

theorem unlimited : setting.limits.Unlimited := isExact.unlimited

theorem getElem_columns (l e : Fin 1) : columns[l][e] = 1 := by
  refine (Mat.getElem_ofFn _ l e).trans ?_
  rw [getElem_replicate]
  exact getElem_replicate _ _

theorem getElem_residuals (l : Fin 1) : checkpoint.point.residuals[l] = -1 := by
  refine (getElem_ofFn _ l).trans ?_
  show ∑ j : Fin 1, slope[l][j] * start[j] + offset[l] = -1
  rw [Fin.sum_univ_one, getElem_replicate, getElem_replicate, getElem_replicate]
  show 1 * (1 : ℝ) + -2 = -1
  norm_num

theorem free_eq (e : Fin 1) : checkpoint.point.free[e] = 1 := by
  have hone : ∀ i : Fin 1, start[i] = 1 := Fin.forall_fin_one.2 rfl
  exact (getElem_map _ _ e).trans (hone _)

theorem euclid_column (e : Fin 1) : euclid (columns.column e) = 1 := by
  rw [euclid_one, Mat.getElem_column, getElem_columns, abs_one]

theorem radius_eq : (setting.progressAt le_rfl checkpoint columns).region.radius = 100 := by
  rw [Setting.radius_one (unlimited.inward _ _ 0) rfl rfl (by simp [euclid_column])
    (by simp [free_eq]), euclid_column, free_eq, abs_one, one_mul, mul_one]
  show (100.0 : ℝ) = 100
  norm_num

noncomputable def model : StepModel ℝ 1 :=
  (setting.modelAt le_rfl checkpoint columns).stepModel (setting.scaleAt le_rfl checkpoint columns)

theorem undamped_eq (e : Fin 1) :
    (model.undamped (setting.modelAt le_rfl checkpoint columns).r)[e] = -1 := by
  have hstep : euclid (columns.column e) ^ 2 *
      (model.undamped (setting.modelAt le_rfl checkpoint columns).r)[e] =
        dot (columns.column e) checkpoint.point.residuals :=
    Setting.undamped_one (unlimited.held_eq _ _) _ e
  rwa [euclid_column, one_pow, one_mul, dot_eq, Fin.sum_univ_one, Mat.getElem_column,
    getElem_columns, getElem_residuals, one_mul] at hstep

theorem takesWholeStep : isExact.TakesWholeStep where
  limit := by simp [Options.default]
  gradient := by
    refine Setting.lt_cosineAt (e := (0 : Fin 1))
      (by norm_num [Options.default]) (unlimited.inward _ _ _) rfl ?_
    show (1e-10 : ℝ) * euclid (columns.column 0) * euclid checkpoint.point.residuals <
      |dot checkpoint.point.residuals (columns.column 0)|
    rw [euclid_column, euclid_one, dot_eq, Fin.sum_univ_one, getElem_residuals, Mat.getElem_column,
      getElem_columns]
    norm_num
  length := by
    show model.scaledNorm (model.undamped (setting.modelAt le_rfl checkpoint columns).r) ≤
      1.1 * (setting.progressAt le_rfl checkpoint columns).region.radius
    have hlength (x : Vector ℝ 1) : model.scaledNorm x = _ :=
      Setting.scaledNorm_stepModel_one (unlimited.inward _ _ 0) rfl rfl (by simp [euclid_column]) x
    rw [radius_eq, hlength, euclid_column, undamped_eq]
    norm_num

end MinusTwo

/-- From one, the fit finds the zero of `p - 2` with one step. -/
theorem exact_model_fits_minusTwo : ∃ solution j,
    minimize MinusTwo.store minusTwo .default (some #[1]) = (.ok solution, j) ∧
      solution.iterations = 1 ∧
      ∀ y, euclid (affine MinusTwo.slope MinusTwo.offset solution.parameters) ≤
        euclid (affine MinusTwo.slope MinusTwo.offset y) := by
  obtain ⟨solution, j, hminimize, -, hiterations, -, hleast⟩ :=
    (exact_model_fits MinusTwo.isExact).2.2.2 MinusTwo.takesWholeStep
  have hfree : ∀ i, (MinusTwo.store.get i).isFree = true := Fin.forall_fin_one.2 (by
    simp [Store.get, Parameter.isFree, Parameter.isFixed, Parameter.isTied, Parameter.ofValue,
      Bounds.isDegenerate])
  refine ⟨solution, j, hminimize, hiterations, fun y => hleast y fun i hi => ?_⟩
  rw [hfree i] at hi
  cases hi

end LeastSquares
