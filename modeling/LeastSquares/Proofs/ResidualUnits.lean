import LeastSquares.Proofs.ExactModel
import LeastSquares.Proofs.TransformedResiduals

/-!
The units of the residuals. A fit of residuals in other units takes the same steps to the same
parameters. Sums of squares and the covariance come out in other units, so that the covariance and
the errors that are scaled by the sum of squares do not depend on the units at all.
-/

namespace LeastSquares

open Matrix

variable {n m k : ℕ}

def ResidualFunction.scale {α : Type} [Mul α] (f : ResidualFunction α) (c : α) :
    ResidualFunction α where
  count := f.count
  eval x := (f.eval x).map (·.map (c * ·))
  hasJacobian := f.hasJacobian
  jacobian x := (f.jacobian x).map (Mat.mapEntries (c * ·))

noncomputable def Solution.scale (solution : Solution ℝ n m) (c : ℝ) : Solution ℝ n m :=
  { solution with
    errors := solution.errors.map (· / |c|)
    covariance := Mat.mapEntries (· / c ^ 2) solution.covariance
    chiSquare := c ^ 2 * solution.chiSquare
    startChiSquare := c ^ 2 * solution.startChiSquare
    residuals := solution.residuals.map (c * ·)
    jacobian := Mat.mapEntries (c * ·) solution.jacobian }

theorem mapColumns_mul (c : ℝ) (a : Mat ℝ m n) :
    a.mapColumns (·.map (c * ·)) = Mat.mapEntries (c * ·) a := by
  refine ext_getElem fun i => ext_getElem fun j => ?_
  rw [← Mat.getElem_column (a.mapColumns _), Mat.column_mapColumns, getElem_map,
    Mat.getElem_column, Mat.mapEntries, getElem_map, getElem_map]

noncomputable def Similarity.ofUnits {c : ℝ} (hc : c ≠ 0) : Similarity m where
  map x := x.map (c * ·)
  factor := |c|
  factor_pos := abs_pos.2 hc
  dot_map f g := by
    simp only [dot_eq, getElem_map, sq_abs, Finset.mul_sum]
    exact Finset.sum_congr rfl fun i _ => by ring
  quotient h f g := ext_getElem fun i => by
    simp only [getElem_map, getElem_zipWith]
    ring

theorem Similarity.solution_ofUnits {c : ℝ} (hc : c ≠ 0) (solution : Solution ℝ n m) :
    (Similarity.ofUnits hc).solution solution = solution.scale c := by
  simp only [Similarity.solution, Similarity.ofUnits, Solution.scale, mapColumns_mul, sq_abs]

/-! ### What does not depend on the units -/

namespace Solution

variable (solution : Solution ℝ n m) {c : ℝ}

theorem reducedChiSquare_scale (hdegrees : 0 < solution.degreesOfFreedom) :
    (solution.scale c).reducedChiSquare = c ^ 2 * solution.reducedChiSquare := by
  have hdegrees' : (solution.scale c).degreesOfFreedom = solution.degreesOfFreedom := rfl
  rw [reducedChiSquare, reducedChiSquare, hdegrees', if_neg hdegrees.ne', if_neg hdegrees.ne']
  exact mul_div_assoc _ _ _

theorem scaledCovariance_scale (hc : c ≠ 0) (hdegrees : 0 < solution.degreesOfFreedom) :
    (solution.scale c).scaledCovariance = solution.scaledCovariance := by
  refine ext_getElem fun p => ext_getElem fun q => ?_
  rw [scaledCovariance, scaledCovariance, solution.reducedChiSquare_scale hdegrees]
  simp only [scale, Mat.mapEntries, getElem_map]
  field_simp

theorem scaledErrors_scale (hc : c ≠ 0) (hdegrees : 0 < solution.degreesOfFreedom) :
    (solution.scale c).scaledErrors = solution.scaledErrors := by
  have hroot : Scalar.sqrt (c ^ 2 * solution.reducedChiSquare) =
      |c| * Scalar.sqrt solution.reducedChiSquare := by
    change √_ = |c| * √_
    rw [Real.sqrt_mul (sq_nonneg c), Real.sqrt_sq_eq_abs]
  refine ext_getElem fun i => ?_
  rw [scaledErrors, scaledErrors, solution.reducedChiSquare_scale hdegrees, hroot]
  simp only [scale, getElem_map]
  have habs := (abs_pos.2 hc).ne'
  field_simp

end Solution

/-! ### Fits -/

/-- The first iteration of the search from `x` finds lengths to measure with: those of the columns
of its Jacobian, and that of the free parameters in their scale. -/
def Setting.FindsLengths (s : Setting ℝ n m k) (tall : k ≤ m) (trials : ℕ) (x : Vector ℝ n) :
    Prop :=
  ∀ c j a i, s.Visits tall trials x c j → c.point.iterations = 0 →
    (s.jacobianAt c.point.x c.point.residuals).resume j = (.ok a, i) →
      (∀ e : Fin k, (s.modelAt tall c a).columnNorms[e] ≠ 0) ∧
        s.scaledNorm (s.modelAt tall c a).initialScale c.point.free ≠ 0

section Fits

variable {store : Store ℝ} {f : ResidualFunction ℝ} {options : Options ℝ}
  {initial : Option (Array ℝ)} {trials : ℕ} {c : ℝ}

theorem ofStore_scale (mode : JacobianMode) : Setting.ofStore store (f.scale c) options mode =
    (Setting.ofStore store f options mode).transform (·.map (c * ·)) := by
  rw [Setting.transform, funext (mapColumns_mul c)]
  rfl

theorem ofStore_scale_one (mode : JacobianMode) :
    Setting.ofStore store (f.scale 1) options mode = Setting.ofStore store f options mode := by
  have hvector : (fun x : Vector ℝ f.count => x.map (1 * ·)) = id :=
    funext fun x => ext_getElem fun i => by rw [getElem_map, one_mul, id_eq]
  have hmatrix : (Mat.mapEntries (1 * ·) : Mat ℝ f.count store.size → _) = id :=
    funext fun a => ext_getElem fun i => ext_getElem fun j => by
      rw [Mat.mapEntries, getElem_map, getElem_map, one_mul, id_eq]
  rw [ofStore_scale, Setting.transform, funext (mapColumns_mul 1), hmatrix, hvector]
  simp only [Except.map_id, id_eq]
  rfl

theorem comparable_scale (hc : c ≠ 0) (hscale : options.scale = none) (hdamp : options.damp = 0)
    {start : Start store f} (hstart : prepare store f options initial = .ok start)
    (hlengths : (Setting.ofStore store f options start.mode).FindsLengths start.tall trials start.x)
    (hidle : (Setting.ofStore store f options start.mode).FloorsIdle start.tall trials start.x)
    (hidle' : ((Setting.ofStore store f options start.mode).transform (·.map (c * ·))).FloorsIdle
      start.tall trials start.x) :
    Setting.Comparable ((Similarity.ofUnits hc).conversion store.size store.free.size)
      (Setting.ofStore store f options start.mode)
      ((Setting.ofStore store f options start.mode).transform (·.map (c * ·))) start.tall trials
      start.x where
  converts := by
    have hdampen (r : Vector ℝ f.count) :
        r.map (Setting.ofStore store f options start.mode).dampen = r :=
      ext_getElem fun i => (getElem_map _ _ _).trans (if_neg (not_lt.2 hdamp.le))
    refine (Similarity.ofUnits hc).converts (fun r => ?_) (.inl hscale)
    rw [hdampen, hdampen]
  inRange := Options.validate_ok.1 (prepare_ok hstart).1
  regular := .inl fun _ => rfl
  first := .inr fun c j a i hc hiterations ha =>
    (hlengths c j a i hc hiterations ha).imp_right .inr
  idle := .inr ⟨hidle, hidle'⟩

/-- The units of the residuals do not matter, of either sign. The lengths that a fit measures with
are those of the columns of its Jacobians, as no scale is given, and without damping nothing bends
the residuals. Where the first iteration finds no length, the first radius is a fixed number that is
in no units at all; and the smallest normal number must not bound a length in either fit. -/
theorem minimizeWithin_scale (hc : c ≠ 0) (hscale : options.scale = none) (hdamp : options.damp = 0)
    (hlengths : ∀ start, prepare store f options initial = .ok start →
      (Setting.ofStore store f options start.mode).FindsLengths start.tall trials start.x)
    (hidle : ∀ start, prepare store f options initial = .ok start →
      (Setting.ofStore store f options start.mode).FloorsIdle start.tall trials start.x)
    (hidle' : ∀ start, prepare store (f.scale c) options initial = .ok start →
      (Setting.ofStore store (f.scale c) options start.mode).FloorsIdle start.tall trials start.x) :
    minimizeWithin trials store (f.scale c) options initial =
        ((minimizeWithin trials store f options initial).1.map (·.scale c),
          (minimizeWithin trials store f options initial).2.scale |c|) ∧
      ∀ solution : Solution ℝ store.size f.count, 0 < solution.degreesOfFreedom →
        (solution.scale c).scaledCovariance = solution.scaledCovariance ∧
          (solution.scale c).scaledErrors = solution.scaledErrors := by
  have hrows : ∀ {n : ℕ} (a : Mat ℝ f.count n),
      Mat.mapEntries (c * ·) a = a.mapColumns (Similarity.ofUnits hc).map :=
    fun a => (mapColumns_mul c a).symm
  constructor
  · refine (minimizeWithin_transform (Similarity.ofUnits hc) hrows fun start hstart => ?_).trans ?_
    · refine comparable_scale hc hscale hdamp hstart (hlengths start hstart) (hidle start hstart) ?_
      have hcount : (f.scale c).count = f.count := rfl
      rw [← ofStore_scale]
      refine hidle' (start.transfer hcount) ?_
      rw [prepare_transfer hcount rfl, hstart]
      rfl
    · rw [funext (Similarity.solution_ofUnits hc)]
      rfl
  · exact fun solution hdegrees =>
      ⟨solution.scaledCovariance_scale hc hdegrees, solution.scaledErrors_scale hc hdegrees⟩

/-! ### Fits that take their whole step -/

namespace ExactFit

variable {start : Start store f} {a : Mat ℝ f.count store.size} {b : Vector ℝ f.count}
  (h : ExactFit store f options initial start a b)

include h

/-- Every step is the first of its iteration: none is rejected. -/
theorem progress_of_attempts {p : Checkpoint ℝ store.size f.count store.free.size}
    {jacobian : Mat ℝ f.count store.free.size} {q : Progress ℝ store.size f.count store.free.size}
    {i : Journal ℝ store.size} (hq : h.setting.Attempts start.tall trials start.x p jacobian q i) :
    q = h.setting.progressAt start.tall p jacobian := by
  obtain ⟨j, j', hvisits, hjacobian, htries⟩ := hq.run
  cases htries with
  | first => rfl
  | next htries hstep hrejected _ =>
      obtain ⟨_, _, hstep', haccepted, -⟩ := h.tryStep_accepts
        ⟨hq.gradient, hq.limit, j, j', hvisits, hjacobian, htries⟩ _
      cases hstep'.symm.trans hstep
      cases haccepted.symm.trans hrejected

variable (hlength : h.wholeLength ≤ 1.1 * h.radius)

include hlength

/-- After a whole step there is no slope left. -/
theorem visits_of_length {p : Checkpoint ℝ store.size f.count store.free.size}
    {j : Journal ℝ store.size} (hp : h.setting.Visits start.tall trials start.x p j) :
    p = h.checkpoint ∨
      (store.freeColumns a).toMatrixᵀ *ᵥ coords (affine a b p.point.x) = 0 := by
  induction hp with
  | start hp =>
      obtain ⟨j, hp'⟩ := h.startAt_eq
      cases hp.symm.trans hp'
      exact .inl rfl
  | @next p p' j j' hp hstep ih =>
      rcases ih with rfl | hslope
      · obtain ⟨jacobian, i, hjacobian, hadvance⟩ := Setting.iteration_ok hstep
        rcases Setting.advance_cases hadvance with ⟨_, -, hfinish, -⟩ |
          ⟨hgradient, hlimit, q, i', result, htries, htry, ⟨-, hfinish⟩ | ⟨-, -, hnext⟩⟩
        · cases hfinish
        · cases hfinish
        · have hgradient : options.gtol < h.setting.cosineAt start.tall h.checkpoint jacobian :=
            Options.isEmpty_gradientStatus_iff_lt.1 hgradient
          have hq : h.setting.Attempts start.tall trials start.x h.checkpoint jacobian q i' :=
            ⟨hgradient, hlimit, j, i, hp, hjacobian, htries⟩
          obtain rfl := h.jacobian_eq hq
          obtain rfl := h.progress_of_attempts hq
          obtain ⟨_, _, htry', -, hpoint⟩ := h.tryStep_accepts hq _
          cases htry'.symm.trans htry
          cases hnext
          obtain ⟨v, horigin⟩ := hq.point_eq
          have hx : result.progress.point.x = h.wholeTarget := by
            rw [hpoint, horigin]
            exact h.applyTies_eq _
          rw [hx]
          exact .inr (h.slope_wholeTarget ⟨hlimit, hgradient, hlength⟩)
      · obtain ⟨f, v, i, hend, -⟩ :=
          h.iteration_of_slope trials rfl (h.residuals_of_visits hp) hslope j
        cases hend.symm.trans hstep

theorem floorsIdle (trials : ℕ) : h.setting.FloorsIdle start.tall trials start.x := by
  intro p jacobian q i hq d hd
  obtain ⟨j, j', hp, -, -⟩ := hq.run
  obtain rfl := h.jacobian_eq hq
  rcases h.visits_of_length hlength hp with rfl | hslope
  · obtain rfl := h.progress_of_attempts hq
    have hexcess : h.wholeLength - h.radius ≤ 0.1 * h.radius := by linarith
    have hempty : ∀ d ∈ ([] : List ℝ), Scalar.minNormal ≤ d := nofun
    refine hempty d ?_
    convert hd using 1
    exact (if_pos hexcess).symm
  · have hcosine : h.setting.cosineAt start.tall p (store.freeColumns a) ≤ options.gtol := by
      apply Linearization.gradientCosine_le_of_slope _ (Options.isTolerance_iff.1 h.inRange.gtol)
      rw [h.unlimited.masked_eq, h.residuals_of_visits hp, hslope]
    exact absurd hq.gradient (not_lt.2 hcosine)

end ExactFit

/-! ### One parameter -/

section OneParameter

variable {s : Setting ℝ n m 1} {tall : 1 ≤ m} {p : Checkpoint ℝ n m 1} {a : Mat ℝ m 1}

/-- The step without damping is no longer than the residuals, in the scale of its column. -/
theorem Setting.scaledNorm_undamped_le (h : s.limits.Unlimited) (hchosen : s.options.scale = none)
    (hfirst : p.point.iterations = 0) (hcolumn : euclid (a.column 0) ≠ 0) :
    ((s.modelAt tall p a).stepModel (s.scaleAt tall p a)).scaledNorm
        (((s.modelAt tall p a).stepModel (s.scaleAt tall p a)).undamped (s.modelAt tall p a).r) ≤
      euclid p.point.residuals := by
  have hlength (x : Vector ℝ 1) : ((s.modelAt tall p a).stepModel (s.scaleAt tall p a)).scaledNorm x =
      _ := scaledNorm_stepModel_one (h.inward _ _ 0) hchosen hfirst hcolumn x
  have hstep : euclid (a.column 0) ^ 2 * (((s.modelAt tall p a).stepModel
      (s.scaleAt tall p a)).undamped (s.modelAt tall p a).r)[(0 : Fin 1)] =
        dot (a.column 0) p.point.residuals := undamped_one (h.held_eq _ _)
          (s.scaleAt tall p a) 0
  generalize ((s.modelAt tall p a).stepModel (s.scaleAt tall p a)).undamped
    (s.modelAt tall p a).r = step at hstep ⊢
  have hpos : 0 < euclid (a.column 0) := (euclid_nonneg _).lt_of_ne' hcolumn
  have hdot : |dot (a.column 0) p.point.residuals| ≤
      euclid (a.column 0) * euclid p.point.residuals := by
    have hcauchy := abs_dotProduct_le (coords (a.column 0)) (coords p.point.residuals)
    rw [← euclid_sq_eq_dotProduct, ← euclid_sq_eq_dotProduct, Real.sqrt_sq (euclid_nonneg _),
      Real.sqrt_sq (euclid_nonneg _)] at hcauchy
    rw [dot_eq]
    exact hcauchy
  rw [hlength]
  rw [← hstep, abs_mul, abs_of_nonneg (sq_nonneg _), pow_two, mul_assoc] at hdot
  exact le_of_mul_le_mul_left hdot hpos

end OneParameter

theorem affine_scale (a : Mat ℝ m n) (b : Vector ℝ m) (x : Vector ℝ n) :
    affine (Mat.mapEntries (c * ·) a) (b.map (c * ·)) x = (affine a b x).map (c * ·) := by
  refine ext_getElem fun i => ?_
  simp only [affine, Mat.mapEntries, getElem_ofFn, getElem_map, mul_add, Finset.mul_sum, mul_assoc]

theorem ExactFit.scale {start : Start store f} {a : Mat ℝ f.count store.size} {b : Vector ℝ f.count}
    (h : ExactFit store f options initial start a b) (c : ℝ) :
    ExactFit store (f.scale c) options initial ⟨start.mode, start.x, start.tall⟩
      (Mat.mapEntries (c * ·) a) (b.map (c * ·)) where
  accepted := by
    have hcount : (f.scale c).count = f.count := rfl
    rw [prepare_transfer hcount rfl, h.accepted]
    rfl
  eval x := by
    change (f.eval x).map _ = _
    rw [h.eval]
    exact congrArg _ (affine_scale a b x).symm
  analytic hmode x := by
    change (f.jacobian x).map _ = _
    rw [h.analytic hmode]
    rfl
  differences := h.differences
  untied := h.untied
  lower := h.lower
  upper := h.upper
  maxStep := h.maxStep

end Fits

namespace Misfit

noncomputable abbrev slope : Mat ℝ 2 1 := Mat.ofFn fun i _ => ![1, 0] i

noncomputable abbrev offset : Vector ℝ 2 := #v[-2, 1]

/-- The residuals `p - 2` and one, which no `p` brings to zero. -/
noncomputable abbrev function : ResidualFunction ℝ := .ofAffine slope offset

noncomputable abbrev store : Store ℝ := ⟨#[.ofValue 1]⟩

noncomputable abbrev start : Vector ℝ 1 := .replicate 1 1

theorem isExact : ExactFit store function .default (some #[1]) ⟨.analytic, start, by decide⟩ slope
    offset :=
  exactFit_one slope offset (by decide)

noncomputable def setting (c : ℝ) : Setting ℝ 1 2 1 := (isExact.scale c).setting

noncomputable def checkpoint (c : ℝ) : Checkpoint ℝ 1 2 1 := (isExact.scale c).checkpoint

noncomputable def columns (c : ℝ) : Mat ℝ 2 1 := store.freeColumns (Mat.mapEntries (c * ·) slope)

theorem unlimited (c : ℝ) : (setting c).limits.Unlimited := (isExact.scale c).unlimited

theorem euclid_column (c : ℝ) : euclid ((columns c).column 0) = |c| := by
  have hentry : ∀ i : Fin 2, ((columns c).column 0)[i] = c * slope[i][(0 : Fin 1)] := by
    intro i
    rw [Mat.getElem_column]
    refine (Mat.getElem_ofFn _ i (0 : Fin 1)).trans ?_
    rw [Mat.mapEntries, getElem_map, getElem_map]
    rfl
  rw [euclid, Fin.sum_univ_two, hentry, hentry]
  change √((c * 1) ^ 2 + (c * 0) ^ 2) = _
  rw [mul_one, mul_zero, zero_pow two_ne_zero, add_zero, Real.sqrt_sq_eq_abs]

theorem euclid_residuals (c : ℝ) : euclid (checkpoint c).point.residuals = |c| * √2 := by
  have hresiduals : (checkpoint c).point.residuals = (affine slope offset start).map (c * ·) :=
    affine_scale slope offset start
  have hentry (i : Fin 2) :
      (affine slope offset start)[i] = slope[i][(0 : Fin 1)] + offset[i] := by
    refine (getElem_ofFn _ i).trans ?_
    rw [Fin.sum_univ_one]
    change _ * (1 : ℝ) + _ = _
    rw [mul_one]
  rw [hresiduals, euclid, Fin.sum_univ_two, getElem_map, getElem_map, hentry, hentry]
  change √((c * (1 + -2)) ^ 2 + (c * (0 + 1)) ^ 2) = _
  rw [← Real.sqrt_sq_eq_abs, ← Real.sqrt_mul (sq_nonneg c)]
  congr 1
  ring

variable {c : ℝ} (hc : c ≠ 0)

include hc

theorem euclid_column_ne : euclid ((columns c).column 0) ≠ 0 := by
  rw [euclid_column]
  exact (abs_pos.2 hc).ne'

theorem scaledNorm_start {p : Checkpoint ℝ 1 2 1} (hp : p.point.free[(0 : Fin 1)] = 1) :
    (setting c).scaledNorm ((setting c).modelAt (by decide) p (columns c)).initialScale
      p.point.free = |c| := by
  rw [Setting.scaledNorm_initialScale_one ((unlimited c).inward _ _ 0) (euclid_column_ne hc), hp,
    euclid_column, abs_one, mul_one]

theorem findsLengths : (setting c).FindsLengths (by decide) 100 start := by
  intro p j a i hp hfirst ha
  have hfree : p.point.iterations = 0 → p.point.free[(0 : Fin 1)] = 1 := by
    refine Setting.visits_point (I := fun p => p.iterations = 0 → p.free[(0 : Fin 1)] = 1) ?_
      (fun _ _ h => h) (fun _ _ _ _ _ _ hzero => absurd hzero (Nat.succ_ne_zero _)) hp
    intro p j hp _
    obtain ⟨r, i, -, rfl⟩ := Setting.startAt_ok hp
    exact (getElem_map _ _ _).trans
      (Store.getElem_applyTies_of_untied (s := store) #v[1] (i := (0 : Fin 1)) rfl)
  obtain ⟨i', ha'⟩ := (isExact.scale c).jacobianAt_eq p.point.x j
  rw [← (isExact.scale c).residuals_of_visits hp] at ha'
  cases ha.symm.trans ha'
  refine ⟨Fin.forall_fin_one.2 ?_, ?_⟩
  · exact (Setting.columnNorms_modelAt ((unlimited c).inward _ _ 0)).trans_ne (euclid_column_ne hc)
  · exact (scaledNorm_start hc (hfree hfirst)).trans_ne (abs_pos.2 hc).ne'

theorem radius_eq : (isExact.scale c).radius = 100 * |c| := by
  have hfree : (checkpoint c).point.free[(0 : Fin 1)] = 1 := (getElem_map _ _ _).trans rfl
  have hne : (checkpoint c).point.free[(0 : Fin 1)] ≠ 0 := hfree.trans_ne one_ne_zero
  change ((setting c).progressAt (by decide) (checkpoint c) (columns c)).region.radius = _
  rw [Setting.radius_one ((unlimited c).inward _ _ 0) rfl rfl (euclid_column_ne hc) hne,
    euclid_column, hfree, abs_one, mul_one]
  change (100.0 : ℝ) * |c| = 100 * |c|
  norm_num

theorem length_le : (isExact.scale c).wholeLength ≤ 1.1 * (isExact.scale c).radius := by
  have hpos := abs_pos.2 hc
  have hlength : (isExact.scale c).wholeLength ≤ |c| * √2 := by
    rw [← euclid_residuals]
    exact Setting.scaledNorm_undamped_le (s := setting c) (unlimited c) rfl rfl
      (euclid_column_ne hc)
  have hroot : √2 ≤ (2 : ℝ) := Real.sqrt_le_iff.2 (by norm_num)
  rw [radius_eq hc]
  refine hlength.trans ?_
  nlinarith

end Misfit

/-- Also a fit that leaves a misfit takes the same steps in units a third as large, of the other
sign. -/
theorem minimizeWithin_scale_misfit :
    minimizeWithin 100 Misfit.store (Misfit.function.scale (-3)) .default (some #[1]) =
      ((minimizeWithin 100 Misfit.store Misfit.function .default (some #[1])).1.map (·.scale (-3)),
        (minimizeWithin 100 Misfit.store Misfit.function .default (some #[1])).2.scale |-3|) := by
  refine (minimizeWithin_scale (by norm_num) rfl rfl (fun start hstart => ?_)
    (fun start hstart => ?_) fun start hstart => ?_).1
  · cases Misfit.isExact.accepted.symm.trans hstart
    rw [← ofStore_scale_one]
    exact Misfit.findsLengths one_ne_zero
  · cases Misfit.isExact.accepted.symm.trans hstart
    rw [← ofStore_scale_one]
    exact (Misfit.isExact.scale 1).floorsIdle (Misfit.length_le one_ne_zero) 100
  · cases (Misfit.isExact.scale (-3)).accepted.symm.trans hstart
    exact (Misfit.isExact.scale (-3)).floorsIdle (Misfit.length_le (by norm_num)) 100

end LeastSquares
