import LeastSquares.Proofs.TrialBounds
import LeastSquares.Proofs.TrialStep
import Mathlib.Analysis.SpecialFunctions.Log.Base

/-!
Rejected steps run out. In exact arithmetic a step that is rejected at least halves the trust
region, whatever the residual function and its Jacobian are: the factor of the update lies between a
tenth and a half because the slope that is predicted is never positive. The tests after a step stop
the search when the radius has fallen to a part of the scaled norm of the parameters, which rejected
steps leave alone. So the logarithm of the radius over that floor is a potential for the loop of
trial steps, and where the norm does not vanish every fit terminates.
-/

namespace LeastSquares

variable {n m k : ℕ}

/-! ### The trust region after a step -/

namespace TrustRegion

/-- The factor that shrinks the radius lies between a tenth and a half if the residuals were
predicted to fall in the direction of the step. -/
theorem shrinkage_mem {t : Trial ℝ} (hslope : t.slope ≤ 0) :
    0.1 ≤ shrinkage t ∧ shrinkage t ≤ 0.5 := by
  have hpart : (if 0 ≤ t.actual then (0.5 : ℝ) else 0.5 * t.slope / (t.slope + 0.5 * t.actual)) ≤
      0.5 := by
    split
    · exact le_rfl
    · next hactual =>
      -- both terms of the divisor have the sign of the slope, so the quotient is at most one
      have hdivisor : t.slope + 0.5 * t.actual < 0 := by linarith
      rw [div_le_iff_of_neg hdivisor]
      linarith
  unfold shrinkage
  dsimp only
  generalize (if 0 ≤ t.actual then (0.5 : ℝ) else _) = part at hpart ⊢
  split
  · norm_num
  · next hsmall =>
    rw [not_or, not_lt] at hsmall
    exact ⟨hsmall.2, hpart⟩

theorem radius_update_le (region : TrustRegion ℝ) {t : Trial ℝ} (hratio : t.ratio ≤ 0.25)
    (hslope : t.slope ≤ 0) (hlength : 0 ≤ t.length) (hradius : 0 ≤ region.radius) :
    0 ≤ (region.update t).radius ∧ (region.update t).radius ≤ region.radius / 2 := by
  obtain ⟨hlower, hupper⟩ := shrinkage_mem hslope
  have hmin : 0 ≤ min region.radius (t.length / 0.1) := le_min hradius (by positivity)
  have hshrink : 0 ≤ shrinkage t := (by norm_num : (0 : ℝ) ≤ 0.1).trans hlower
  have hupdate : (region.update t).radius = shrinkage t * min region.radius (t.length / 0.1) := by
    rw [update, if_pos hratio]
    rfl
  rw [hupdate]
  refine ⟨mul_nonneg hshrink hmin, ?_⟩
  calc shrinkage t * min region.radius (t.length / 0.1)
      ≤ 0.5 * region.radius := mul_le_mul hupper (min_le_left _ _) hmin (by norm_num)
    _ = region.radius / 2 := by ring

end TrustRegion

namespace Setting

variable {s : Setting ℝ n m k} {l : Linearization ℝ m k} {scale : Vector ℝ k} {cosine : ℝ}

/-- Along any step the residuals are predicted not to rise. -/
theorem predict_slope_nonpos (norm damping length : ℝ) (image : Vector ℝ k) {part : ℝ}
    (hpart : 0 < part) : (s.predict norm damping part length image).slope ≤ 0 := by
  have hsum : ∀ a b : ℝ, 0 ≤ a * a + b * b := fun a b =>
    add_nonneg (mul_self_nonneg a) (mul_self_nonneg b)
  exact div_nonpos_of_nonpos_of_nonneg (neg_nonpos.2 (hsum _ _)) hpart.le

theorem regionFor_radius {p : Progress ℝ n m k} (damping : ℝ) {length : ℝ} (hlength : 0 ≤ length)
    (hradius : 0 ≤ p.region.radius) :
    0 ≤ (p.regionFor damping length).radius ∧
      (p.regionFor damping length).radius ≤ p.region.radius := by
  unfold Progress.regionFor
  dsimp only
  split
  · exact ⟨le_min hradius hlength, min_le_left _ _⟩
  · exact ⟨hradius, le_rfl⟩

/-- A rejected step at least halves the radius of the trust region. -/
theorem radius_of_rejected {p : Progress ℝ n m k} {result : TrialResult ℝ n m k}
    {j j' : Journal ℝ n} (hradius : 0 ≤ p.region.radius)
    (h : (s.tryStep l scale cosine p).resume j = (.ok result, j'))
    (hrejected : result.accepted = false) :
    0 ≤ result.progress.region.radius ∧ result.progress.region.radius ≤ p.region.radius / 2 := by
  obtain ⟨r, i, -, -, rfl⟩ := tryStep_ok h
  have hlength : 0 ≤ (s.propose l scale p).length := scaledNorm_nonneg s _ _
  obtain ⟨hnonneg, hle⟩ := regionFor_radius (s.propose l scale p).damped.damping hlength hradius
  have hratio : (s.judge l p.point (s.propose l scale p) r).ratio ≤ 0.25 := by
    have hlow : ¬ (1e-4 : ℝ) ≤ (s.judge l p.point (s.propose l scale p) r).ratio :=
      of_decide_eq_false hrejected
    refine (not_le.1 hlow).le.trans ?_
    norm_num
  have hslope : (s.judge l p.point (s.propose l scale p) r).predicted.slope ≤ 0 :=
    predict_slope_nonpos _ _ _ _ (minNormal_pos.trans_le (le_max_right _ Scalar.minNormal))
  obtain ⟨hnew, hhalf⟩ := TrustRegion.radius_update_le
    (p.regionFor (s.propose l scale p).damped.damping (s.propose l scale p).length)
    (t := ⟨(s.judge l p.point (s.propose l scale p) r).ratio,
      (s.judge l p.point (s.propose l scale p) r).actual,
      (s.judge l p.point (s.propose l scale p) r).predicted.slope, p.point.norm, s.normOf r,
      (s.propose l scale p).length⟩) hratio hslope hlength hnonneg
  exact ⟨hnew, hhalf.trans (by linarith)⟩

end Setting

/-! ### The loop of trial steps -/

/-- The part of the scaled norm of the parameters to which the radius can fall before the search
stops. -/
noncomputable def Options.radiusFloor (o : Options ℝ) : ℝ := max o.xtol Scalar.epsilon

theorem Options.radiusFloor_pos (o : Options ℝ) : 0 < o.radiusFloor :=
  epsilon_pos.trans_le (le_max_right _ _)

/-- A bound on the steps of an iteration that starts with the given radius and scaled norm of the
parameters. -/
noncomputable def Options.trialsWithin (o : Options ℝ) (radius norm : ℝ) : ℕ :=
  ⌈Real.logb 2 (radius / (o.radiusFloor * norm))⌉₊ + 2

theorem le_two_pow_ceil_logb {a b : ℝ} (ha : 0 ≤ a) (hb : 0 < b) :
    a ≤ 2 ^ ⌈Real.logb 2 (a / b)⌉₊ * b := by
  rcases ha.eq_or_lt with rfl | ha
  · positivity
  · have hle : a / b ≤ 2 ^ ⌈Real.logb 2 (a / b)⌉₊ := by
      calc a / b = (2 : ℝ) ^ Real.logb 2 (a / b) :=
            (Real.rpow_logb two_pos (by norm_num) (div_pos ha hb)).symm
        _ ≤ (2 : ℝ) ^ (⌈Real.logb 2 (a / b)⌉₊ : ℝ) :=
            Real.rpow_le_rpow_of_exponent_le one_le_two (Nat.le_ceil _)
        _ = 2 ^ ⌈Real.logb 2 (a / b)⌉₊ := Real.rpow_natCast _ _
    exact (div_le_iff₀ hb).1 hle

theorem Options.lt_radius_of_isEmpty {o : Options ℝ} {t : StepStatistics ℝ}
    {iterations evaluations : ℕ} (hnorm : 0 ≤ t.norm)
    (h : (o.stepStatus t iterations evaluations).isEmpty = true) :
    o.radiusFloor * t.norm < t.radius := by
  obtain ⟨-, -, hxtol, hepsilon⟩ := of_stepStatus_isEmpty h
  rw [← Bool.not_eq_true, StepStatistics.changeWithin_iff, not_le] at hxtol hepsilon
  rw [radiusFloor, max_mul_of_nonneg _ _ hnorm]
  exact max_lt hxtol hepsilon

namespace Setting

variable {s : Setting ℝ n m k} {tall : k ≤ m} {l : Linearization ℝ m k} {scale : Vector ℝ k}
  {cosine : ℝ}

/-- The halvings that the radius has left are a potential for the steps of an iteration. -/
theorem usesUp_radius {norm : ℝ} (hnorm : 0 < norm) :
    s.UsesUp l scale cosine fun r p _ => p.point.scaledNorm = norm ∧ 0 ≤ p.region.radius ∧
      p.region.radius ≤ 2 ^ r * (s.options.radiusFloor * norm) := by
  rintro r p j result j' ⟨hp, hradius, hle⟩ hstep hrejected hstatus
  have hpoint := tryStep_rejected hstep hrejected
  obtain ⟨hnonneg, hhalf⟩ := radius_of_rejected hradius hstep hrejected
  have hfloor : 0 < s.options.radiusFloor * norm := mul_pos s.options.radiusFloor_pos hnorm
  have habove : s.options.radiusFloor * norm < result.progress.region.radius := by
    rw [← hp, ← hpoint]
    obtain ⟨f, i, -, -, rfl⟩ := tryStep_ok hstep
    refine Options.lt_radius_of_isEmpty ?_ hstatus
    change 0 ≤ (s.resultOf l scale cosine p f i.evaluations).progress.point.scaledNorm
    rw [hpoint, hp]
    exact hnorm.le
  cases r with
  | zero =>
      -- no halving is left, but the radius has been halved and is above its floor
      exact absurd (habove.trans_le hhalf) (by linarith [hle, pow_zero (2 : ℝ)])
  | succ r =>
      refine ⟨r, rfl, by rw [hpoint, hp], hnonneg, hhalf.trans ?_⟩
      rw [pow_succ] at hle
      linarith

/-- An iteration ends within the logarithm of its radius. -/
theorem tryUntilAccepted_within (l : Linearization ℝ m k) (scale : Vector ℝ k) (cosine : ℝ)
    {p : Progress ℝ n m k} {trials : ℕ} (j : Journal ℝ n) (hradius : 0 ≤ p.region.radius)
    (hnorm : 0 < p.point.scaledNorm)
    (htrials : s.options.trialsWithin p.region.radius p.point.scaledNorm ≤ trials) :
    (s.tryUntilAccepted l scale cosine trials p).Ends j ∧
      ((s.tryUntilAccepted l scale cosine trials p).resume j).2.calls.size ≤
        j.calls.size + s.options.trialsWithin p.region.radius p.point.scaledNorm := by
  have hstart := le_two_pow_ceil_logb hradius (mul_pos s.options.radiusFloor_pos hnorm)
  unfold Options.trialsWithin at htrials ⊢
  have hsteps : s.UsesUp l scale cosine _ := usesUp_radius hnorm
  have hlt : ⌈Real.logb 2 (p.region.radius / (s.options.radiusFloor * p.point.scaledNorm))⌉₊ <
      trials := by omega
  obtain ⟨hends, hcalls⟩ := tryUntilAccepted_ends (j := j) hsteps ⟨rfl, hradius, hstart⟩ hlt
  exact ⟨hends, by omega⟩

/-! ### A whole search -/

/-- The first iteration measures the parameters; they have no norm only if all of them vanish. -/
theorem scaledNorm_progressAt_pos (hoptions : s.options.InRange) {trials : ℕ} {x : Vector ℝ n}
    {c : Checkpoint ℝ n m k} {j : Journal ℝ n} (hc : s.Visits tall trials x c j) (a : Mat ℝ m k)
    (hfirst : c.point.iterations = 0) {e : Fin k} (he : c.point.free[e] ≠ 0) :
    0 < (s.progressAt tall c a).point.scaledNorm := by
  have hscale := (ready_progressAt hoptions hc a).scale_pos e
  unfold progressAt
  unfold rescale at hscale ⊢
  rw [if_pos hfirst] at hscale ⊢
  dsimp only at hscale ⊢
  refine lt_of_le_of_ne (scaledNorm_nonneg s _ _) fun hzero => ?_
  rw [scaledNorm, normOf_eq, eq_comm, euclid_eq_zero] at hzero
  have hentry := hzero e
  rw [getElem_scaleBy] at hentry
  exact mul_ne_zero hscale.ne' he hentry

/-- Where the scaled norm of the parameters does not vanish, every iteration ends. -/
theorem iterationsEnd_of_norm {x : Vector ℝ n} (hoptions : s.options.InRange)
    (hnorm : ∀ trials c j a i, s.Visits tall trials x c j →
      (s.jacobianAt c.point.x c.point.residuals).resume j = (.ok a, i) →
      0 < (s.progressAt tall c a).point.scaledNorm) : s.IterationsEnd tall ⊤ x := by
  intro t c j a i hc ha
  exact ⟨_, le_top, (tryUntilAccepted_within _ _ _ i (ready_progressAt hoptions hc a).radius_pos.le
    (hnorm t c j a i hc ha) le_rfl).1⟩

theorem iterationsEnd_of_maxEvaluations {x : Vector ℝ n} {limit : ℕ}
    (h : s.options.maxEvaluations = some limit) :
    s.IterationsEnd tall ((limit + 1 : ℕ) : ℕ∞) x := by
  intro t c j a i _ _
  -- at worst no evaluation has been counted yet, so the whole limit is left
  exact ⟨limit + 1, le_rfl, (tryUntilAccepted_ends (r := limit) (usesUp_evaluations h)
    (by omega) (Nat.lt_succ_self _)).1⟩

end Setting

/-- In exact arithmetic, whatever the residual function and its Jacobian: a rejected step at least
halves the radius, which is positive on entry to every iteration; so an iteration takes no more steps
than the logarithm of its radius over the floor of the tests, and two; and a fit terminates, always
with the same result under any bound on trials that is large enough, if the scaled norm of the
parameters is positive in every iteration or evaluations are bounded. -/
theorem rejections_bounded (store : Store ℝ) (function : ResidualFunction ℝ) (options : Options ℝ)
    (initial : Option (Array ℝ)) :
    (∀ mode l scale cosine p j result j',
      ((Setting.ofStore store function options mode).tryStep l scale cosine p).resume j =
        (.ok result, j') →
      0 ≤ p.region.radius → result.accepted = false →
      0 ≤ result.progress.region.radius ∧ result.progress.region.radius ≤ p.region.radius / 2) ∧
    (∀ start trials c j a, prepare store function options initial = .ok start →
      (Setting.ofStore store function options start.mode).Visits start.tall trials start.x c j →
      0 < ((Setting.ofStore store function options start.mode).progressAt start.tall c
        a).region.radius) ∧
    (∀ mode l scale cosine p j trials,
      0 ≤ p.region.radius → 0 < p.point.scaledNorm →
      options.trialsWithin p.region.radius p.point.scaledNorm ≤ trials →
      ∀ outcome j', ((Setting.ofStore store function options mode).tryUntilAccepted l scale cosine
          trials p).resume j = (outcome, j') →
        outcome ≠ .error .outOfTrials ∧
        j'.calls.size ≤ j.calls.size + options.trialsWithin p.region.radius p.point.scaledNorm ∧
        ∀ result, outcome = .ok result →
          result.accepted = true ∨ result.status.isEmpty = false) ∧
    ((∀ start trials c j a i, prepare store function options initial = .ok start →
        (Setting.ofStore store function options start.mode).Visits start.tall trials start.x c j →
        ((Setting.ofStore store function options start.mode).jacobianAt c.point.x
          c.point.residuals).resume j = (.ok a, i) →
        0 < ((Setting.ofStore store function options start.mode).progressAt start.tall c
          a).point.scaledNorm) →
      ∃ bound, ∀ trials ≥ bound,
        minimizeWithin trials store function options initial =
          minimizeWithin bound store function options initial ∧
        (minimizeWithin trials store function options initial).1 ≠ .error .outOfTrials) ∧
    (∀ limit, options.maxEvaluations = some limit →
      (minimize store function options initial).1 ≠ .error .outOfTrials ∧
      ∀ trials > limit, minimizeWithin trials store function options initial =
        minimize store function options initial) := by
  refine ⟨fun _ _ _ _ _ _ _ _ h hradius => Setting.radius_of_rejected hradius h, ?_, ?_, ?_, ?_⟩
  · intro start trials c j a hstart hc
    obtain ⟨hvalid, -⟩ := prepare_ok hstart
    exact (Setting.ready_progressAt (Options.validate_ok.1 hvalid) hc a).radius_pos
  · intro mode l scale cosine p j trials hradius hnorm htrials outcome j' h
    obtain ⟨hends, hcalls⟩ := Setting.tryUntilAccepted_within
      (s := Setting.ofStore store function options mode) l scale cosine j hradius hnorm htrials
    rw [Run.Ends, h] at hends
    rw [h] at hcalls
    refine ⟨hends, hcalls, ?_⟩
    rintro result rfl
    obtain ⟨q, i, -, -, hend⟩ := Setting.tryUntilAccepted_ok .first h
    exact hend
  -- every iteration ends under a bound of its own, and a fit has finitely many of them
  · intro hnorm
    obtain ⟨bound, -, hbound⟩ : ∃ bound : ℕ, (bound : ℕ∞) ≤ ⊤ ∧
        (minimizeWithin bound store function options initial).1 ≠ .error .outOfTrials :=
      minimizeWithin_ends fun start hstart => by
        obtain ⟨hvalid, -⟩ := prepare_ok hstart
        exact Setting.iterationsEnd_of_norm (Options.validate_ok.1 hvalid)
          fun trials c j a i hc ha => hnorm start trials c j a i hstart hc ha
    refine ⟨bound, fun trials htrials => ?_⟩
    have hsame := minimizeWithin_eq_of_le htrials hbound
    exact ⟨hsame, hsame ▸ hbound⟩
  · intro limit hlimit
    obtain ⟨bound, hle, hbound⟩ : ∃ bound : ℕ, (bound : ℕ∞) ≤ ((limit + 1 : ℕ) : ℕ∞) ∧
        (minimizeWithin bound store function options initial).1 ≠ .error .outOfTrials :=
      minimizeWithin_ends fun start _ => Setting.iterationsEnd_of_maxEvaluations hlimit
    have hle : bound ≤ limit + 1 := by exact_mod_cast hle
    have hminimize : minimize store function options initial =
        minimizeWithin bound store function options initial := by
      unfold minimize Options.trialBound
      rw [hlimit]
      exact minimizeWithin_eq_of_le hle hbound
    rw [hminimize]
    exact ⟨hbound, fun trials htrials => minimizeWithin_eq_of_le (hle.trans htrials) hbound⟩

/-- A residual that does not depend on the parameters, with a Jacobian that says it does. -/
noncomputable def misleading : ResidualFunction ℝ where
  count := 1
  eval _ := .ok #v[1]
  hasJacobian := true
  jacobian _ := .ok (Mat.ofFn fun _ _ => 1)

noncomputable def misleadingSetting : Setting ℝ 1 1 1 :=
  .ofStore ⟨#[.ofValue 1]⟩ misleading .default .analytic

section Misleading

variable {tall : 1 ≤ 1} {trials : ℕ} {c : Checkpoint ℝ 1 1 1} {j : Journal ℝ 1}

/-- The residuals are the same everywhere, so no step is ever accepted. -/
theorem iterations_misleading (hc : misleadingSetting.Visits tall trials #v[1] c j) :
    c.point.iterations = 0 := by
  obtain ⟨j', hp⟩ := Setting.startAt_of_eval (s := misleadingSetting) (x := #v[1]) (j := .empty)
    (f := #v[1]) rfl
  have hbelow := Setting.below_of_visits hp hc
  have hresiduals : c.point.residuals = (#v[1] : Vector ℝ 1).map misleadingSetting.dampen := by
    refine Setting.visits_point (I := fun p => p.residuals =
      (#v[1] : Vector ℝ 1).map misleadingSetting.dampen) ?_ (fun _ _ h => h) ?_ hc
    · intro p j hp
      obtain ⟨r, i, hr, rfl⟩ := Setting.startAt_ok hp
      obtain ⟨f, hf, rfl, -, -⟩ := Setting.residualsAt_ok.1 hr
      cases hf
      rfl
    · rintro p scale target r ⟨j, i, hr⟩ -
      obtain ⟨f, hf, rfl, -, -⟩ := Setting.residualsAt_ok.1 hr
      cases hf
      rfl
  refine Nat.eq_zero_of_not_pos fun hpos => absurd (hbelow.lt hpos) ?_
  rw [hbelow.measured, hresiduals, Setting.normOf_eq]
  exact lt_irrefl _

theorem free_misleading (hc : misleadingSetting.Visits tall trials #v[1] c j) :
    c.point.free[(0 : Fin 1)] = 1 := by
  have hstart : c.point.iterations = 0 → c.point.free[(0 : Fin 1)] = 1 := by
    refine Setting.visits_point (I := fun p => p.iterations = 0 → p.free[(0 : Fin 1)] = 1)
      ?_ (fun _ _ h => h) ?_ hc
    · intro p j hp _
      obtain ⟨r, i, -, rfl⟩ := Setting.startAt_ok hp
      exact (getElem_map _ _ _).trans
        (Store.getElem_applyTies_of_untied (s := ⟨#[.ofValue 1]⟩) #v[1] (i := (0 : Fin 1)) rfl)
    · intro p scale target r _ _ hzero
      exact absurd hzero (Nat.succ_ne_zero _)
  exact hstart (iterations_misleading hc)

end Misleading

/-- A fit in which every step is rejected terminates: the search stays at its start, at one. -/
theorem rejections_bounded_misleading :
    ∃ bound, ∀ trials ≥ bound,
      minimizeWithin trials ⟨#[.ofValue 1]⟩ misleading .default (some #[1]) =
        minimizeWithin bound ⟨#[.ofValue 1]⟩ misleading .default (some #[1]) ∧
      (minimizeWithin trials ⟨#[.ofValue 1]⟩ misleading .default (some #[1])).1 ≠
        .error .outOfTrials := by
  refine (rejections_bounded ⟨#[.ofValue 1]⟩ misleading .default (some #[1])).2.2.2.1 ?_
  intro start trials c j a i hstart hc _
  have hwithin : Store.Within ⟨#[Parameter.ofValue (1 : ℝ)]⟩ #v[1] := by
    rw [Store.within_iff]
    intro i _
    simp [Store.get, Parameter.ofValue]
  have hprepare : prepare ⟨#[.ofValue 1]⟩ misleading .default (some #[1]) =
      .ok ⟨.analytic, #v[1], by decide⟩ :=
    prepare_default rfl rfl hwithin (by decide) (by decide)
  cases hprepare.symm.trans hstart
  exact Setting.scaledNorm_progressAt_pos inRange_default hc a (iterations_misleading hc)
    (e := (0 : Fin 1)) (ne_of_eq_of_ne (free_misleading hc) one_ne_zero)

end LeastSquares
