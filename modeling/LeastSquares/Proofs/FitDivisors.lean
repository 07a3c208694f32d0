import LeastSquares.Proofs.TrialDivisors

/-!
No fit divides by zero, in exact arithmetic. `Divides` holds of the numbers that a search divides by
where it evaluates and factorizes a Jacobian, computes a damped step, keeps it inside the limits,
predicts what it gains, updates the trust region and inverts a triangle for the covariance. That zero
is none of them takes what holds of every attempt: the radius of its trust region and the scale of its
parameters are positive, its point is within the limits, and its residuals do not vanish.
-/

namespace LeastSquares

variable {n m k : ℕ} {q : ℝ → ℝ → ℝ}

theorem Run.resume_bind_congr {α β γ : Type} {run run' : Run α n β} {f f' : β → Run α n γ}
    {j : Journal α n} (hrun : run'.resume j = run.resume j)
    (hrest : ∀ b i, run.resume j = (.ok b, i) → (f' b).resume i = (f b).resume i) :
    (run' >>= f').resume j = (run >>= f).resume j := by
  rw [resume_bind, resume_bind, hrun]
  rcases hresume : run.resume j with ⟨_ | b, i⟩
  · rfl
  · exact hrest b i hresume

namespace Setting

section Lists

variable {α : Type} [NormedScalar α] (s : Setting α n m k)

def jacobianDivisors (x : Vector α n) : List α :=
  match s.mode with
  | .analytic => []
  | .finiteDifference => differenceDivisors x s.free s.rules s.options.differenceScale

def modelDivisors (tall : k ≤ m) (p : Iterate α n m k) (a : Mat α m k) : List α :=
  PivotedQR.factorDivisors (s.limits.maskJacobian p.free a p.residuals) tall

end Lists

inductive Divides (s : Setting ℝ n m k) (tall : k ≤ m) (trials : ℕ) (x : Vector ℝ n) : ℝ → Prop
  | jacobian {c : Checkpoint ℝ n m k} {j : Journal ℝ n} {d : ℝ} :
      s.Visits tall trials x c j → d ∈ s.jacobianDivisors c.point.x → Divides s tall trials x d
  | model {c : Checkpoint ℝ n m k} {a : Mat ℝ m k} {j j' : Journal ℝ n} {d : ℝ} :
      s.Visits tall trials x c j →
      (s.jacobianAt c.point.x c.point.residuals).resume j = (.ok a, j') →
      d ∈ s.modelDivisors tall c.point a → Divides s tall trials x d
  | propose {c : Checkpoint ℝ n m k} {a : Mat ℝ m k} {p : Progress ℝ n m k} {i : Journal ℝ n}
      {d : ℝ} :
      s.Attempts tall trials x c a p i →
      d ∈ s.proposeDivisors (s.modelAt tall c a) (s.scaleAt tall c a) p → Divides s tall trials x d
  | judge {c : Checkpoint ℝ n m k} {a : Mat ℝ m k} {p : Progress ℝ n m k} {i i' : Journal ℝ n}
      {r : Vector ℝ m} {d : ℝ} :
      s.Attempts tall trials x c a p i →
      (s.residualsAt .trial (s.withFree p.point.x (s.proposalAt tall c a p).move.target)).resume i =
        (.ok r, i') →
      d ∈ s.judgeDivisors (s.modelAt tall c a) p.point (s.proposalAt tall c a p) r →
      Divides s tall trials x d
  | covariance {c : Checkpoint ℝ n m k} {f : Finish ℝ n m k} {j j' : Journal ℝ n} {d : ℝ} :
      s.Visits tall trials x c j →
      (s.iteration tall trials c).resume j = (.ok (.inl f), j') →
      d ∈ covarianceDivisors f.workspace s.options.rankTolerance → Divides s tall trials x d

variable {s : Setting ℝ n m k} {tall : k ≤ m} {trials : ℕ} {x : Vector ℝ n}
  {c : Checkpoint ℝ n m k} {a : Mat ℝ m k} {p : Progress ℝ n m k} {i j : Journal ℝ n}

/-! ### The damping -/

/-- The damping that a step leaves is not negative, whatever it was. -/
theorem damping_nonneg_of_step {l : Linearization ℝ m k} {scale : Vector ℝ k} {cosine : ℝ}
    {result : TrialResult ℝ n m k} {i' : Journal ℝ n}
    (hdamped : 0 ≤ (s.propose l scale p).damped.damping)
    (h : (s.tryStep l scale cosine p).resume i = (.ok result, i')) :
    0 ≤ result.progress.region.damping := by
  obtain ⟨r, _, -, -, rfl⟩ := tryStep_ok h
  have hregion : (s.propose l scale p).region.damping = (s.propose l scale p).damped.damping := by
    change (p.regionFor _ _).damping = _
    unfold Progress.regionFor
    dsimp only
    split <;> rfl
  refine TrustRegion.update_damping_nonneg ?_ (hregion ▸ hdamped)
  exact predict_slope_nonpos _ _ _ _ (minNormal_pos.trans_le (le_max_right _ Scalar.minNormal))

theorem exists_attempt_of_next {c' : Checkpoint ℝ n m k} {j' : Journal ℝ n}
    (hc : s.Visits tall trials x c j)
    (h : (s.iteration tall trials c).resume j = (.ok (.inr c'), j')) :
    ∃ a p i result, s.Attempts tall trials x c a p i ∧
      (s.tryStep (s.modelAt tall c a) (s.scaleAt tall c a) (s.cosineAt tall c a) p).resume i =
        (.ok result, j') ∧ c'.region = result.progress.region := by
  obtain ⟨a, i, ha, hadvance⟩ := iteration_ok h
  rcases advance_cases hadvance with
    ⟨_, -, hend, -⟩ | ⟨hgradient, hlimit, p, i', result, hp, hstep, hend⟩
  · cases hend
  · rcases hend with ⟨-, hend⟩ | ⟨-, -, hend⟩
    · cases hend
    · cases hend
      exact ⟨a, p, i', result,
        ⟨Options.isEmpty_gradientStatus_iff_lt.1 hgradient, hlimit, j, i, hc, ha, hp⟩, hstep, rfl⟩

section Options

variable (hoptions : s.options.InRange)

include hoptions

theorem damping_nonneg_of_visits (h : s.Visits tall trials x c j) : 0 ≤ c.region.damping := by
  induction h with
  | start _ => exact le_rfl
  | next hc hstep _ =>
      obtain ⟨a, p, i, result, hattempt, hlast, hregion⟩ := exists_attempt_of_next hc hstep
      rw [hregion]
      exact damping_nonneg_of_step (hattempt.isDampedStep hoptions).damping_nonneg hlast

namespace Attempts

variable (h : s.Attempts tall trials x c a p i)

include h

theorem damping_nonneg : 0 ≤ p.region.damping := by
  obtain ⟨j, j', hc, ha, hp⟩ := h.run
  cases hp with
  | first =>
      change 0 ≤ (s.rescale (s.modelAt tall c a) c).region.damping
      unfold rescale
      split
      · exact le_rfl
      · exact damping_nonneg_of_visits hoptions hc
  | next hp hstep =>
      have hbefore : s.Attempts tall trials x c a _ _ := ⟨h.gradient, h.limit, j, j', hc, ha, hp⟩
      exact damping_nonneg_of_step (hbefore.isDampedStep hoptions).damping_nonneg hstep

/-- Steps are tried only where the residuals do not vanish. -/
theorem norm_ne_zero : p.point.norm ≠ 0 := by
  have hgtol : 0 ≤ s.options.gtol := Options.isTolerance_iff.1 hoptions.gtol
  obtain ⟨v, hpoint⟩ := h.point_eq
  obtain ⟨w, hrescaled⟩ := rescale_point (s := s) (s.modelAt tall c a) c
  intro hzero
  rw [hpoint] at hzero
  -- the cosine with residuals that vanish counts as zero, which no tolerance is below
  have hgradient := h.gradient
  rw [cosineAt, hrescaled, Linearization.gradientCosine, if_pos (beq_iff_eq.2 hzero)] at hgradient
  exact hgradient.not_ge hgtol

/-- The damped step of an attempt does not divide by zero, and neither does keeping it inside the
limits. -/
theorem zero_notMem_proposeDivisors
    (hlower : ∀ e : Fin k, ∀ l ∈ s.limits.lower[e], l ≤ c.point.free[e])
    (hupper : ∀ e : Fin k, ∀ u ∈ s.limits.upper[e], c.point.free[e] ≤ u)
    (hcap : ∀ e : Fin k, ∀ cap ∈ s.limits.maxStep[e], 0 < cap) :
    0 ∉ s.proposeDivisors (s.modelAt tall c a) (s.scaleAt tall c a) p := by
  obtain ⟨v, hpoint⟩ := h.point_eq
  rw [proposeDivisors, List.mem_append, not_or, hpoint]
  refine ⟨?_, StepLimits.zero_notMem_restrictDivisors hlower hupper hcap⟩
  exact StepModel.zero_notMem_dampedStepDivisors (Linearization.distinct_ofJacobian _ _ _ _)
    (h.scale_pos hoptions) (h.steady hoptions).radius_pos _

end Attempts

/-- A search does not divide by zero from within the limits, with positive caps. -/
theorem not_divides_zero
    (hrules : ∀ e : Fin k, ∀ cap ∈ s.rules[e].maxStep, 0 < cap)
    (hcap : ∀ e : Fin k, ∀ cap ∈ s.limits.maxStep[e], 0 < cap)
    (hwithin : ∀ c j, s.Visits tall trials x c j → ∀ e : Fin k,
      (∀ l ∈ s.limits.lower[e], l ≤ c.point.free[e]) ∧
        ∀ u ∈ s.limits.upper[e], c.point.free[e] ≤ u) :
    ¬ s.Divides tall trials x 0 := by
  intro h
  cases h with
  | jacobian _ hd =>
      revert hd
      unfold jacobianDivisors
      cases s.mode with
      | analytic => exact List.not_mem_nil
      | finiteDifference =>
          exact zero_notMem_differenceDivisors hrules s.options.differenceScale_pos
  | model _ _ hd => exact PivotedQR.zero_notMem_factorDivisors _ _ hd
  | propose hp hd =>
      obtain ⟨j, j', hc, -, -⟩ := hp.run
      exact hp.zero_notMem_proposeDivisors hoptions (fun e => (hwithin _ _ hc e).1)
        (fun e => (hwithin _ _ hc e).2) hcap hd
  | judge hp _ hd => exact zero_notMem_judgeDivisors (hp.norm_ne_zero hoptions) _ _ hd
  | covariance _ _ hd =>
      exact zero_notMem_covarianceDivisors _ (Options.isTolerance_iff.1 hoptions.rankTolerance) hd

end Options

/-! ### With other quotients -/

section Dividing

variable (hq : IsQuotient q)

include hq

theorem residualsAt_dividing (s : Setting ℝ n m k) (purpose : Purpose) (x : Vector ℝ n) :
    @residualsAt ℝ (dividing q).toScalar n m k s purpose x = s.residualsAt purpose x := by
  have hdampen : @dampen ℝ (dividing q).toScalar n m k s = s.dampen := by
    funext r
    refine ite_congr rfl (fun hdamp => ?_) fun _ => rfl
    exact congrArg Real.tanh (hq.div_eq r hdamp.ne')
  unfold residualsAt
  rw [hdampen]
  rfl

theorem jacobianAt_dividing {fx : Vector ℝ m} (h : 0 ∉ s.jacobianDivisors x) :
    @jacobianAt ℝ (dividing q).toScalar n m k s x fx = s.jacobianAt x fx := by
  unfold jacobianDivisors at h
  unfold jacobianAt
  cases hmode : s.mode with
  | analytic => rfl
  | finiteDifference =>
      rw [hmode] at h
      have hprobe : @residualsAt ℝ (dividing q).toScalar n m k s .probe = s.residualsAt .probe :=
        funext (residualsAt_dividing hq s .probe)
      dsimp only
      rw [hprobe, ← differenceJacobian_dividing hq h]
      rfl

theorem ofJacobian_dividing {point : Iterate ℝ n m k} (h : 0 ∉ s.modelDivisors tall point a) :
    @Linearization.ofJacobian ℝ n m k (dividing q) s.limits point a tall =
      .ofJacobian s.limits point a tall := by
  have hfactor := PivotedQR.factor_dividing hq h
  have hreflect : ∀ (qr : PivotedQR ℝ m k) (b : Vector ℝ m),
      @PivotedQR.project ℝ m k (dividing q).toScalar qr b = qr.project b := by
    intro qr b
    refine congrArg (fun image => Vector.ofFn fun e => image[e.castLE qr.tall])
      (List.foldl_ext _ _ _ fun b e _ => ?_)
    exact reflect_dividing hq _ _ _
  unfold Linearization.ofJacobian
  dsimp only
  rw [← hfactor, hreflect]
  rfl

theorem gradientCosine_dividing (l : Linearization ℝ m k) (norm : ℝ) :
    @Linearization.gradientCosine ℝ m k (dividing q).toScalar l norm = l.gradientCosine norm := by
  refine ite_congr rfl (fun _ => rfl) fun hnorm => List.foldl_ext _ _ _ fun largest j _ => ?_
  refine ite_congr rfl (fun hcolumn => congrArg (max largest) ?_) fun _ => rfl
  unfold Linearization.cosineAt
  simp only [hq.div_eq _ (show norm ≠ 0 by simpa using hnorm)]
  exact congrArg abs (hq.div_eq _ (by simpa using hcolumn))

section Steps

variable {l : Linearization ℝ m k} {scale : Vector ℝ k} {cosine : ℝ}

theorem tryStep_dividing (hpropose : 0 ∉ s.proposeDivisors l scale p)
    (hjudge : ∀ r i', (s.residualsAt .trial (s.withFree p.point.x
        (s.propose l scale p).move.target)).resume i = (.ok r, i') →
      0 ∉ s.judgeDivisors l p.point (s.propose l scale p) r) :
    (@tryStep ℝ (dividing q) n m k s l scale cosine p).resume i =
      (s.tryStep l scale cosine p).resume i := by
  unfold tryStep
  dsimp only
  rw [propose_dividing hq hpropose, residualsAt_dividing hq]
  refine Run.resume_bind_congr rfl fun _ i₁ hrequire => ?_
  obtain ⟨-, rfl⟩ := Run.require_ok.1 hrequire
  refine Run.resume_bind_congr rfl fun r i₂ hr => ?_
  rw [← judge_dividing hq (hjudge r i₂ hr)]
  rfl

omit hq in
theorem tryUntilAccepted_dividing {p₀ : Progress ℝ n m k}
    (h : ∀ p i, s.Tries l scale cosine p₀ j p i →
      (@tryStep ℝ (dividing q) n m k s l scale cosine p).resume i =
        (s.tryStep l scale cosine p).resume i) (hp : s.Tries l scale cosine p₀ j p i) :
    (@tryUntilAccepted ℝ (dividing q) n m k s l scale cosine trials p).resume i =
      (s.tryUntilAccepted l scale cosine trials p).resume i := by
  induction trials generalizing p i with
  | zero => rfl
  | succ trials ih =>
      refine Run.resume_bind_congr (h p i hp) fun result i' hresult => ?_
      by_cases hend : (result.accepted || !result.status.isEmpty) = true
      · rw [if_pos hend, if_pos hend]
      · rw [if_neg hend, if_neg hend]
        simp only [Bool.or_eq_true, Bool.not_eq_true', not_or, Bool.not_eq_true,
          Bool.not_eq_false] at hend
        exact ih (hp.next hresult hend.1 hend.2)

theorem advance_dividing {c : Checkpoint ℝ n m k}
    (h : s.options.gtol < l.gradientCosine c.point.norm → s.options.maxIterations ≠ 0 →
      (@tryUntilAccepted ℝ (dividing q) n m k s l (s.stepScale l c.scale)
        (l.gradientCosine c.point.norm) trials ⟨c.point, c.region, l.r⟩).resume j =
      (s.tryUntilAccepted l (s.stepScale l c.scale) (l.gradientCosine c.point.norm) trials
        ⟨c.point, c.region, l.r⟩).resume j) :
    (@advance ℝ (dividing q) n m k s l trials c).resume j = (s.advance l trials c).resume j := by
  have hstatus : @Options.gradientStatus ℝ (dividing q).toScalar s.options =
      s.options.gradientStatus := rfl
  unfold advance
  dsimp only
  rw [gradientCosine_dividing hq, hstatus]
  by_cases hgradient : (!(s.options.gradientStatus (l.gradientCosine c.point.norm)).isEmpty) = true
  · rw [if_pos hgradient, if_pos hgradient]
  · rw [if_neg hgradient, if_neg hgradient]
    by_cases hlimit : s.options.maxIterations = 0
    · rw [if_pos hlimit, if_pos hlimit]
    · rw [if_neg hlimit, if_neg hlimit]
      have hlt : s.options.gtol < l.gradientCosine c.point.norm :=
        Options.isEmpty_gradientStatus_iff_lt.1 (by simpa using hgradient)
      refine Run.resume_bind_congr (h hlt hlimit) fun result i' _ => ?_
      rfl

end Steps

variable (h : ¬ s.Divides tall trials x 0)

include h

theorem iteration_dividing (hc : s.Visits tall trials x c j) :
    (@iteration ℝ (dividing q) n m k s tall trials c).resume j =
      (s.iteration tall trials c).resume j := by
  unfold iteration
  rw [jacobianAt_dividing hq fun hd => h (.jacobian hc hd)]
  refine Run.resume_bind_congr rfl fun a j' ha => ?_
  rw [ofJacobian_dividing hq fun hd => h (.model hc ha hd)]
  refine advance_dividing hq fun hgradient hlimit => tryUntilAccepted_dividing (fun p i hp => ?_) .first
  have hattempt : s.Attempts tall trials x c a p i := ⟨hgradient, hlimit, j, j', hc, ha, hp⟩
  exact tryStep_dividing hq (fun hd => h (.propose hattempt hd))
    fun r i' hr hd => h (.judge hattempt hr hd)

theorem iterate_dividing (iterations : ℕ) (hc : s.Visits tall trials x c j) :
    (@iterate ℝ (dividing q) n m k s tall trials iterations c).resume j =
      (s.iterate tall trials iterations c).resume j := by
  induction iterations generalizing c j with
  | zero => rfl
  | succ iterations ih =>
      refine Run.resume_bind_congr (iteration_dividing hq h hc) fun outcome j' houtcome => ?_
      cases outcome with
      | inl finish => rfl
      | inr next => exact ih (hc.next houtcome)

/-- A search that does not divide by zero is the same with all quotients that are what they should
be. -/
theorem search_dividing (names : Vector (Option String) n) :
    (@search ℝ (dividing q) n m k s tall trials names x).resume .empty =
      (s.search tall trials names x).resume .empty := by
  have hstart : @startAt ℝ (dividing q) n m k s x = s.startAt x := by
    unfold startAt
    dsimp only
    rw [residualsAt_dividing hq]
    rfl
  unfold search
  rw [hstart]
  refine Run.resume_bind_congr rfl fun p j hp => ?_
  refine Run.resume_bind_congr (iterate_dividing hq h _ (.start hp)) fun f j' hf => ?_
  obtain ⟨c, i, hc, hlast⟩ := iterate_ok (.start hp) hf
  have hcovariance : @covarianceAt ℝ (dividing q) n m k s f = s.covarianceAt f := by
    unfold covarianceAt
    rw [covariance_dividing hq fun hd => h (.covariance hc hlast hd)]
    rfl
  unfold conclude logFinish solutionOf
  rw [← hcovariance]
  rfl

end Dividing

end Setting

/-! ### A whole fit -/

section Fit

variable {store : Store ℝ} {function : ResidualFunction ℝ} {options : Options ℝ}
  {initial : Option (Array ℝ)} {start : Start store function} {trials : ℕ}

theorem limits_of_visits {c : Checkpoint ℝ store.size function.count store.free.size}
    {j : Journal ℝ store.size} (hstart : prepare store function options initial = .ok start)
    (hc : (Setting.ofStore store function options start.mode).Visits start.tall trials start.x c j)
    (e : Fin store.free.size) :
    (∀ l ∈ (Setting.ofStore store function options start.mode).limits.lower[e],
      l ≤ c.point.free[e]) ∧
    ∀ u ∈ (Setting.ofStore store function options start.mode).limits.upper[e],
      c.point.free[e] ≤ u := by
  obtain ⟨-, hwithin⟩ := constraints_of_visits hstart hc
  exact Store.limits_of_within hwithin (Store.free_eq_of_visits hc e)

/-- In exact arithmetic no fit divides by zero, for every residual function, if the caps on steps
that are set are positive. Whenever a damped step is computed the radius and the scale are positive
and the damping is not negative. So a fit gives the same result whatever becomes of a quotient by
zero. -/
theorem fit_never_divides_by_zero (store : Store ℝ) (function : ResidualFunction ℝ)
    (options : Options ℝ) (initial : Option (Array ℝ)) {start : Start store function}
    (hstart : prepare store function options initial = .ok start)
    (hcap : ∀ i, ∀ cap ∈ (store.get i).maxStep, 0 < cap) (trials : ℕ) :
    let s := Setting.ofStore store function options start.mode
    (∀ c a p i, s.Attempts start.tall trials start.x c a p i →
      0 < p.region.radius ∧ 0 ≤ p.region.damping ∧
        ∀ e : Fin store.free.size, 0 < (s.scaleAt start.tall c a)[e]) ∧
    ¬ s.Divides start.tall trials start.x 0 ∧
    ∀ q, IsQuotient q →
      @minimizeWithin ℝ (dividing q) trials store function options initial =
        minimizeWithin trials store function options initial := by
  intro s
  obtain ⟨hvalid, hx, hcheck, hscale, hmode⟩ := prepare_ok hstart
  have hoptions : s.options.InRange := Options.validate_ok.1 hvalid
  have hrules : ∀ e : Fin store.free.size, ∀ cap ∈ s.rules[e].maxStep, 0 < cap := by
    intro e cap hmem
    rw [Store.rules_ofStore] at hmem
    exact hcap _ cap hmem
  have hcaps : ∀ e : Fin store.free.size, ∀ cap ∈ s.limits.maxStep[e], 0 < cap := by
    intro e cap hmem
    rw [Store.maxStep_ofStore] at hmem
    exact hcap _ cap hmem
  have hdivides : ¬ s.Divides start.tall trials start.x 0 :=
    Setting.not_divides_zero hoptions hrules hcaps fun _ _ hc => limits_of_visits hstart hc
  refine ⟨fun c a p i h => ?_, hdivides, fun q hq => ?_⟩
  · exact ⟨(h.steady hoptions).radius_pos, h.damping_nonneg hoptions, h.scale_pos hoptions⟩
  · have hfree : store.free.size ≠ 0 := free_ne_zero_of_prepare hstart
    have hprepare := @prepare_eq_ok ℝ (dividing q).toScalar store function options initial start.x
      start.mode hvalid hx hcheck hfree start.tall hscale hmode
    unfold minimizeWithin
    rw [hprepare, hstart]
    exact Setting.search_dividing hq hdivides store.names

end Fit

noncomputable abbrev cappedStore : Store ℝ := ⟨#[{ Parameter.ofValue 1 with maxStep := some 1 }]⟩

/-- A fit of that parameter in which no step is accepted, and its result where every quotient by zero
is one. -/
theorem fit_never_divides_by_zero_capped :
    ¬ (Setting.ofStore cappedStore misleading .default .analytic).Divides (by decide) 5 #v[1] 0 ∧
      @minimizeWithin ℝ (dividing fun x d => if d = 0 then 1 else x / d) 5 cappedStore misleading
          .default (some #[1]) =
        minimizeWithin 5 cappedStore misleading .default (some #[1]) := by
  have hwithin : Store.Within cappedStore #v[1] := by
    rw [Store.within_iff]
    intro i _
    simp [Store.get, Parameter.ofValue]
  have hstart : prepare cappedStore misleading .default (some #[1]) =
      .ok ⟨.analytic, #v[1], by decide⟩ :=
    prepare_default rfl rfl hwithin (by decide) (by decide)
  have hcap : ∀ i, ∀ cap ∈ (cappedStore.get i).maxStep, 0 < cap := by
    refine Fin.forall_fin_one.2 fun cap hmem => ?_
    cases hmem
    exact one_pos
  obtain ⟨-, hdivides, hquotient⟩ :=
    fit_never_divides_by_zero cappedStore misleading .default (some #[1]) hstart hcap 5
  exact ⟨hdivides, hquotient _ fun x d hd => if_neg hd⟩

end LeastSquares
