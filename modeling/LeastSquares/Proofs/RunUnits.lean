import LeastSquares.Proofs.ModelUnits
import LeastSquares.Proofs.Trials

/-!
A whole search in different units. When the evaluations, the limits and the ties of a second setting
are those of a first one, converted, its search mirrors the first: each trial step has the same
damping, gain ratio and verdict, each iteration the same cosine, and each test the same answer. It
is shown for one trial step what it does to converted progress, and then carried through the two
loops, along with what both searches have visited. Two things are asked of the searches beside: that
the first iteration finds lengths to measure the parameters and their columns with, and that the
smallest normal number bounds no length.
-/

namespace LeastSquares

variable {n m k : ℕ}

/-! ### What is converted -/

structure Setting.Converts (v : Conversion n m k) (s s' : Setting ℝ n m k) : Prop where
  options : s'.options = s.options
  mode : s'.mode = s.mode
  chosenScale : s.options.scale = none ∨ v.factor = 1 ∧ s'.free = s.free ∧ ∀ c, v.unit c = 1
  residualsAt : ∀ purpose x j, Run.Mirrors v (fun r r' => r' = v.residuals r)
    (s.residualsAt purpose x) (s'.residualsAt purpose (v.point x)) j
  jacobianAt : ∀ x fx j, Run.Mirrors v (fun a a' => a' = v.jacobian a)
    (s.jacobianAt x fx) (s'.jacobianAt (v.point x) (v.residuals fx)) j
  applyTies : ∀ x, s'.applyTies (v.point x) = v.point (s.applyTies x)
  freePart : ∀ x, s'.freePart (v.point x) = v.free (s.freePart x)
  withFree : ∀ x t, s'.withFree (v.point x) (v.free t) = v.point (s.withFree x t)
  move : ∀ x step, s'.move (v.free x) (v.free step) = v.move (s.move x step)
  outward : ∀ x a f c, s'.limits.pointsOutward (v.free x) (v.jacobian a) (v.residuals f) c =
    s.limits.pointsOutward x a f c
  pegged : ∀ x c, s'.limits.isPegged (v.free x) c = s.limits.isPegged x c

structure Checkpoint.Converts (v : Conversion n m k) (c c' : Checkpoint ℝ n m k) : Prop where
  point : c'.point = v.iterate c.point
  /-- The first iteration does not look at the rest. -/
  rest : c.point.iterations = 0 ∨ c'.scale = v.scale c.scale ∧ c'.region = v.region c.region

structure Progress.Converts (v : Conversion n m k) (l l' : Linearization ℝ m k)
    (q q' : Progress ℝ n m k) : Prop where
  point : q'.point = v.iterate q.point
  region : q'.region = v.region q.region
  workspace : q.workspace.SameUpper l.r
  workspace' : q'.workspace.SameUpper l'.r

structure Proposal.Converts (v : Conversion n m k) (l l' : Linearization ℝ m k)
    (t t' : Proposal ℝ k) : Prop where
  move : t'.move = v.move t.move
  length : t'.length = v.factor * t.length
  region : t'.region = v.region t.region
  workspace : t.damped.workspace.SameUpper l.r
  workspace' : t'.damped.workspace.SameUpper l'.r

structure TrialResult.Converts (v : Conversion n m k) (l l' : Linearization ℝ m k)
    (result result' : TrialResult ℝ n m k) : Prop where
  progress : result.progress.Converts v l l' result'.progress
  accepted : result'.accepted = result.accepted
  status : result'.status = result.status

structure Finish.Converts (v : Conversion n m k) (s s' : Setting ℝ n m k) (tall : k ≤ m)
    (f f' : Finish ℝ n m k) : Prop where
  point : f'.point = v.iterate f.point
  status : f'.status = f.status
  model : ∃ (p : Iterate ℝ n m k) (a : Mat ℝ m k), f.model = .ofJacobian s.limits p a tall ∧
    f'.model = .ofJacobian s'.limits (v.iterate p) (v.jacobian a) tall
  workspace : f.workspace.SameUpper f.model.r
  workspace' : f'.workspace.SameUpper f'.model.r

/-- How converted iterations end: both searches do, or both go on. -/
inductive Setting.Corresponds (v : Conversion n m k) (s s' : Setting ℝ n m k) (tall : k ≤ m) :
    Finish ℝ n m k ⊕ Checkpoint ℝ n m k → Finish ℝ n m k ⊕ Checkpoint ℝ n m k → Prop
  | finish {f f' : Finish ℝ n m k} :
      f.Converts v s s' tall f' → Corresponds v s s' tall (.inl f) (.inl f')
  | next {c c' : Checkpoint ℝ n m k} : c.Converts v c' → Corresponds v s s' tall (.inr c) (.inr c')

noncomputable def Conversion.verdict (v : Conversion n m k) (w : Verdict ℝ) : Verdict ℝ :=
  { w with norm := v.factor * w.norm, region := v.region w.region }

/-! ### One trial step -/

namespace Conversion

variable (v : Conversion n m k)

theorem actualReduction_mul (before after : ℝ) :
    TrustRegion.actualReduction (v.factor * before) (v.factor * after) =
      TrustRegion.actualReduction before after := by
  have hγ := v.factor_pos
  have hgrew : 0.1 * (v.factor * after) < v.factor * before ↔ 0.1 * after < before := by
    rw [mul_left_comm, mul_lt_mul_iff_right₀ hγ]
  simp only [TrustRegion.actualReduction, hgrew, mul_div_mul_left _ _ hγ.ne']

theorem update_region (t : TrustRegion ℝ) (ratio actual slope norm trialNorm length : ℝ) :
    (v.region t).update
        ⟨ratio, actual, slope, v.factor * norm, v.factor * trialNorm, v.factor * length⟩ =
      v.region (t.update ⟨ratio, actual, slope, norm, trialNorm, length⟩) := by
  have hγ := v.factor_pos
  have hshrinkage : TrustRegion.shrinkage
      ⟨ratio, actual, slope, v.factor * norm, v.factor * trialNorm, v.factor * length⟩ =
        TrustRegion.shrinkage ⟨ratio, actual, slope, norm, trialNorm, length⟩ := by
    have hnorm : v.factor * norm ≤ 0.1 * (v.factor * trialNorm) ↔ norm ≤ 0.1 * trialNorm := by
      rw [mul_left_comm, mul_le_mul_iff_right₀ hγ]
    simp only [TrustRegion.shrinkage, hnorm]
  have hmin : min (v.factor * t.radius) (v.factor * length / 0.1) =
      v.factor * min t.radius (length / 0.1) := by
    rw [mul_div_assoc, mul_min_of_nonneg _ _ hγ.le]
  have hdamping : (v.region t).damping = t.damping := rfl
  unfold TrustRegion.update
  rw [hshrinkage, hdamping]
  split_ifs
  · change (⟨_ * min _ _, _⟩ : TrustRegion ℝ) = ⟨v.factor * (_ * min _ _), _⟩
    exact congrArg₂ _ ((congrArg _ hmin).trans (mul_left_comm _ _ _)) rfl
  · exact congrArg₂ _ (mul_div_assoc _ _ _) rfl
  · rfl

theorem regionFor_iterate (q : Progress ℝ n m k) (w : Mat ℝ k k) (damping length : ℝ) :
    (⟨v.iterate q.point, v.region q.region, w⟩ : Progress ℝ n m k).regionFor damping
        (v.factor * length) = v.region (q.regionFor damping length) := by
  have hiterations : (v.iterate q.point).iterations = q.point.iterations := rfl
  unfold Progress.regionFor
  dsimp only
  rw [hiterations]
  split_ifs
  · exact congrArg₂ _ (mul_min_of_nonneg _ _ v.factor_pos.le).symm rfl
  · rfl

theorem changeWithin_mul (t : StepStatistics ℝ) (tolerance : ℝ) :
    ({ t with radius := v.factor * t.radius, norm := v.factor * t.norm } :
        StepStatistics ℝ).changeWithin tolerance = t.changeWithin tolerance := by
  simp only [StepStatistics.changeWithin, mul_left_comm tolerance,
    mul_le_mul_iff_right₀ v.factor_pos]

end Conversion

namespace Setting

variable {v : Conversion n m k} {s s' : Setting ℝ n m k} (h : s.Converts v s')

theorem scaledNorm_convert (v : Conversion n m k) (s s' : Setting ℝ n m k) (scale x : Vector ℝ k) :
    s'.scaledNorm (v.scale scale) (v.free x) = v.factor * s.scaledNorm scale x := by
  rw [scaledNorm, scaledNorm, normOf_eq, normOf_eq, v.euclid_scaleBy]

namespace Converts

include h

theorem accept_eq (p : Iterate ℝ n m k) (scale target : Vector ℝ k) (r : Vector ℝ m) :
    s'.accept (v.iterate p) (v.scale scale) (v.free target) (v.residuals r) =
      v.iterate (s.accept p scale target r) := by
  simp only [accept, Conversion.iterate, h.withFree, h.applyTies, scaledNorm_convert v s s',
    normOf_eq, v.euclid_residuals]

theorem pointAfter_eq (p : Iterate ℝ n m k) (scale : Vector ℝ k) {t t' : Proposal ℝ k}
    (ht : t'.move = v.move t.move) (r : Vector ℝ m) (w : Verdict ℝ) :
    s'.pointAfter (v.iterate p) (v.scale scale) t' (v.residuals r) (v.verdict w) =
      v.iterate (s.pointAfter p scale t r w) := by
  have haccepted : (v.verdict w).accepted = w.accepted := rfl
  rw [pointAfter, pointAfter, haccepted, ht]
  split
  · exact h.accept_eq p scale t.move.target r
  · rfl

theorem stepStatus_eq (w : Verdict ℝ) (norm cosine : ℝ) (iterations evaluations : ℕ) :
    s'.options.stepStatus ((v.verdict w).statistics (v.factor * norm) cosine) iterations
        evaluations =
      s.options.stepStatus (w.statistics norm cosine) iterations evaluations := by
  have hchange := v.changeWithin_mul (w.statistics norm cosine)
  have hstatistics : (v.verdict w).statistics (v.factor * norm) cosine =
      { w.statistics norm cosine with
        radius := v.factor * (w.statistics norm cosine).radius
        norm := v.factor * (w.statistics norm cosine).norm } := rfl
  rw [h.options, hstatistics, Options.stepStatus, Options.stepStatus]
  simp only [hchange]
  rfl

section Models

variable {p : Iterate ℝ n m k} {a : Mat ℝ m k} {tall : k ≤ m} {l l' : Linearization ℝ m k}
  (hl : l = .ofJacobian s.limits p a tall)
  (hl' : l' = .ofJacobian s'.limits (v.iterate p) (v.jacobian a) tall)
  {scale : Vector ℝ k} {q q' : Progress ℝ n m k} (hq : q.Converts v l l' q')

include hl hl' hq

theorem propose_converts
    (hregular : (∀ c, v.unit c = 1) ∨
      ∀ w, (Linearization.masked s.limits p a).toMatrix.mulVec w = 0 → w = 0)
    (hscale : ∀ e : Fin k, 0 < scale[e]) (hradius : 0 < q.region.radius)
    (hidle : StepModel.Idle v.factor
      ((l.stepModel scale).dampedStepLengths q.workspace q.region.radius q.region.damping)
      ((l'.stepModel (v.scale scale)).dampedStepLengths q'.workspace q'.region.radius
        q'.region.damping)) :
    (s.propose l scale q).Converts v l l' (s'.propose l' (v.scale scale) q') := by
  have hmodel := Linearization.converts_stepModel
    (fun c => h.outward p.free a p.residuals c) tall hregular scale
  rw [← hl, ← hl'] at hmodel
  have hradius' : q'.region.radius = v.factor * q.region.radius := by
    rw [hq.region]
    rfl
  have hdamping' : q'.region.damping = q.region.damping := by
    rw [hq.region]
    rfl
  rw [hradius', hdamping'] at hidle
  obtain ⟨hdamping, hx⟩ := (hmodel.congr hq.workspace hq.workspace').dampedStep_alike hscale
    hradius q.region.damping hidle
  have hfree : ((l'.stepModel (v.scale scale)).dampedStep q'.workspace q'.region.radius
      q'.region.damping).x =
        v.free ((l.stepModel scale).dampedStep q.workspace q.region.radius q.region.damping).x := by
    refine ext_getElem fun e => ?_
    rw [hradius', hdamping', v.getElem_free]
    exact hx e
  have hmove : (s'.propose l' (v.scale scale) q').move = v.move (s.propose l scale q).move := by
    simp only [propose]
    rw [hq.point, hfree]
    exact h.move _ _
  have hlength : (s'.propose l' (v.scale scale) q').length =
      v.factor * (s.propose l scale q).length := by
    change s'.scaledNorm (v.scale scale) (s'.propose l' (v.scale scale) q').move.step = _
    rw [hmove]
    exact scaledNorm_convert v s s' scale _
  refine ⟨hmove, hlength, ?_, ?_, ?_⟩
  · change q'.regionFor ((l'.stepModel (v.scale scale)).dampedStep q'.workspace q'.region.radius
      q'.region.damping).damping (s'.propose l' (v.scale scale) q').length = _
    rw [hlength, hradius', hdamping', hdamping]
    obtain ⟨point, region, workspace⟩ := q'
    obtain rfl : point = v.iterate q.point := hq.point
    obtain rfl : region = v.region q.region := hq.region
    exact v.regionFor_iterate q workspace _ _
  · exact (StepModel.sameUpper_dampedStep _ _ _ _).trans hq.workspace
  · exact (StepModel.sameUpper_dampedStep _ _ _ _).trans hq.workspace'

omit hq in
theorem judge_eq {t t' : Proposal ℝ k} (ht : t.Converts v l l' t') (point : Iterate ℝ n m k)
    (r : Vector ℝ m) :
    s'.judge l' (v.iterate point) t' (v.residuals r) = v.verdict (s.judge l point t r) := by
  have hγ := v.factor_pos.ne'
  have hpart : t'.move.part = t.move.part := by
    rw [ht.move]
    rfl
  have hstep : t'.move.step = v.free t.move.step := by
    rw [ht.move]
    rfl
  have himage : s'.normOf (l'.image t'.damped.workspace t'.move.step) =
      v.factor * s.normOf (l.image t.damped.workspace t.move.step) := by
    have hworkspace := ht.workspace
    have hworkspace' := ht.workspace'
    rw [hl] at hworkspace
    rw [hl'] at hworkspace'
    rw [normOf_eq, normOf_eq, hstep, hl, hl']
    exact Linearization.euclid_image_convert (fun c => h.outward p.free a p.residuals c) hworkspace
      hworkspace' t.move.step
  have hpredict : ∀ part, s'.predict (v.factor * point.norm) (v.region t.region).damping part
      (v.factor * t.length) (l'.image t'.damped.workspace t'.move.step) =
        s.predict point.norm t.region.damping part t.length
          (l.image t.damped.workspace t.move.step) := by
    intro part
    have hdamping : (v.region t.region).damping = t.region.damping := rfl
    simp only [predict, himage, hdamping, mul_div_mul_left _ _ hγ, mul_left_comm (Scalar.sqrt _)]
  simp only [judge, Conversion.verdict, Conversion.iterate, normOf_eq, v.euclid_residuals, hpart,
    hpredict, v.actualReduction_mul, ht.region, ht.length, v.update_region]

end Models

omit h in
theorem logTrial_mirrors (w : Verdict ℝ) (next : Iterate ℝ n m k) (cosine : ℝ) (j : Journal ℝ n) :
    Run.Mirrors v (fun _ _ => True) (w.logTrial next cosine)
      ((v.verdict w).logTrial (v.iterate next) cosine) j := by
  refine .bind (.log (.trial w.norm w.ratio w.part w.region.radius w.region.damping))
    fun _ _ _ _ _ _ => ?_
  have haccepted : (v.verdict w).accepted = w.accepted := rfl
  rw [haccepted]
  split
  · refine .bind .evaluations fun b b' _ _ _ hb => ?_
    have hsquare : (v.iterate next).norm * (v.iterate next).norm =
        v.factor ^ 2 * (next.norm * next.norm) := by
      change v.factor * next.norm * (v.factor * next.norm) = _
      ring
    rw [← hb, hsquare]
    exact .log (.accepted next.iterations (next.norm * next.norm) cosine b)
  · exact .pure trivial

theorem tryStep_mirrors {p : Iterate ℝ n m k} {a : Mat ℝ m k} {tall : k ≤ m}
    {l l' : Linearization ℝ m k} (hl : l = .ofJacobian s.limits p a tall)
    (hl' : l' = .ofJacobian s'.limits (v.iterate p) (v.jacobian a) tall) {scale : Vector ℝ k}
    {q q' : Progress ℝ n m k} (hq : q.Converts v l l' q')
    (ht : (s.propose l scale q).Converts v l l' (s'.propose l' (v.scale scale) q')) (cosine : ℝ)
    (j : Journal ℝ n) :
    Run.Mirrors v (TrialResult.Converts v l l') (s.tryStep l scale cosine q)
      (s'.tryStep l' (v.scale scale) cosine q') j := by
  refine .bind (.require (all_isFinite _) (all_isFinite _)) fun _ _ i _ _ _ => ?_
  have htarget : (s'.propose l' (v.scale scale) q').move.target =
      v.free (s.propose l scale q).move.target := by
    rw [ht.move]
    rfl
  have hx : s'.withFree q'.point.x (s'.propose l' (v.scale scale) q').move.target =
      v.point (s.withFree q.point.x (s.propose l scale q).move.target) := by
    rw [htarget, hq.point]
    exact h.withFree _ _
  rw [hx]
  refine .bind (h.residualsAt .trial _ i) fun r r' i' _ _ hr => ?_
  subst hr
  have hverdict := h.judge_eq hl hl' ht q.point r
  have hpoint := h.pointAfter_eq q.point scale ht.move r (s.judge l q.point (s.propose l scale q) r)
  simp only [hq.point, hverdict, hpoint]
  refine .bind (logTrial_mirrors _ _ cosine i') fun _ _ i'' _ _ _ => ?_
  refine .bind .evaluations fun b b' _ _ _ hb => .pure ?_
  subst hb
  refine ⟨⟨rfl, rfl, ht.workspace, ht.workspace'⟩, rfl, ?_⟩
  exact h.stepStatus_eq _ _ cosine _ b

/-- The steps of an iteration mirror each other, where every step that is proposed does. -/
theorem tryUntilAccepted_mirrors {p : Iterate ℝ n m k} {a : Mat ℝ m k} {tall : k ≤ m}
    {l l' : Linearization ℝ m k} (hl : l = .ofJacobian s.limits p a tall)
    (hl' : l' = .ofJacobian s'.limits (v.iterate p) (v.jacobian a) tall) {scale : Vector ℝ k}
    {cosine : ℝ} {start start' : Progress ℝ n m k} {j₀ : Journal ℝ n}
    (hpropose : ∀ q q' i, s.Tries l scale cosine start j₀ q i →
      s'.Tries l' (v.scale scale) cosine start' (v.journal j₀) q' (v.journal i) →
      q.Converts v l l' q' →
      (s.propose l scale q).Converts v l l' (s'.propose l' (v.scale scale) q')) (trials : ℕ)
    {q q' : Progress ℝ n m k} {i : Journal ℝ n} (hq : q.Converts v l l' q')
    (htries : s.Tries l scale cosine start j₀ q i)
    (htries' : s'.Tries l' (v.scale scale) cosine start' (v.journal j₀) q' (v.journal i)) :
    Run.Mirrors v (TrialResult.Converts v l l') (s.tryUntilAccepted l scale cosine trials q)
      (s'.tryUntilAccepted l' (v.scale scale) cosine trials q') i := by
  induction trials generalizing q q' i with
  | zero => exact .throw
  | succ trials ih =>
      refine .bind (h.tryStep_mirrors hl hl' hq (hpropose q q' i htries htries' hq) cosine i)
        fun result result' i' hresume hresume' hresult => ?_
      rw [hresult.accepted, hresult.status]
      split
      · exact .pure hresult
      · next hgoes =>
        obtain ⟨hrejected, hstatus⟩ : result.accepted = false ∧ result.status.isEmpty = true := by
          simpa using hgoes
        refine ih hresult.progress (htries.next hresume hrejected hstatus)
          (htries'.next hresume' ?_ ?_)
        · rw [hresult.accepted, hrejected]
        · rw [hresult.status, hstatus]

end Converts

/-! ### Searches that can be compared -/

/-- No step of the search from `x` divides by a length below the smallest normal number. -/
def FloorsIdle (s : Setting ℝ n m k) (tall : k ≤ m) (trials : ℕ) (x : Vector ℝ n) : Prop :=
  ∀ c a q i, s.Attempts tall trials x c a q i →
    ∀ d ∈ ((s.modelAt tall c a).stepModel (s.scaleAt tall c a)).dampedStepLengths q.workspace
      q.region.radius q.region.damping, Scalar.minNormal ≤ d

/-- What makes the searches of converted settings comparable: the first iteration finds lengths to
measure with, and the smallest normal number bounds no length, unless the units agree; and Jacobians
have full rank, unless those of the parameters do. -/
structure Comparable (v : Conversion n m k) (s s' : Setting ℝ n m k) (tall : k ≤ m) (trials : ℕ)
    (x : Vector ℝ n) : Prop where
  converts : s.Converts v s'
  inRange : s.options.InRange
  regular : (∀ c, v.unit c = 1) ∨ ∀ c j a i, s.Visits tall trials x c j →
    (s.jacobianAt c.point.x c.point.residuals).resume j = (.ok a, i) →
      ∀ w, (Linearization.masked s.limits c.point a).toMatrix.mulVec w = 0 → w = 0
  first : (v.factor = 1 ∧ ∀ c, v.unit c = 1) ∨ ∀ c j a i, s.Visits tall trials x c j →
    c.point.iterations = 0 → (s.jacobianAt c.point.x c.point.residuals).resume j = (.ok a, i) →
      (∀ e : Fin k, (s.modelAt tall c a).columnNorms[e] ≠ 0) ∧
        (v.factor = 1 ∨ s.scaledNorm (s.modelAt tall c a).initialScale c.point.free ≠ 0)
  idle : v.factor = 1 ∨
    s.FloorsIdle tall trials x ∧ s'.FloorsIdle tall trials (v.point x)

/-! ### One iteration -/

section Iteration

variable {tall : k ≤ m} {trials : ℕ} {x : Vector ℝ n} {c c' : Checkpoint ℝ n m k} {a : Mat ℝ m k}
  {j i : Journal ℝ n}

theorem Converts.modelAt_eq (hc : c'.point = v.iterate c.point) :
    s'.modelAt tall c' (v.jacobian a) =
      .ofJacobian s'.limits (v.iterate c.point) (v.jacobian a) tall := by
  rw [modelAt, hc]

theorem Converts.columnNorms_eq (h : s.Converts v s') (hc : c'.point = v.iterate c.point)
    (e : Fin k) :
    (s'.modelAt tall c' (v.jacobian a)).columnNorms[e] =
      v.factor * v.unit e * (s.modelAt tall c a).columnNorms[e] := by
  rw [modelAt_eq hc]
  exact Linearization.columnNorms_convert (fun e => h.outward c.point.free a c.point.residuals e) e

theorem Converts.stepScale_eq (h : s.Converts v s') (hc : c'.point = v.iterate c.point)
    (scale : Vector ℝ k) :
    s'.stepScale (s'.modelAt tall c' (v.jacobian a)) (v.scale scale) =
      v.scale (s.stepScale (s.modelAt tall c a) scale) := by
  rw [stepScale, stepScale, h.options]
  split
  · refine ext_getElem fun e => ?_
    have hpos : 0 ≤ v.factor * v.unit e := (mul_pos v.factor_pos (v.unit_pos e)).le
    rw [Linearization.raiseScale, Linearization.raiseScale, getElem_zipWith, v.getElem_scale,
      v.getElem_scale, getElem_zipWith, h.columnNorms_eq hc]
    exact (mul_max_of_nonneg _ _ hpos).symm
  · rfl

theorem Conversion.scale_of_unit (hfactor : v.factor = 1) (hunit : ∀ c, v.unit c = 1)
    (d : Vector ℝ k) : v.scale d = d := by
  refine ext_getElem fun e => ?_
  rw [v.getElem_scale, hfactor, hunit, one_mul, one_mul]

theorem initial_mul {factor length : ℝ} (h : v.factor = 1 ∨ length ≠ 0) :
    TrustRegion.initial factor (v.factor * length) =
      v.region (TrustRegion.initial factor length) := by
  rcases h with hfactor | hlength
  · rw [Conversion.region, hfactor, one_mul, one_mul]
  · have hproduct : v.factor * length ≠ 0 := mul_ne_zero v.factor_pos.ne' hlength
    rw [TrustRegion.initial, TrustRegion.initial, Conversion.region,
      if_neg (by simpa using hproduct), if_neg (by simpa using hlength), mul_left_comm]

section FirstIteration

variable (hcomparable : Comparable v s s' tall trials x) (hc : s.Visits tall trials x c j)
  (ha : (s.jacobianAt c.point.x c.point.residuals).resume j = (.ok a, i))
  (hfirst : c.point.iterations = 0)

include hcomparable hc ha hfirst

/-- The lengths of the columns make up the first scale, and a column without length would make both
searches fall back on one, in whatever units. -/
theorem Comparable.initialScale_eq (hcc : c.Converts v c') :
    (s'.modelAt tall c' (v.jacobian a)).initialScale = v.scale (s.modelAt tall c a).initialScale := by
  refine ext_getElem fun e => ?_
  rw [Linearization.initialScale, Linearization.initialScale, getElem_map, v.getElem_scale,
    getElem_map, hcomparable.converts.columnNorms_eq hcc.point]
  rcases hcomparable.first with ⟨hfactor, hunit⟩ | hfound
  · rw [hfactor, hunit, one_mul, one_mul, one_mul]
  · have hne := (hfound c j a i hc hfirst ha).1 e
    have hproduct := mul_ne_zero (mul_pos v.factor_pos (v.unit_pos e)).ne' hne
    rw [if_neg (by simpa using hproduct), if_neg (by simpa using hne)]

theorem Comparable.firstScale_eq (hcc : c.Converts v c') :
    s'.chosenScale.getD (s'.modelAt tall c' (v.jacobian a)).initialScale =
      v.scale (s.chosenScale.getD (s.modelAt tall c a).initialScale) := by
  have hinitial := hcomparable.initialScale_eq hc ha hfirst hcc
  rcases hcomparable.converts.chosenScale with hnone | ⟨hfactor, hfree, hunit⟩
  · rw [chosenScale, chosenScale, hcomparable.converts.options, hnone]
    exact hinitial
  · have hchosen : s'.chosenScale = s.chosenScale := by
      rw [chosenScale, chosenScale, hcomparable.converts.options, hfree]
    rw [hchosen]
    cases s.chosenScale with
    | none => exact hinitial
    | some d => exact (Conversion.scale_of_unit hfactor hunit d).symm

/-- The first radius is measured, unless the residuals keep their unit. -/
theorem Comparable.scaledNorm_ne_zero : v.factor = 1 ∨
    s.scaledNorm (s.chosenScale.getD (s.modelAt tall c a).initialScale) c.point.free ≠ 0 := by
  rcases hcomparable.first with ⟨hfactor, -⟩ | hfound
  · exact .inl hfactor
  · rcases hcomparable.converts.chosenScale with hnone | ⟨hfactor, -⟩
    · rw [chosenScale, hnone]
      exact (hfound c j a i hc hfirst ha).2
    · exact .inl hfactor

end FirstIteration

theorem Comparable.rescale_eq (h : Comparable v s s' tall trials x)
    (hc : s.Visits tall trials x c j)
    (ha : (s.jacobianAt c.point.x c.point.residuals).resume j = (.ok a, i))
    (hcc : c.Converts v c') :
    s'.rescale (s'.modelAt tall c' (v.jacobian a)) c' =
      v.checkpoint (s.rescale (s.modelAt tall c a) c) := by
  have hiterations : c'.point.iterations = c.point.iterations := by
    rw [hcc.point]
    rfl
  unfold rescale
  rw [hiterations]
  split
  · next hfirst =>
    have hlength : s'.scaledNorm (v.scale (s.chosenScale.getD (s.modelAt tall c a).initialScale))
        c'.point.free = v.factor *
          s.scaledNorm (s.chosenScale.getD (s.modelAt tall c a).initialScale) c.point.free := by
      rw [hcc.point]
      exact scaledNorm_convert v s s' _ _
    rw [h.firstScale_eq hc ha hfirst hcc]
    dsimp only
    rw [hlength, h.converts.options, initial_mul (h.scaledNorm_ne_zero hc ha hfirst), hcc.point]
    rfl
  · next hlater =>
    -- nothing is rescaled after the first iteration, and what it has set is converted already
    obtain ⟨hscale, hregion⟩ := hcc.rest.resolve_left hlater
    obtain ⟨scale, region, point⟩ := c'
    rw [show scale = v.scale c.scale from hscale, show region = v.region c.region from hregion,
      show point = v.iterate c.point from hcc.point]
    rfl

theorem gradientCosine_eq (h : s.Converts v s') (hc : c'.point = v.iterate c.point) (norm : ℝ) :
    (s'.modelAt tall c' (v.jacobian a)).gradientCosine (v.factor * norm) =
      (s.modelAt tall c a).gradientCosine norm := by
  rw [Converts.modelAt_eq hc]
  exact Linearization.gradientCosine_convert
    (fun e => h.outward c.point.free a c.point.residuals e) norm

/-- Every step that one search proposes, the other does. -/
theorem Comparable.propose_converts (h : Comparable v s s' tall trials x)
    (hcc : c'.point = v.iterate c.point) {q q' : Progress ℝ n m k} {i' : Journal ℝ n}
    (hq : q.Converts v (s.modelAt tall c a) (s'.modelAt tall c' (v.jacobian a)) q')
    (hattempts : s.Attempts tall trials x c a q i)
    (hattempts' : s'.Attempts tall trials (v.point x) c' (v.jacobian a) q' i')
    (hscale : s'.scaleAt tall c' (v.jacobian a) = v.scale (s.scaleAt tall c a)) :
    (s.propose (s.modelAt tall c a) (s.scaleAt tall c a) q).Converts v (s.modelAt tall c a)
      (s'.modelAt tall c' (v.jacobian a))
      (s'.propose (s'.modelAt tall c' (v.jacobian a)) (v.scale (s.scaleAt tall c a)) q') := by
  refine h.converts.propose_converts (p := c.point) (a := a) rfl
    (Converts.modelAt_eq hcc) hq ?_ (hattempts.scale_pos h.inRange)
    (hattempts.steady h.inRange).radius_pos ?_
  · refine h.regular.imp_right fun hfull => ?_
    obtain ⟨j, j', hvisits, ha, -⟩ := hattempts.run
    exact hfull c j a j' hvisits ha
  · refine h.idle.imp_right fun ⟨hidle, hidle'⟩ => ⟨hidle c a q i hattempts, ?_⟩
    rw [← hscale]
    exact hidle' c' _ q' i' hattempts'

theorem advance_modelAt (s : Setting ℝ n m k) (tall : k ≤ m) (trials : ℕ) (c : Checkpoint ℝ n m k)
    (a : Mat ℝ m k) :
    s.advance (s.modelAt tall c a) trials (s.rescale (s.modelAt tall c a) c) =
      if (!(s.options.gradientStatus (s.cosineAt tall c a)).isEmpty) = true then
        pure (.inl ⟨(s.progressAt tall c a).point, s.modelAt tall c a, (s.modelAt tall c a).r,
          s.options.gradientStatus (s.cosineAt tall c a)⟩)
      else if s.options.maxIterations = 0 then
        pure (.inl ⟨(s.progressAt tall c a).point, s.modelAt tall c a, (s.modelAt tall c a).r,
          .ofReason .maxIterations⟩)
      else
        s.tryUntilAccepted (s.modelAt tall c a) (s.scaleAt tall c a) (s.cosineAt tall c a) trials
          (s.progressAt tall c a) >>= fun result =>
        if (!result.status.isEmpty) = true then
          pure (.inl ⟨result.progress.point, s.modelAt tall c a, result.progress.workspace,
            result.status⟩)
        else pure (.inr ⟨s.scaleAt tall c a, result.progress.region, result.progress.point⟩) :=
  rfl

theorem Comparable.iteration_mirrors (h : Comparable v s s' tall trials x)
    (hc : s.Visits tall trials x c j) (hc' : s'.Visits tall trials (v.point x) c' (v.journal j))
    (hcc : c.Converts v c') :
    Run.Mirrors v (Corresponds v s s' tall) (s.iteration tall trials c)
      (s'.iteration tall trials c') j := by
  have hjacobian := h.converts.jacobianAt c.point.x c.point.residuals j
  have hx : v.point c.point.x = c'.point.x := by
    rw [hcc.point]
    rfl
  have hresiduals : v.residuals c.point.residuals = c'.point.residuals := by
    rw [hcc.point]
    rfl
  rw [hx, hresiduals] at hjacobian
  refine .bind hjacobian fun a a' i ha ha' haa => ?_
  subst haa
  change Run.Mirrors v _
    (s.advance (s.modelAt tall c a) trials (s.rescale (s.modelAt tall c a) c))
    (s'.advance (s'.modelAt tall c' (v.jacobian a)) trials
      (s'.rescale (s'.modelAt tall c' (v.jacobian a)) c')) i
  have hrescale := h.rescale_eq hc ha hcc
  have hcosine : s'.cosineAt tall c' (v.jacobian a) = s.cosineAt tall c a := by
    rw [cosineAt, hrescale]
    exact gradientCosine_eq h.converts hcc.point _
  have hscale : s'.scaleAt tall c' (v.jacobian a) = v.scale (s.scaleAt tall c a) := by
    rw [scaleAt, hrescale]
    exact h.converts.stepScale_eq hcc.point _
  have hprogress : (s.progressAt tall c a).Converts v (s.modelAt tall c a)
      (s'.modelAt tall c' (v.jacobian a)) (s'.progressAt tall c' (v.jacobian a)) := by
    rw [progressAt, progressAt, hrescale]
    exact ⟨rfl, rfl, .refl _, .refl _⟩
  have hfinish : ∀ status, Run.Mirrors v (Corresponds v s s' tall)
      (Pure.pure (.inl ⟨(s.progressAt tall c a).point, s.modelAt tall c a,
        (s.modelAt tall c a).r, status⟩))
      (Pure.pure (.inl ⟨(s'.progressAt tall c' (v.jacobian a)).point,
        s'.modelAt tall c' (v.jacobian a), (s'.modelAt tall c' (v.jacobian a)).r, status⟩)) i :=
    fun status => .pure (.finish ⟨hprogress.point, rfl, ⟨c.point, a, rfl,
      Converts.modelAt_eq hcc.point⟩, .refl _, .refl _⟩)
  rw [advance_modelAt, advance_modelAt, hcosine, hscale, h.converts.options]
  split
  · exact hfinish _
  · next hgoes =>
    split
    · exact hfinish _
    · next hlimit =>
      have hgradient : s.options.gtol < s.cosineAt tall c a :=
        Options.isEmpty_gradientStatus_iff_lt.1 (by simpa using hgoes)
      have hgradient' : s'.options.gtol < s'.cosineAt tall c' (v.jacobian a) := by
        rw [hcosine, h.converts.options]
        exact hgradient
      have hlimit' : s'.options.maxIterations ≠ 0 := by rwa [h.converts.options]
      have hsteps := h.converts.tryUntilAccepted_mirrors (l := s.modelAt tall c a) rfl
        (Converts.modelAt_eq hcc.point)
        (fun q q' i' htries htries' hq => h.propose_converts hcc.point hq
          ⟨hgradient, hlimit, j, i, hc, ha, htries⟩
          ⟨hgradient', hlimit', v.journal j, v.journal i, hc', ha',
            by rw [hcosine, hscale]; exact htries'⟩ hscale)
        trials hprogress .first .first
      refine .bind hsteps fun result result' i' _ _ hresult => ?_
      rw [hresult.status]
      split
      · exact .pure (.finish ⟨hresult.progress.point, rfl, ⟨c.point, a, rfl,
          Converts.modelAt_eq hcc.point⟩, hresult.progress.workspace, hresult.progress.workspace'⟩)
      · exact .pure (.next ⟨hresult.progress.point, .inr ⟨rfl, hresult.progress.region⟩⟩)

/-! ### The whole search -/

theorem Comparable.iterate_mirrors (h : Comparable v s s' tall trials x) (iterations : ℕ)
    (hc : s.Visits tall trials x c j) (hc' : s'.Visits tall trials (v.point x) c' (v.journal j))
    (hcc : c.Converts v c') :
    Run.Mirrors v (Finish.Converts v s s' tall) (s.iterate tall trials iterations c)
      (s'.iterate tall trials iterations c') j := by
  induction iterations generalizing c c' j with
  | zero => exact .throw
  | succ iterations ih =>
      refine .bind (h.iteration_mirrors hc hc' hcc)
        fun outcome outcome' i hresume hresume' hend => ?_
      cases hend with
      | finish hf => exact .pure hf
      | next hnext => exact ih (hc.next hresume) (hc'.next hresume') hnext

theorem Converts.startAt_mirrors (h : s.Converts v s') (x : Vector ℝ n) (j : Journal ℝ n) :
    Run.Mirrors v (fun p p' => p' = v.iterate p) (s.startAt x) (s'.startAt (v.point x)) j := by
  have hlog : Run.Mirrors v (fun _ _ => True) (Run.log (.started n k m s.mode))
      (Run.log (.started n k m s'.mode)) j := by
    rw [h.mode]
    exact .log (.started n k m s.mode)
  refine .bind hlog fun _ _ i _ _ _ => ?_
  rw [h.applyTies]
  refine .bind (h.residualsAt .start _ i) fun r r' _ _ _ hr => .pure ?_
  subst hr
  simp only [Conversion.iterate, h.freePart, normOf_eq, v.euclid_residuals, mul_zero]

/-- A search up to its end, before anything is made of it. -/
def approach [NormedScalar α] {n m k : ℕ} (s : Setting α n m k) (tall : k ≤ m) (trials : ℕ)
    (x : Vector α n) : Run α n (Iterate α n m k × Finish α n m k) := do
  let p ← s.startAt x
  let finish ← s.iterate tall trials (s.options.maxIterations + 1) (s.firstCheckpoint p)
  return (p, finish)

theorem search_eq_approach [NormedScalar α] {n m k : ℕ} (s : Setting α n m k) (tall : k ≤ m)
    (trials : ℕ) (names : Vector (Option String) n) (x : Vector α n) :
    s.search tall trials names x =
      s.approach tall trials x >>= fun reached => s.conclude names reached.1.norm reached.2 := by
  simp only [search, approach, bind_assoc, pure_bind]

theorem Comparable.approach_mirrors (h : Comparable v s s' tall trials x) :
    Run.Mirrors v
      (fun e e' => e'.1 = v.iterate e.1 ∧ e.2.Converts v s s' tall e'.2)
      (s.approach tall trials x) (s'.approach tall trials (v.point x)) .empty := by
  refine .bind (h.converts.startAt_mirrors x .empty) fun p p' i hresume hresume' hp => ?_
  subst hp
  have hfirst : (s.firstCheckpoint p).Converts v (s'.firstCheckpoint (v.iterate p)) := by
    obtain ⟨r, _, -, rfl⟩ := startAt_ok hresume
    exact ⟨rfl, .inl rfl⟩
  have hempty : v.journal .empty = .empty := by simp [Conversion.journal, Journal.empty]
  rw [hempty] at hresume'
  rw [h.converts.options]
  refine .bind (h.iterate_mirrors _ (.start hresume) (.start hresume') hfirst)
    fun f f' _ _ _ hf => .pure ⟨rfl, hf⟩

end Iteration

end Setting

end LeastSquares
