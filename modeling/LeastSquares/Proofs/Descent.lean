import LeastSquares.Proofs.StepParts

/-!
A fit never makes matters worse. In exact arithmetic a step is accepted only if the residuals shrink:
the gain ratio is positive, the predicted reduction is never negative, however the step was
shortened, and so the actual one is positive. A rejected step leaves the point alone. Neither fact
needs a correct Jacobian, and so neither does the bound on the sum of squares that follows by
induction on the run.
-/

namespace LeastSquares

variable {n m k : ℕ}

/-! ### One trial step -/

/-- A gain in norm is what a positive reduction stands for; the value `-1` is not one. -/
theorem lt_of_actualReduction_pos {before after : ℝ} (hafter : 0 ≤ after)
    (h : 0 < TrustRegion.actualReduction before after) : after < before := by
  unfold TrustRegion.actualReduction at h
  split at h
  · next hgrowth =>
    have hbefore : 0 < before := by
      refine lt_of_le_of_lt ?_ hgrowth
      positivity
    have hratio : after / before * (after / before) < 1 * 1 := by
      dsimp only at h
      linarith
    have hlt : after / before < 1 := lt_of_mul_self_lt_mul_self₀ zero_le_one hratio
    rwa [div_lt_one hbefore] at hlt
  · norm_num at h

namespace Setting

variable {s : Setting ℝ n m k} {l : Linearization ℝ m k} {scale : Vector ℝ k} {cosine : ℝ}

/-- No part of a damped step is predicted to do harm, whatever its image. -/
theorem predict_reduction_nonneg (norm damping length : ℝ) (image : Vector ℝ k) {part : ℝ}
    (hpart : 0 < part) (hle : part ≤ 1) :
    0 ≤ (s.predict norm damping part length image).reduction := by
  have htwo : (0 : ℝ) ≤ 2.0 / part - 1 := by
    rw [sub_nonneg, le_div_iff₀ hpart]
    norm_num
    linarith
  have hsquare : ∀ a : ℝ, 0 ≤ a * a := mul_self_nonneg
  unfold predict
  refine add_nonneg (mul_nonneg (hsquare _) htwo) (div_nonneg ?_ hpart.le)
  rw [mul_assoc]
  exact mul_nonneg (by norm_num) (hsquare _)

/-- An accepted step has a positive gain ratio, so the residuals have become shorter. -/
theorem lt_of_accepted {point : Iterate ℝ n m k} {t : Proposal ℝ k} {r : Vector ℝ m}
    (hpart : t.move.part ≤ 1) (h : (s.judge l point t r).accepted = true) :
    euclid r < point.norm := by
  have hratio : (1e-4 : ℝ) ≤ (s.judge l point t r).ratio := of_decide_eq_true h
  simp only [judge, TrustRegion.gainRatio, normOf_eq] at hratio
  have hreduction := predict_reduction_nonneg (s := s) point.norm t.region.damping t.length
    (l.image t.damped.workspace t.move.step)
    (minNormal_pos.trans_le (le_max_right t.move.part Scalar.minNormal))
    (max_le hpart minNormal_le_one)
  split at hratio
  · refine lt_of_actualReduction_pos (euclid_nonneg r) ?_
    have hpos := lt_of_lt_of_le (by norm_num : (0 : ℝ) < 1e-4) hratio
    by_contra hneg
    exact absurd hpos (not_lt.2 (div_nonpos_of_nonpos_of_nonneg (not_lt.1 hneg) hreduction))
  · norm_num at hratio

/-- An accepted step shortens the residuals, and a rejected one changes nothing about the point. -/
theorem tryStep_descends {p : Progress ℝ n m k} {result : TrialResult ℝ n m k}
    {j j' : Journal ℝ n} (h : (s.tryStep l scale cosine p).resume j = (.ok result, j')) :
    (result.accepted = true →
      result.progress.point.norm = euclid result.progress.point.residuals ∧
      result.progress.point.norm < p.point.norm ∧
      result.progress.point.iterations = p.point.iterations + 1) ∧
    (result.accepted = false → result.progress.point = p.point) := by
  obtain ⟨r, i, -, -, rfl⟩ := tryStep_ok h
  simp only [resultOf, pointAfter]
  refine ⟨fun haccepted => ?_, fun hrejected => ?_⟩
  · rw [if_pos haccepted]
    refine ⟨normOf_eq s r, ?_, rfl⟩
    change s.normOf r < p.point.norm
    rw [normOf_eq]
    exact lt_of_accepted (StepLimits.restrict_part_le_one _ _ _) haccepted
  · rw [if_neg (by simpa using hrejected)]

/-! ### A whole run -/

structure Below (start : ℝ) (p : Iterate ℝ n m k) : Prop where
  measured : p.norm = euclid p.residuals
  le : p.norm ≤ start
  lt : 0 < p.iterations → p.norm < start

theorem Below.tryStep {start : ℝ} {p : Progress ℝ n m k} {result : TrialResult ℝ n m k}
    {j j' : Journal ℝ n} (hp : Below start p.point)
    (h : (s.tryStep l scale cosine p).resume j = (.ok result, j')) :
    Below start result.progress.point := by
  obtain ⟨haccepted, hrejected⟩ := tryStep_descends h
  cases hresult : result.accepted with
  | true =>
      obtain ⟨hmeasured, hlt, -⟩ := haccepted hresult
      exact ⟨hmeasured, (hlt.trans_le hp.le).le, fun _ => hlt.trans_le hp.le⟩
  | false =>
      rw [hrejected hresult]
      exact hp

theorem preserves_below (start : ℝ) : s.Preserves (Below start) where
  scaledNorm _ _ hp := ⟨hp.measured, hp.le, hp.lt⟩
  step h hp := hp.tryStep h

theorem Below.iteration {start : ℝ} {tall : k ≤ m} {trials : ℕ} {c : Checkpoint ℝ n m k}
    {outcome : Finish ℝ n m k ⊕ Checkpoint ℝ n m k} {j j' : Journal ℝ n}
    (hc : Below start c.point)
    (h : (s.iteration tall trials c).resume j = (.ok outcome, j')) :
    Below start (outcome.elim Finish.point Checkpoint.point) :=
  (preserves_below start).iteration hc h

theorem below_of_visits {tall : k ≤ m} {trials : ℕ} {x : Vector ℝ n} {i j : Journal ℝ n}
    {p : Iterate ℝ n m k} {c : Checkpoint ℝ n m k} (hp : (s.startAt x).resume .empty = (.ok p, i))
    (h : s.Visits tall trials x c j) : Below p.norm c.point := by
  refine (preserves_below p.norm).visits (fun q j hq => ?_) h
  cases hp.symm.trans hq
  obtain ⟨r, i', -, rfl⟩ := startAt_ok hp
  exact ⟨normOf_eq s r, le_rfl, fun h => absurd h (lt_irrefl 0)⟩

theorem chiSquare_solutionOf {names : Vector (Option String) n} {start : ℝ} {f : Finish ℝ n m k}
    {evaluations jacobians : ℕ} (h : f.point.norm = euclid f.point.residuals) :
    (s.solutionOf names start f evaluations jacobians).chiSquare = f.point.norm ^ 2 := by
  simp only [solutionOf]
  rw [sum_squares, h, euclid_sq]

end Setting

/-- In exact arithmetic, whatever the residual function, its Jacobian, the limits and the options:
an accepted step shortens the residuals, a rejected one leaves the point alone, and a fit returns no
larger sum of squares than it started with, and a smaller one if it accepted any step. -/
theorem minimize_descends (store : Store ℝ) (function : ResidualFunction ℝ) (options : Options ℝ)
    (initial : Option (Array ℝ)) (trials : ℕ) :
    (∀ mode l scale cosine p j result j',
      ((Setting.ofStore store function options mode).tryStep l scale cosine p).resume j =
        (.ok result, j') →
      (result.accepted = true →
        result.progress.point.norm = euclid result.progress.point.residuals ∧
        result.progress.point.norm < p.point.norm ∧
        result.progress.point.iterations = p.point.iterations + 1) ∧
      (result.accepted = false → result.progress.point = p.point)) ∧
    ∀ solution, (minimizeWithin trials store function options initial).1 = .ok solution →
      solution.chiSquare ≤ solution.startChiSquare ∧
      (0 < solution.iterations → solution.chiSquare < solution.startChiSquare) := by
  refine ⟨fun _ _ _ _ _ _ _ _ h => Setting.tryStep_descends h, fun solution hsolution => ?_⟩
  obtain ⟨start, -, h⟩ := minimizeWithin_ok (Prod.ext hsolution rfl)
  obtain ⟨p, i₀, c, i₁, f, i₂, hp, hc, hlast, evaluations, jacobians, rfl⟩ :=
    Setting.search_ok h
  have hbelow : Setting.Below p.norm f.point := (Setting.below_of_visits hp hc).iteration hlast
  have hnorm : 0 ≤ f.point.norm := by
    rw [hbelow.measured]
    exact euclid_nonneg _
  rw [Setting.chiSquare_solutionOf hbelow.measured]
  simp only [Setting.solutionOf]
  rw [← pow_two p.norm]
  exact ⟨pow_le_pow_left₀ hnorm hbelow.le 2,
    fun hiterations => pow_lt_pow_left₀ (hbelow.lt hiterations) hnorm two_ne_zero⟩

end LeastSquares
