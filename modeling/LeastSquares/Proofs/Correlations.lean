import LeastSquares.Proofs.HeldParameters

/-!
What the correlations and the errors of a solution have to do with each other. The covariance of the
free parameters consists of products of vectors, and so does that of all parameters, with zero for
the vectors of those that are not free. Hence no correlation exceeds one, by the inequality of Cauchy
and Schwarz, and where a variance is zero, the whole row and the whole column are. The parameters
with a positive error are the free ones that the column exchange has put before the rank.
-/

namespace LeastSquares

open Matrix

variable {n m k l : ℕ}

/-! ### Correlations of products -/

namespace IsGram

variable {covar : Mat ℝ n n} {w : Fin n → Fin l → ℝ} (h : IsGram covar w)

include h

theorem diagonal_pos_iff (p : Fin n) : 0 < covar[p][p] ↔ w p ≠ 0 := by
  rw [(h.diagonal_nonneg p).lt_iff_ne, ne_comm, Ne, h.diagonal_eq_zero_iff]

theorem eq_zero_of_diagonal {p : Fin n} (hp : covar[p][p] = 0) (q : Fin n) :
    covar[p][q] = 0 ∧ covar[q][p] = 0 := by
  have hzero : w p = 0 := (h.diagonal_eq_zero_iff p).1 hp
  rw [h p q, h q p, hzero, zero_dotProduct, dotProduct_zero]
  exact ⟨rfl, rfl⟩

theorem abs_le (p q : Fin n) : |covar[p][q]| ≤ √(covar[p][p] * covar[q][q]) := by
  rw [Real.sqrt_mul (h.diagonal_nonneg p), h p q, h p p, h q q]
  exact abs_dotProduct_le (w p) (w q)

/-- Where a variance is zero, numerator and denominator of the correlation are. -/
theorem getElem_correlation (p q : Fin n) :
    (correlation covar)[p][q] = covar[p][q] / √(covar[p][p] * covar[q][q]) := by
  have hentry : (correlation covar)[p][q] =
      if 0 < covar[p][p] ∧ 0 < covar[q][q] ∧ 0 < √(covar[p][p] * covar[q][q]) then
        if p = q then 1 else covar[p][q] / √(covar[p][p] * covar[q][q])
      else 0 := by
    rw [correlation, Mat.getElem_ofFn]
    rfl
  rw [hentry]
  rcases (h.diagonal_nonneg p).eq_or_lt' with hp | hp
  · rw [if_neg fun hpos => hpos.1.ne' hp, (h.eq_zero_of_diagonal hp q).1, zero_div]
  rcases (h.diagonal_nonneg q).eq_or_lt' with hq | hq
  · rw [if_neg fun hpos => hpos.2.1.ne' hq, (h.eq_zero_of_diagonal hq p).2, zero_div]
  rw [if_pos ⟨hp, hq, Real.sqrt_pos.2 (mul_pos hp hq)⟩]
  split
  · next heq =>
      subst heq
      rw [Real.sqrt_mul_self hp.le, div_self hp.ne']
  · rfl

theorem correlation_self_eq_one_iff (p : Fin n) :
    (correlation covar)[p][p] = 1 ↔ 0 < covar[p][p] := by
  rw [h.getElem_correlation, Real.sqrt_mul_self (h.diagonal_nonneg p)]
  refine ⟨fun hone => (h.diagonal_nonneg p).lt_of_ne' fun hzero => ?_, fun hpos => div_self hpos.ne'⟩
  rw [hzero, zero_div] at hone
  exact zero_ne_one hone

theorem abs_correlation_le (p q : Fin n) : |(correlation covar)[p][q]| ≤ 1 := by
  rw [h.getElem_correlation, abs_div, abs_of_nonneg (Real.sqrt_nonneg _)]
  exact div_le_one_of_le₀ (h.abs_le p q) (Real.sqrt_nonneg _)

theorem getElem_standardErrors (p : Fin n) : (standardErrors covar)[p] = √covar[p][p] := by
  rw [standardErrors, getElem_map, Mat.diagonal, getElem_ofFn]
  exact congrArg Real.sqrt (max_eq_right (h.diagonal_nonneg p))

end IsGram

theorem IsGram.embedCovariance {covar : Mat ℝ k k} {w : Fin k → Fin l → ℝ} (h : IsGram covar w)
    (free : Vector (Fin n) k) :
    IsGram (embedCovariance covar free) fun p => (lastIndex? free p).elim 0 w := by
  intro p q
  rw [LeastSquares.embedCovariance, Mat.getElem_ofFn]
  dsimp only
  cases lastIndex? free p with
  | none => exact (zero_dotProduct _).symm
  | some a =>
      cases lastIndex? free q with
      | none => exact (dotProduct_zero _).symm
      | some b => exact h a b

/-! ### Solutions -/

namespace Solution

structure Consistent (solution : Solution ℝ n m) : Prop where
  symmetric : ∀ p q : Fin n, solution.correlation[p][q] = solution.correlation[q][p]
  bounded : ∀ p q : Fin n, |solution.correlation[p][q]| ≤ 1
  errors_nonneg : ∀ p : Fin n, 0 ≤ solution.errors[p]
  /-- A parameter with an error is fully correlated with itself, and one without error with none. -/
  diagonal : ∀ p : Fin n, solution.correlation[p][p] = 1 ↔ 0 < solution.errors[p]
  vanishing : ∀ p q : Fin n, solution.errors[p] = 0 →
    solution.correlation[p][q] = 0 ∧ solution.correlation[q][p] = 0
  variance : ∀ p : Fin n, solution.errors[p] ^ 2 = solution.covariance[p][p]
  scaled : 0 < solution.degreesOfFreedom → ∀ p : Fin n,
    solution.scaledErrors[p] ^ 2 = solution.scaledCovariance[p][p]

theorem reducedChiSquare_nonneg {solution : Solution ℝ n m} (hchi : 0 ≤ solution.chiSquare)
    (hfreedom : 0 < solution.degreesOfFreedom) : 0 ≤ solution.reducedChiSquare := by
  rw [reducedChiSquare, if_neg hfreedom.ne']
  exact div_nonneg hchi (Nat.cast_nonneg _)

theorem consistent_of_isGram {solution : Solution ℝ n m} {w : Fin n → Fin l → ℝ}
    (hgram : IsGram solution.covariance w)
    (herrors : solution.errors = standardErrors solution.covariance)
    (hchi : 0 ≤ solution.chiSquare) : solution.Consistent := by
  have herror : ∀ p : Fin n, solution.errors[p] = √solution.covariance[p][p] := by
    intro p
    rw [herrors, hgram.getElem_standardErrors]
  have hvariance : ∀ p : Fin n, solution.errors[p] ^ 2 = solution.covariance[p][p] := by
    intro p
    rw [herror, Real.sq_sqrt (hgram.diagonal_nonneg p)]
  refine
    { symmetric := fun p q => ?_
      bounded := hgram.abs_correlation_le
      errors_nonneg := fun p => ?_
      diagonal := fun p => ?_
      vanishing := fun p q hp => ?_
      variance := hvariance
      scaled := fun hfreedom p => ?_ }
  · rw [correlation, hgram.getElem_correlation, hgram.getElem_correlation, hgram.symmetric,
      mul_comm]
  · rw [herror]
    exact Real.sqrt_nonneg _
  · rw [correlation, hgram.correlation_self_eq_one_iff, herror, Real.sqrt_pos]
  · have hzero : solution.covariance[p][p] = 0 := by
      rw [← hvariance, hp, zero_pow two_ne_zero]
    obtain ⟨hrow, hcolumn⟩ := hgram.eq_zero_of_diagonal hzero q
    rw [correlation, hgram.getElem_correlation, hgram.getElem_correlation, hrow, hcolumn, zero_div,
      zero_div]
    exact ⟨rfl, rfl⟩
  · rw [scaledErrors, scaledCovariance, getElem_map, Mat.mapEntries, getElem_map, getElem_map,
      mul_pow, hvariance]
    exact congrArg (_ * ·) (Real.sq_sqrt (reducedChiSquare_nonneg hchi hfreedom))

end Solution

/-! ### A whole fit -/

namespace Setting

/-- The covariance at the end of a search consists of products of vectors, of which those are not
zero that belong to the free parameters before the rank. -/
theorem covarianceAt_isGram {s : Setting ℝ n m k} (hfree : Distinct s.free)
    (htolerance : 0 ≤ s.options.rankTolerance) {f : Finish ℝ n m k} {model : Linearization ℝ m k}
    (hpivot : Distinct model.pivot) (hmodel : f.model = model)
    (hworkspace : f.workspace.SameUpper model.r) :
    ∃ w : Fin n → Fin (Covariance.rank model.r s.options.rankTolerance) → ℝ,
      IsGram (s.covarianceAt f).1 w ∧
      ∀ q : Fin n, w q ≠ 0 ↔ ∃ d : Fin k,
        d.val < Covariance.rank model.r s.options.rankTolerance ∧ s.free[model.pivot[d]] = q := by
  obtain ⟨w, hgram, -, hzero⟩ := covariance_isGram hpivot htolerance
    (Covariance.rank_le model.r s.options.rankTolerance) rfl
  have hcovariance : (s.covarianceAt f).1 =
      embedCovariance (covariance model.r model.pivot s.options.rankTolerance).1 s.free := by
    rw [covarianceAt, covariance_congr hworkspace, hmodel]
  refine ⟨fun p => (lastIndex? s.free p).elim 0 w, ?_, fun q => ?_⟩
  · rw [hcovariance]
    exact hgram.embedCovariance s.free
  dsimp only
  -- a free parameter has one place in the exchange, and the others have none
  by_cases hplace : ∃ b : Fin k, s.free[b] = q
  · obtain ⟨b, rfl⟩ := hplace
    obtain ⟨d, rfl⟩ := hpivot.order.surjective b
    rw [lastIndex?_of_distinct hfree, Option.elim_some, Distinct.order_apply, Ne, hzero, not_le]
    constructor
    · exact fun hd => ⟨d, hd, rfl⟩
    · rintro ⟨d', hd', heq⟩
      obtain rfl := hpivot d' d (hfree _ _ heq)
      exact hd'
  · rw [lastIndex?_eq_none fun b hb => hplace ⟨b, hb⟩, Option.elim_none]
    constructor
    · exact fun hne => absurd rfl hne
    · rintro ⟨d, -, hd⟩
      exact absurd ⟨_, hd⟩ hplace

end Setting

section Fit

variable {store : Store ℝ} {function : ResidualFunction ℝ} {options : Options ℝ}
  {initial : Option (Array ℝ)} {trials : ℕ} {solution : Solution ℝ store.size function.count}
  {j : Journal ℝ store.size}

/-- The correlations and the errors of every solution are consistent, in exact arithmetic. The
parameters that have an error are the free ones that the factorization of the last Jacobian has put
before the rank; those that are not free and those that pointed out of their limits there have none.
-/
theorem solution_consistent
    (h : minimizeWithin trials store function options initial = (.ok solution, j)) :
    solution.Consistent ∧
    (∀ q : Fin store.size, (store.get q).isFree = false → solution.errors[q] = 0) ∧
    ∃ start c i a i', prepare store function options initial = .ok start ∧
      let s := start.setting options
      let model := Linearization.ofJacobian s.limits c.point a start.tall
      s.Visits start.tall trials start.x c i ∧
      (s.jacobianAt c.point.x c.point.residuals).resume i = (.ok a, i') ∧
      i'.jacobians = solution.jacobians ∧
      (∀ e, s.limits.pointsOutward c.point.free a c.point.residuals e = true →
        solution.errors[store.freePlaces[e]] = 0) ∧
      ∀ q : Fin store.size, 0 < solution.errors[q] ↔
        ∃ d : Fin store.free.size,
          d.val < (covariance model.r model.pivot options.rankTolerance).2 ∧
            store.freePlaces[model.pivot[d]] = q := by
  obtain ⟨start, hstart, hsearch⟩ := minimizeWithin_ok h
  obtain ⟨first, c, i, a, i', f, i'', -, hc, ha, hadvance, rfl, -⟩ := Setting.search_last hsearch
  obtain ⟨hmodel, hworkspace, hjacobians⟩ := Setting.advance_endsWith hadvance
  have htolerance : 0 ≤ options.rankTolerance :=
    Options.isTolerance_iff.1 (Options.validate_ok.1 (prepare_ok hstart).1).rankTolerance
  set s := start.setting options
  obtain ⟨w, hgram, hpositive⟩ := Setting.covarianceAt_isGram (s := s) store.distinct_freePlaces
    htolerance (Linearization.distinct_ofJacobian _ _ _ _) hmodel hworkspace
  have hchi : 0 ≤ (s.solutionOf store.names first.norm f i''.evaluations i''.jacobians).chiSquare :=
    (Finset.sum_nonneg fun l _ => sq_nonneg _).trans_eq (sum_squares f.point.residuals).symm
  have hconsistent := Solution.consistent_of_isGram hgram rfl hchi
  have hzero : ∀ q : Fin store.size, (s.covarianceAt f).1[q][q] = 0 →
      (standardErrors (s.covarianceAt f).1)[q] = 0 := by
    intro q hq
    rw [hgram.getElem_standardErrors, hq, Real.sqrt_zero]
  have hembedded : (s.solutionOf store.names first.norm f i''.evaluations
      i''.jacobians).IsEmbedded fun q => (store.get q).isFree :=
    Solution.isEmbedded_solutionOf _ _ _ _ store.isFree_freePlaces
  refine ⟨hconsistent, hembedded.error, start, c, i, a, i', hstart, hc, ha, hjacobians.symm,
    fun e he => ?_, fun q => ?_⟩
  · refine hzero _ (Setting.covarianceAt_eq_zero store.distinct_freePlaces htolerance hmodel
      hworkspace (StepLimits.getElem_masked_of_pointsOutward he) _).1
  · have herror : 0 < (standardErrors (s.covarianceAt f).1)[q] ↔ w q ≠ 0 := by
      rw [hgram.getElem_standardErrors, Real.sqrt_pos, hgram.diagonal_pos_iff]
    exact herror.trans (hpositive q)

end Fit

namespace Balanced

/-- Two free parameters, their sum, and a free one that starts on its lower limit. -/
noncomputable def store : Store ℝ :=
  ⟨#[.ofValue 1, .ofValue (-1), { tie := some ⟨fun x => Scalar.sum (x.toList.take 2)⟩ },
    { value := some 0, bounds := ⟨some 0, none⟩ }]⟩

noncomputable def slope : Mat ℝ 4 4 := .ofFn !![1, 1, 0, 0; 0, 1, 0, 0; 0, 0, 0, 1; 0, 0, 0, 0]

noncomputable def offset : Vector ℝ 4 := #v[0, 1, 2, 1]

noncomputable def function : ResidualFunction ℝ := .ofAffine slope offset

noncomputable def start : Vector ℝ 4 := #v[1, -1, 0, 0]

noncomputable def setting : Setting ℝ 4 4 3 := .ofStore store function .default .analytic

noncomputable def point : Iterate ℝ 4 4 3 := firstPoint store function slope offset start

noncomputable def columns : Mat ℝ 4 3 := store.freeColumns slope

theorem forall_parameters {P : Fin store.size → Prop} (h₀ : P (0 : Fin 4)) (h₁ : P (1 : Fin 4))
    (h₂ : P (2 : Fin 4)) (h₃ : P (3 : Fin 4)) (i : Fin store.size) : P i :=
  (Fin.forall_fin_succ (P := P)).2 ⟨h₀, Fin.forall_fin_succ.2 ⟨h₁, Fin.forall_fin_two.2 ⟨h₂, h₃⟩⟩⟩ i

theorem applyTies_start : store.applyTies start = start := by
  refine Store.TiesHold.applyTies_eq (Store.tiesOrdered_of_take ?_) ?_
  · refine forall_parameters nofun nofun ?_ nofun
    rintro t ⟨⟩
    exact ⟨Scalar.sum, fun _ => rfl⟩
  · refine forall_parameters nofun nofun ?_ nofun
    rintro t ⟨⟩
    show (0 : ℝ) = Scalar.sum [1, -1]
    rw [sum_eq]
    simp

theorem prepared : prepare store function .default (some #[1, -1, 0, 0]) =
    .ok ⟨.analytic, start, by decide⟩ := by
  refine prepare_default rfl rfl (Store.within_iff.2 ?_) (by decide) (by decide)
  refine forall_parameters (fun _ => ⟨nofun, nofun⟩) (fun _ => ⟨nofun, nofun⟩)
    (fun _ => ⟨nofun, nofun⟩) fun _ => ⟨fun l hl => ?_, nofun⟩
  obtain rfl : (0 : ℝ) = l := Option.some.inj hl
  exact le_rfl

theorem getElem_residuals (i : Fin 4) : point.residuals[i] = ![0, 0, 2, 1] i := by
  have hresiduals : point.residuals = affine slope offset start := rfl
  rw [hresiduals, affine, getElem_ofFn, Fin.sum_univ_four]
  fin_cases i
  · show (1 : ℝ) * 1 + 1 * -1 + 0 * 0 + 0 * 0 + 0 = 0
    norm_num
  · show (0 : ℝ) * 1 + 1 * -1 + 0 * 0 + 0 * 0 + 1 = 0
    norm_num
  · show (0 : ℝ) * 1 + 0 * -1 + 0 * 0 + 1 * 0 + 2 = 2
    norm_num
  · show (0 : ℝ) * 1 + 0 * -1 + 0 * 0 + 0 * 0 + 1 = 1
    norm_num

theorem toMatrix_columns : columns.toMatrix = !![1, 1, 0; 0, 1, 0; 0, 0, 1; 0, 0, 0] := by
  ext i c
  fin_cases i <;> fin_cases c <;> rfl

theorem slope_eq (c : Fin 3) : dot point.residuals (columns.column c) = ![0, 0, 2] c := by
  have hresiduals : coords point.residuals = ![0, 0, 2, 1] := funext getElem_residuals
  rw [dot_comm, ← transpose_mulVec_apply, toMatrix_columns, hresiduals]
  fin_cases c <;> simp [mulVec, dotProduct, Fin.sum_univ_four]

theorem isStationaryAt (c : Fin 3) : setting.limits.IsStationaryAt point columns 1e-10 c := by
  have hflat : ![(0 : ℝ), 0, 2] c = 0 → setting.limits.IsStationaryAt point columns 1e-10 c := by
    intro hzero
    refine .inr (.inr (.inr ?_))
    rw [slope_eq, hzero, abs_zero]
    exact mul_nonneg (mul_nonneg (by norm_num) (euclid_nonneg _)) (euclid_nonneg _)
  fin_cases c
  · exact hflat rfl
  · exact hflat rfl
  · have hfree : point.free[(2 : Fin 3)] = 0 := (getElem_map _ _ (2 : Fin 3)).trans rfl
    refine .inr (.inl ⟨?_, ?_⟩)
    · show setting.limits.atLower 2 point.free[(2 : Fin 3)] = true
      rw [hfree]
      exact decide_eq_true le_rfl
    · rw [slope_eq]
      exact two_pos

theorem exists_fit : ∃ (solution : Solution ℝ 4 4) (j : Journal ℝ 4),
    minimizeWithin 1 store function .default (some #[1, -1, 0, 0]) = (.ok solution, j) ∧
      solution.free = 3 := by
  have hfunction := ResidualFunction.isAffine_ofAffine slope offset
  have heval : setting.eval (setting.applyTies (setting.applyTies start)) =
      .ok (affine slope offset start) := by
    show function.eval (store.applyTies (store.applyTies start)) = _
    rw [applyTies_start, applyTies_start]
    exact hfunction.eval start
  obtain ⟨i, hp⟩ : ∃ i, (setting.startAt start).resume .empty = (.ok point, i) := by
    obtain ⟨i, hp⟩ := Setting.startAt_of_eval (j := .empty) heval
    have hties : setting.applyTies start = start := applyTies_start
    rw [hties, Setting.map_dampen_eq rfl, Setting.normOf_eq] at hp
    exact ⟨i, hp⟩
  obtain ⟨i', ha⟩ : ∃ i', (setting.jacobianAt point.x point.residuals).resume i =
      (.ok columns, i') :=
    Setting.jacobianAt_of_analytic rfl (hfunction.jacobian (setting.applyTies start)) point.residuals
  obtain ⟨f, v, evaluations, jacobians, j, hsearch, -⟩ := Setting.search_of_stationary store.names
    (by decide) 1 hp ha rfl (by change (0 : ℝ) ≤ 1e-10; norm_num) isStationaryAt
  exact ⟨_, j, (minimizeWithin_of_start prepared 1).trans hsearch, rfl⟩

end Balanced

/-- A fit with a tied parameter and one that its limit holds, and one degree of freedom. -/
theorem solution_consistent_balanced : ∃ (solution : Solution ℝ 4 4) (j : Journal ℝ 4),
    minimizeWithin 1 Balanced.store Balanced.function .default (some #[1, -1, 0, 0]) =
        (.ok solution, j) ∧
      solution.Consistent ∧ solution.errors[(2 : Fin 4)] = 0 ∧
      ∀ p : Fin 4, solution.scaledErrors[p] ^ 2 = solution.scaledCovariance[p][p] := by
  obtain ⟨solution, j, hrun, hfree⟩ := Balanced.exists_fit
  obtain ⟨hconsistent, htied, -⟩ := solution_consistent hrun
  refine ⟨solution, j, hrun, hconsistent, htied (2 : Fin 4) rfl, hconsistent.scaled ?_⟩
  show 0 < 4 - solution.free
  rw [hfree]
  decide

end LeastSquares
