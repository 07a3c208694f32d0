import LeastSquares.DampedStep
import LeastSquares.Proofs.DampedSolve

/-!
What a damped step is, in exact arithmetic. Whatever the search for the damping does, the step that
comes out solves the normal equations with the damping that comes out, and the damping is not
negative. This needs a positive scale, a positive radius, and an `R` in which a zero on the diagonal
is followed by zero rows; how good the damping is does not matter.
-/

namespace LeastSquares

open DampedSolve

variable {n : ℕ}

namespace StepModel

theorem scaledNorm_one (model : StepModel ℝ 1) (x : Vector ℝ 1) :
    model.scaledNorm x = |model.scale[(0 : Fin 1)]| * |x[(0 : Fin 1)]| := by
  rw [scaledNorm, norm_toList, euclid_one, getElem_scaleBy, abs_mul]

variable (model : StepModel ℝ n) (r : Mat ℝ n n)

/-- The normal equations of `‖J·x - f‖² + c ‖D·x‖²`, one for each column of `R`. -/
def SolvesNormal (c : ℝ) (x : Vector ℝ n) : Prop :=
  ∀ j : Fin n,
    ∑ i, (∑ l, upperPart r l j * upperPart r l i) * x[model.pivot[i]] +
        c * model.scale[model.pivot[j]] ^ 2 * x[model.pivot[j]] =
      ∑ l, upperPart r l j * model.qtf[l]

structure IsDampedStep (d : DampedStep ℝ n) : Prop where
  damping_nonneg : 0 ≤ d.damping
  normal : model.SolvesNormal r d.damping d.x
  /-- A column that vanishes is left alone. -/
  zero : ∀ j : Fin n, (∀ l, upperPart r l j = 0) → d.x[model.pivot[j]] = 0
  workspace : ∀ i j, upperPart d.workspace i j = upperPart r i j

/-- A zero on the diagonal is followed by zero rows. -/
def RevealsRank : Prop := ∀ i j k : Fin n, r[i][i] = 0 → i ≤ j → upperPart r j k = 0

variable {model r}

/-! ### Without damping -/

section Undamped

variable {z : Vector ℝ n} {full : ℕ}

/-- What has been solved of the triangular system of `R` once the columns from `count` on have been
taken to the other side. -/
structure Subtracts (model : StepModel ℝ n) (r : Mat ℝ n n) (full count : ℕ) (z : Vector ℝ n) :
    Prop where
  solved : ∀ l : Fin n, count ≤ l.val → l.val < full → ∑ i, upperPart r l i * z[i] = model.qtf[l]
  zero : ∀ l : Fin n, full ≤ l.val → z[l] = 0
  pending : ∀ l : Fin n, l.val < count → l.val < full →
    z[l] + ∑ i : Fin n with count ≤ i.val, upperPart r l i * z[i] = model.qtf[l]

theorem sum_filter_le_val (j : Fin n) (f : Fin n → ℝ) :
    ∑ i : Fin n with j.val ≤ i.val, f i = f j + ∑ i : Fin n with j.val + 1 ≤ i.val, f i := by
  have hsplit : (Finset.univ.filter fun i : Fin n => j.val ≤ i.val) =
      insert j (Finset.univ.filter fun i : Fin n => j.val + 1 ≤ i.val) := by
    ext i
    simp [Nat.le_iff_lt_or_eq, Fin.ext_iff, or_comm, eq_comm]
  rw [hsplit, Finset.sum_insert (by simp)]

theorem Subtracts.column {j : Fin n} (h : Subtracts model r full (j + 1) z) (hj : j.val < full)
    (hdiagonal : r[j][j] ≠ 0) :
    Subtracts model r full j (Vector.ofFn fun i =>
      if i < j then z[i] - r[i][j] * (z[j] / r[j][j]) else if i = j then z[j] / r[j][j]
      else z[i]) := by
  set z' : Vector ℝ n := Vector.ofFn fun i =>
    if i < j then z[i] - r[i][j] * (z[j] / r[j][j]) else if i = j then z[j] / r[j][j] else z[i]
    with hz'
  have hbefore : ∀ i, i < j → z'[i] = z[i] - r[i][j] * z'[j] := by
    intro i hi
    rw [hz', getElem_ofFn, getElem_ofFn, if_pos hi, if_neg (lt_irrefl j), if_pos rfl]
  have hself : z'[j] = z[j] / r[j][j] := by
    rw [hz', getElem_ofFn, if_neg (lt_irrefl j), if_pos rfl]
  have hafter : ∀ i, j < i → z'[i] = z[i] := by
    intro i hi
    rw [hz', getElem_ofFn, if_neg hi.asymm, if_neg hi.ne']
  have hrest : ∀ l, ∑ i : Fin n with j.val + 1 ≤ i.val, upperPart r l i * z'[i] =
      ∑ i : Fin n with j.val + 1 ≤ i.val, upperPart r l i * z[i] := by
    intro l
    refine Finset.sum_congr rfl fun i hi => ?_
    have hlt : j < i := (Finset.mem_filter.1 hi).2
    rw [hafter i hlt]
  refine ⟨fun l hle hlt => ?_, fun l hle => ?_, fun l hl hlt => ?_⟩
  · rcases hle.eq_or_lt with heq | hgt
    -- the division solves row `j`, and the rows below have no entry in its column
    · obtain rfl := Fin.ext heq
      have hfrom : ∑ i, upperPart r j i * z'[i] =
          ∑ i : Fin n with j.val ≤ i.val, upperPart r j i * z'[i] := by
        refine (Finset.sum_subset (Finset.subset_univ _) fun i _ hi => ?_).symm
        have hij : i < j := by simpa using hi
        rw [upperPart_of_lt r hij, zero_mul]
      rw [hfrom, sum_filter_le_val, hrest, upperPart_self, hself, mul_div_cancel₀ _ hdiagonal]
      exact h.pending j (Nat.lt_succ_self _) hj
    · rw [← h.solved l hgt hlt]
      refine Finset.sum_congr rfl fun i _ => ?_
      rcases lt_or_ge i l with hil | hli
      · rw [upperPart_of_lt r hil, zero_mul, zero_mul]
      · rw [hafter i (lt_of_lt_of_le (Fin.lt_def.2 hgt) hli)]
  · rw [hafter l (Fin.lt_def.2 (hj.trans_le hle)), h.zero l hle]
  · have hlj : l < j := hl
    rw [sum_filter_le_val, hrest, hbefore l hlj, upperPart, if_pos hlj.le,
      ← h.pending l (Nat.lt_succ_of_lt hl) hlt]
    ring

theorem subtracts_solveTriangle (model : StepModel ℝ n) (r : Mat ℝ n n) :
    Subtracts model r (rank r) 0 (model.solveTriangle r) := by
  have hrank : rank r ≤ n := findIdx_le r.diagonal
  refine foldl_reverse_take hrank ⟨fun l hle hlt => ?_, fun l hle => ?_, fun l hl hlt => ?_⟩
    fun j hj z hz => hz.column hj ?_
  · exact absurd hlt (Nat.not_lt.2 hle)
  · rw [getElem_ofFn, if_neg (Nat.not_lt.2 hle)]
  · rw [getElem_ofFn, if_pos hlt]
    refine (add_eq_left).2 (Finset.sum_eq_zero fun i hi => ?_)
    rw [getElem_ofFn, if_neg (Nat.not_lt.2 (Finset.mem_filter.1 hi).2), mul_zero]
  · have hne := ne_zero_of_lt_findIdx hj
    rwa [Mat.diagonal, getElem_ofFn] at hne

/-- The step without damping solves the normal equations, whatever the rank. -/
theorem solvesNormal_undamped (hpivot : Distinct model.pivot) (hrank : RevealsRank r) :
    model.SolvesNormal r 0 (model.undamped r) := by
  intro j
  have hx : ∀ i : Fin n, (model.undamped r)[model.pivot[i]] = (model.solveTriangle r)[i] :=
    getElem_unpermute hpivot _
  have hrow : ∀ l : Fin n, upperPart r l j * ∑ i, upperPart r l i * (model.solveTriangle r)[i] =
      upperPart r l j * model.qtf[l] := by
    intro l
    rcases lt_or_ge l.val (rank r) with hlt | hge
    · rw [(subtracts_solveTriangle model r).solved l (Nat.zero_le _) hlt]
    · obtain ⟨i, hi, hzero⟩ := exists_eq_zero_of_findIdx_le hge
      rw [Mat.diagonal, getElem_ofFn] at hzero
      rw [hrank i l j hzero hi, zero_mul, zero_mul]
  simp only [hx]
  calc _ = ∑ l, upperPart r l j * ∑ i, upperPart r l i * (model.solveTriangle r)[i] := by
        simp only [zero_mul, add_zero, Finset.sum_mul, Finset.mul_sum]
        rw [Finset.sum_comm]
        exact Finset.sum_congr rfl fun l _ => Finset.sum_congr rfl fun i _ => mul_assoc _ _ _
    _ = ∑ l, upperPart r l j * model.qtf[l] := Finset.sum_congr rfl fun l _ => hrow l

theorem undamped_eq_zero (hpivot : Distinct model.pivot) {j : Fin n}
    (h : ∀ l, upperPart r l j = 0) : (model.undamped r)[model.pivot[j]] = 0 := by
  have hrank : rank r ≤ j.val := by
    by_contra hlt
    refine ne_zero_of_lt_findIdx (not_le.1 hlt) ?_
    rw [Mat.diagonal, getElem_ofFn, ← upperPart_self, h]
  exact (getElem_unpermute hpivot _ j).trans ((subtracts_solveTriangle model r).zero j hrank)

end Undamped

/-! ### With damping -/

noncomputable def stepAt (model : StepModel ℝ n) (r : Mat ℝ n n) (c : ℝ) : Vector ℝ n :=
  (dampedSolve r model.pivot (model.scale.map fun d => √c * d) model.qtf).x

theorem solvesNormal_stepAt (r : Mat ℝ n n) (hpivot : Distinct model.pivot)
    (hscale : ∀ j : Fin n, 0 < model.scale[j]) {c : ℝ} (hc : 0 < c) :
    model.SolvesNormal r c (model.stepAt r c) := by
  intro j
  have hdamping : ∀ j : Fin n, (model.scale.map fun d => √c * d)[j] ≠ 0 := by
    intro j
    rw [getElem_map]
    exact (mul_pos (Real.sqrt_pos.2 hc) (hscale j)).ne'
  have hnormal := dampedSolve_normal r _ model.qtf hpivot hdamping j
  rw [getElem_map, mul_pow, Real.sq_sqrt hc.le] at hnormal
  exact hnormal

/-! ### The search for the damping -/

section Search

variable {radius : ℝ} {s : Search ℝ n}

structure Search.Sound (r : Mat ℝ n n) (s : Search ℝ n) : Prop where
  damping_nonneg : 0 ≤ s.damping
  lower_nonneg : 0 ≤ s.lower
  workspace : ∀ i j, upperPart s.workspace i j = upperPart r i j

theorem Search.Sound.candidate_pos (h : s.Sound r) : 0 < s.candidate := by
  unfold candidate
  split
  · exact minNormal_pos.trans_le (le_max_left _ _)
  · next hne => exact lt_of_le_of_ne h.damping_nonneg (Ne.symm (by simpa using hne))

theorem Search.Sound.attempt_normal (h : s.Sound r) (radius : ℝ) (hpivot : Distinct model.pivot)
    (hscale : ∀ j : Fin n, 0 < model.scale[j]) :
    model.SolvesNormal r s.candidate (s.attempt model radius).solution.x := by
  intro j
  have hnormal : model.SolvesNormal s.workspace s.candidate (s.attempt model radius).solution.x :=
    solvesNormal_stepAt s.workspace hpivot hscale h.candidate_pos
  have hj := hnormal j
  simp only [h.workspace] at hj
  exact hj

/-- Every step that is tried is a damped step. -/
theorem Search.Sound.attempt (h : s.Sound r) (hpivot : Distinct model.pivot)
    (hscale : ∀ j : Fin n, 0 < model.scale[j]) :
    model.IsDampedStep r (s.attempt model radius).step where
  damping_nonneg := h.candidate_pos.le
  normal := h.attempt_normal radius hpivot hscale
  zero j hcolumn := by
    have hnormal := h.attempt_normal radius hpivot hscale j
    simp only [hcolumn, zero_mul, Finset.sum_const_zero, zero_add, mul_eq_zero] at hnormal
    have hscaled : s.candidate * model.scale[model.pivot[j]] ^ 2 ≠ 0 :=
      (mul_pos h.candidate_pos (pow_pos (hscale _) 2)).ne'
    exact hnormal.resolve_left (by simpa using hscaled)
  workspace i j := (upperPart_dampedSolve s.workspace _ model.qtf i j).trans (h.workspace i j)

theorem Search.Sound.advance (h : s.Sound r) (a : Attempt ℝ n) (hworkspace : ∀ i j,
    upperPart a.solution.workspace i j = upperPart r i j) :
    (s.advance model a radius).Sound r := by
  have hlower : 0 ≤ if 0 < a.excess then Scalar.max s.lower a.damping else s.lower := by
    split
    · exact h.lower_nonneg.trans (le_max_left _ _)
    · exact h.lower_nonneg
  exact ⟨hlower.trans (le_max_left _ _), hlower, hworkspace⟩

theorem Search.Sound.run (hpivot : Distinct model.pivot)
    (hscale : ∀ j : Fin n, 0 < model.scale[j]) (corrections : ℕ) (h : s.Sound r) :
    model.IsDampedStep r (s.run model radius corrections) := by
  induction corrections generalizing s with
  | zero => exact h.attempt hpivot hscale
  | succ corrections ih =>
      have hattempt : model.IsDampedStep r (s.attempt model radius).step :=
        h.attempt hpivot hscale
      unfold Search.run
      dsimp only
      split
      · exact hattempt
      · exact ih (h.advance _ hattempt.workspace)

theorem sound_startSearch {damping excess : ℝ} (hradius : 0 < radius) (hexcess : 0 ≤ excess) :
    (model.startSearch r radius damping excess).Sound r := by
  have hgradient : 0 ≤ model.gradientNorm r := norm_nonneg _
  have hlower : 0 ≤ model.lowerBound r radius excess := by
    unfold lowerBound correction
    split
    · exact div_nonneg (div_nonneg (div_nonneg hexcess hradius.le) (norm_nonneg _)) (norm_nonneg _)
    · exact le_rfl
  have hupper : 0 ≤ model.upperBound r radius := by
    unfold upperBound
    dsimp only
    split
    · exact div_nonneg minNormal_pos.le (le_min hradius.le (by norm_num))
    · exact div_nonneg hgradient hradius.le
  refine ⟨?_, hlower, fun _ _ => rfl⟩
  unfold startSearch
  dsimp only
  split
  · exact div_nonneg hgradient (norm_nonneg _)
  · exact le_min (hlower.trans (le_max_right _ _)) hupper

end Search

theorem isDampedStep_undamped (hpivot : Distinct model.pivot) (hrank : RevealsRank r) :
    model.IsDampedStep r ⟨0, model.undamped r, r⟩ :=
  ⟨le_rfl, solvesNormal_undamped hpivot hrank, fun _ => undamped_eq_zero hpivot, fun _ _ => rfl⟩

theorem dampedStep_of_near {radius damping : ℝ}
    (h : model.scaledNorm (model.undamped r) ≤ 1.1 * radius) :
    model.dampedStep r radius damping = ⟨0, model.undamped r, r⟩ :=
  if_pos (by linarith)

theorem dampedStep_of_le {radius damping : ℝ} (hradius : 0 ≤ radius)
    (h : model.scaledNorm (model.undamped r) ≤ radius) :
    model.dampedStep r radius damping = ⟨0, model.undamped r, r⟩ :=
  dampedStep_of_near (by linarith)

/-- A damped step solves the damped normal equations and leaves `R` as it was. -/
theorem isDampedStep_dampedStep {radius damping : ℝ} (hpivot : Distinct model.pivot)
    (hscale : ∀ j : Fin n, 0 < model.scale[j]) (hrank : RevealsRank r) (hradius : 0 < radius) :
    model.IsDampedStep r (model.dampedStep r radius damping) := by
  unfold dampedStep
  dsimp only
  split
  · exact isDampedStep_undamped hpivot hrank
  · next hexcess =>
    refine Search.Sound.run hpivot hscale _ (sound_startSearch hradius ?_)
    exact le_trans (mul_nonneg (by norm_num) hradius.le) (not_le.1 hexcess).le

end StepModel

end LeastSquares
