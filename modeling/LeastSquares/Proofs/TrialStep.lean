import LeastSquares.Proofs.DampedStep
import LeastSquares.Proofs.Gradient
import Mathlib.LinearAlgebra.Matrix.DotProduct

/-!
What a trial step of a run is, in exact arithmetic, in terms of the Jacobian and the residuals it was
computed from. The triangle, the column exchange and the head of `Qᵗ·f` drop out: every step that a
run tries solves the damped normal equations of the cleared Jacobian, and what is predicted of it is
measured by the product of that Jacobian with the step. What this asks of a run, a positive scale
and a positive radius, holds at every iteration.
-/

namespace LeastSquares

open Matrix

variable {n m k : ℕ}

/-! ### Vectors and matrices -/

def coords (x : Vector ℝ n) : Fin n → ℝ := fun i => x[i]

def Mat.toMatrix (a : Mat ℝ m k) : Matrix (Fin m) (Fin k) ℝ := .of fun i c => a[i][c]

@[simp] theorem coords_apply (x : Vector ℝ n) (i : Fin n) : coords x i = x[i] := rfl

@[simp] theorem Mat.toMatrix_apply (a : Mat ℝ m k) (i : Fin m) (c : Fin k) :
    a.toMatrix i c = a[i][c] := rfl

theorem euclid_sq_eq_dotProduct (x : Vector ℝ n) : euclid x ^ 2 = coords x ⬝ᵥ coords x := by
  rw [euclid_sq]
  exact Finset.sum_congr rfl fun i _ => pow_two _

/-- The slope of the residuals in the direction of a parameter. -/
theorem transpose_mulVec_apply (a : Mat ℝ m k) (f : Vector ℝ m) (c : Fin k) :
    (a.toMatrixᵀ *ᵥ coords f) c = dot (a.column c) f := by
  simp [mulVec, dotProduct]

theorem transpose_mul_self_apply (a : Mat ℝ m k) (i j : Fin k) :
    (a.toMatrixᵀ * a.toMatrix) i j = dot (a.column i) (a.column j) := by
  rw [Matrix.mul_apply, dot_eq]
  exact Finset.sum_congr rfl fun l _ => by rw [Mat.getElem_column, Mat.getElem_column]; rfl

theorem mulVec_dotProduct_mulVec (a : Matrix (Fin m) (Fin k) ℝ) (u v : Fin k → ℝ) :
    (a *ᵥ u) ⬝ᵥ (a *ᵥ v) = u ⬝ᵥ (aᵀ *ᵥ (a *ᵥ v)) := by
  rw [dotProduct_mulVec u, vecMul_transpose]

theorem dotProduct_self_nonneg (u : Fin m → ℝ) : 0 ≤ u ⬝ᵥ u :=
  Finset.sum_nonneg fun _ _ => mul_self_nonneg _

theorem abs_dotProduct_le (u v : Fin m → ℝ) : |u ⬝ᵥ v| ≤ √(u ⬝ᵥ u) * √(v ⬝ᵥ v) := by
  rw [← Real.sqrt_mul (dotProduct_self_nonneg u)]
  refine Real.abs_le_sqrt ?_
  have hsquares := Finset.sum_mul_sq_le_sq_mul_sq Finset.univ u v
  simpa only [dotProduct, pow_two] using hsquares

def upperMatrix (r : Mat ℝ k k) : Matrix (Fin k) (Fin k) ℝ := .of (upperPart r)

/-! ### The linear model -/

namespace Linearization

section OfJacobian

variable (limits : StepLimits ℝ k) (p : Iterate ℝ n m k) (jacobian : Mat ℝ m k) (tall : k ≤ m)

noncomputable def order : Fin k ≃ Fin k :=
  .ofBijective (fun j => (ofJacobian limits p jacobian tall).pivot[j])
    (Finite.injective_iff_bijective.1 (distinct_ofJacobian limits p jacobian tall))

@[simp] theorem order_apply (j : Fin k) :
    order limits p jacobian tall j = (ofJacobian limits p jacobian tall).pivot[j] := rfl

/-- The products of columns of `R` are those of the cleared Jacobian. -/
theorem gram_eq :
    (upperMatrix (ofJacobian limits p jacobian tall).r)ᵀ *
        upperMatrix (ofJacobian limits p jacobian tall).r =
      ((masked limits p jacobian).toMatrixᵀ * (masked limits p jacobian).toMatrix).submatrix
        (order limits p jacobian tall) (order limits p jacobian tall) := by
  ext i j
  rw [Matrix.submatrix_apply, transpose_mul_self_apply, Matrix.mul_apply]
  exact sum_r_r limits p jacobian tall i j

theorem moment_eq :
    (upperMatrix (ofJacobian limits p jacobian tall).r)ᵀ *ᵥ
        coords (ofJacobian limits p jacobian tall).qtf =
      ((masked limits p jacobian).toMatrixᵀ *ᵥ coords p.residuals) ∘
        order limits p jacobian tall := by
  ext j
  rw [Function.comp_apply, transpose_mulVec_apply]
  exact sum_r_qtf limits p jacobian tall j

theorem revealsRank_ofJacobian : StepModel.RevealsRank (ofJacobian limits p jacobian tall).r :=
  fun _ _ _ => PivotedQR.upperPart_eq_zero _ tall

variable {limits p jacobian tall}

/-- A damped step solves the normal equations of the cleared Jacobian. -/
theorem normal_of_isDampedStep {scale : Vector ℝ k} {d : DampedStep ℝ k}
    (h : ((ofJacobian limits p jacobian tall).stepModel scale).IsDampedStep
      (ofJacobian limits p jacobian tall).r d) (e : Fin k) :
    ((masked limits p jacobian).toMatrixᵀ *ᵥ ((masked limits p jacobian).toMatrix *ᵥ coords d.x)) e +
        d.damping * scale[e] ^ 2 * d.x[e] =
      ((masked limits p jacobian).toMatrixᵀ *ᵥ coords p.residuals) e := by
  obtain ⟨j, rfl⟩ := (order limits p jacobian tall).surjective e
  have hmoment := congrFun (moment_eq limits p jacobian tall) j
  have hgram : (((upperMatrix (ofJacobian limits p jacobian tall).r)ᵀ *
      upperMatrix (ofJacobian limits p jacobian tall).r) *ᵥ
        (coords d.x ∘ order limits p jacobian tall)) j =
      (((masked limits p jacobian).toMatrixᵀ * (masked limits p jacobian).toMatrix) *ᵥ
        coords d.x) (order limits p jacobian tall j) := by
    rw [gram_eq, Matrix.submatrix_mulVec_equiv, Function.comp_assoc, Equiv.self_comp_symm]
    rfl
  rw [Function.comp_apply] at hmoment
  rw [← hmoment, Matrix.mulVec_mulVec, ← hgram]
  exact h.normal j

theorem upperPart_eq_zero_of_column {j : Fin k}
    (h : ∀ i : Fin m, (masked limits p jacobian)[i][order limits p jacobian tall j] = 0) (l : Fin k) :
    upperPart (ofJacobian limits p jacobian tall).r l j = 0 := by
  have hsum := sum_r_r limits p jacobian tall j j
  have hcolumn : dot ((masked limits p jacobian).column (ofJacobian limits p jacobian tall).pivot[j])
      ((masked limits p jacobian).column (ofJacobian limits p jacobian tall).pivot[j]) = 0 := by
    rw [dot_eq]
    refine Finset.sum_eq_zero fun i _ => ?_
    have hi := h i
    rw [order_apply] at hi
    rw [Mat.getElem_column, hi, mul_zero]
  rw [hcolumn, Finset.sum_eq_zero_iff_of_nonneg fun _ _ => mul_self_nonneg _] at hsum
  exact mul_self_eq_zero.1 (hsum l (Finset.mem_univ l))

/-- A damped step leaves a parameter alone whose column is clear. -/
theorem zero_of_isDampedStep {scale : Vector ℝ k} {d : DampedStep ℝ k}
    (h : ((ofJacobian limits p jacobian tall).stepModel scale).IsDampedStep
      (ofJacobian limits p jacobian tall).r d) {e : Fin k}
    (he : ∀ i : Fin m, (masked limits p jacobian)[i][e] = 0) : d.x[e] = 0 := by
  obtain ⟨j, rfl⟩ := (order limits p jacobian tall).surjective e
  exact h.zero j (upperPart_eq_zero_of_column he)

/-- The image of a step has the length of its product with the cleared Jacobian. -/
theorem euclid_image {r : Mat ℝ k k}
    (hr : ∀ i j, upperPart r i j = upperPart (ofJacobian limits p jacobian tall).r i j)
    (step : Vector ℝ k) :
    euclid ((ofJacobian limits p jacobian tall).image r step) ^ 2 =
      ((masked limits p jacobian).toMatrix *ᵥ coords step) ⬝ᵥ
        ((masked limits p jacobian).toMatrix *ᵥ coords step) := by
  have himage : coords ((ofJacobian limits p jacobian tall).image r step) =
      upperMatrix (ofJacobian limits p jacobian tall).r *ᵥ
        (coords step ∘ order limits p jacobian tall) := by
    ext i
    rw [coords_apply, image, getElem_ofFn, sumFromZero_eq, sum_map_starting, Matrix.mulVec]
    refine (Finset.sum_congr rfl fun j hj => ?_).trans
      (Finset.sum_subset (Finset.subset_univ (Finset.Ici i)) fun j _ hj => ?_)
    · have hij : i ≤ j := Finset.mem_Ici.1 hj
      have hentry := hr i j
      rw [upperPart, if_pos hij] at hentry
      rw [hentry]
      rfl
    · have hji : j < i := by simpa using hj
      change upperPart _ i j * _ = 0
      rw [upperPart_of_lt _ hji, zero_mul]
  rw [euclid_sq_eq_dotProduct, himage, mulVec_dotProduct_mulVec, mulVec_dotProduct_mulVec,
    mulVec_mulVec, mulVec_mulVec, gram_eq, submatrix_mulVec_equiv, Function.comp_assoc,
    Equiv.self_comp_symm, Function.comp_id, comp_equiv_dotProduct_comp_equiv]

end OfJacobian

end Linearization

/-! ### Every step of a run -/

namespace StepModel

variable {model : StepModel ℝ k} {r r' : Mat ℝ k k}

/-- Of the matrix a step is computed in, only the upper triangle counts. -/
theorem IsDampedStep.congr {d : DampedStep ℝ k} (h : model.IsDampedStep r d)
    (hr : ∀ i j, upperPart r i j = upperPart r' i j) : model.IsDampedStep r' d where
  damping_nonneg := h.damping_nonneg
  normal j := by
    have hnormal := h.normal j
    simp only [hr] at hnormal
    exact hnormal
  zero j hcolumn := h.zero j fun l => by rw [hr, hcolumn]
  workspace i j := (h.workspace i j).trans (hr i j)

theorem RevealsRank.congr (h : RevealsRank r) (hr : ∀ i j, upperPart r' i j = upperPart r i j) :
    RevealsRank r' := by
  intro i j l hi hij
  rw [← upperPart_self, hr, upperPart_self] at hi
  rw [hr]
  exact h i j l hi hij

end StepModel

namespace StepStatistics

variable {t : StepStatistics ℝ} {tolerance : ℝ}

theorem reductionWithin_iff : t.reductionWithin tolerance = true ↔
    |t.actual| ≤ tolerance ∧ t.predicted ≤ tolerance ∧ 0.5 * t.ratio ≤ 1 := by
  simp [reductionWithin, and_assoc, Scalar.abs]

theorem changeWithin_iff : t.changeWithin tolerance = true ↔ t.radius ≤ tolerance * t.norm := by
  simp [changeWithin]

end StepStatistics

namespace Options

variable {o : Options ℝ} {t : StepStatistics ℝ} {iterations evaluations : ℕ}

theorem contains_stepStatus_xtol :
    (o.stepStatus t iterations evaluations).contains .xtolConverged = true ↔
      t.changeWithin o.xtol = true := by
  unfold stepStatus
  dsimp only
  split
  · next hempty =>
    have hfalse := Status.contains_eq_false hempty .xtolConverged
    rw [← Bool.not_eq_true, Status.contains_ofTests] at hfalse
    rw [Status.contains_ofTests]
    simpa [@eq_comm _ true] using hfalse
  · simp [Status.contains_ofTests, @eq_comm _ true]

theorem contains_stepStatus_ftol :
    (o.stepStatus t iterations evaluations).contains .ftolConverged = true ↔
      t.reductionWithin o.ftol = true := by
  unfold stepStatus
  dsimp only
  split
  · next hempty =>
    have hfalse := Status.contains_eq_false hempty .ftolConverged
    rw [← Bool.not_eq_true, Status.contains_ofTests] at hfalse
    rw [Status.contains_ofTests]
    simpa [@eq_comm _ true] using hfalse
  · simp [Status.contains_ofTests, @eq_comm _ true]

/-- A run that goes on has room for a step. -/
theorem radius_pos_of_isEmpty (hxtol : 0 ≤ o.xtol) (hnorm : 0 ≤ t.norm)
    (h : (o.stepStatus t iterations evaluations).isEmpty = true) : 0 < t.radius := by
  have hchange := Status.contains_eq_false h .xtolConverged
  rw [← Bool.not_eq_true, contains_stepStatus_xtol, StepStatistics.changeWithin_iff,
    not_le] at hchange
  exact (mul_nonneg hxtol hnorm).trans_lt hchange

end Options

namespace Setting

variable {s : Setting ℝ n m k} {tall : k ≤ m} {trials : ℕ} {x : Vector ℝ n}

theorem scaledNorm_nonneg (s : Setting ℝ n m k) (scale v : Vector ℝ k) :
    0 ≤ s.scaledNorm scale v := by
  rw [scaledNorm, normOf_eq]
  exact euclid_nonneg _

section Steps

variable {limits : StepLimits ℝ k} {point : Iterate ℝ n m k} {jacobian : Mat ℝ m k}
  {scale : Vector ℝ k} {cosine : ℝ}

/-- What the steps of an iteration need of its progress so far. -/
structure Steady (l : Linearization ℝ m k) (q : Progress ℝ n m k) : Prop where
  radius_pos : 0 < q.region.radius
  scaledNorm_nonneg : 0 ≤ q.point.scaledNorm
  workspace : ∀ i j, upperPart q.workspace i j = upperPart l.r i j

/-- Every step that is proposed is a damped step of the linear model. -/
theorem Steady.isDampedStep {q : Progress ℝ n m k}
    (h : Steady (.ofJacobian limits point jacobian tall) q) (hscale : ∀ e : Fin k, 0 < scale[e]) :
    ((Linearization.ofJacobian limits point jacobian tall).stepModel scale).IsDampedStep
      (Linearization.ofJacobian limits point jacobian tall).r
      (s.propose (.ofJacobian limits point jacobian tall) scale q).damped := by
  refine StepModel.IsDampedStep.congr ?_ h.workspace
  refine StepModel.isDampedStep_dampedStep ?_ hscale ?_ h.radius_pos
  · exact Linearization.distinct_ofJacobian limits point jacobian tall
  · exact (Linearization.revealsRank_ofJacobian limits point jacobian tall).congr h.workspace

theorem scaledNorm_pointAfter {p : Iterate ℝ n m k} {t : Proposal ℝ k}
    {r : Vector ℝ m} {v : Verdict ℝ} (h : 0 ≤ p.scaledNorm) :
    0 ≤ (s.pointAfter p scale t r v).scaledNorm := by
  unfold pointAfter
  split
  · exact scaledNorm_nonneg s _ _
  · exact h

theorem Steady.tryStep {q : Progress ℝ n m k} {result : TrialResult ℝ n m k} {j j' : Journal ℝ n}
    (hq : Steady (.ofJacobian limits point jacobian tall) q) (hscale : ∀ e : Fin k, 0 < scale[e])
    (hxtol : 0 ≤ s.options.xtol)
    (h : (s.tryStep (.ofJacobian limits point jacobian tall) scale cosine q).resume j =
      (.ok result, j')) (hstatus : result.status.isEmpty = true) :
    Steady (.ofJacobian limits point jacobian tall) result.progress := by
  obtain ⟨r, i, -, -, rfl⟩ := tryStep_ok h
  have hnorm : 0 ≤ (s.pointAfter q.point scale
      (s.propose (.ofJacobian limits point jacobian tall) scale q) r
      (s.judge (.ofJacobian limits point jacobian tall) q.point
        (s.propose (.ofJacobian limits point jacobian tall) scale q) r)).scaledNorm :=
    scaledNorm_pointAfter hq.scaledNorm_nonneg
  exact ⟨Options.radius_pos_of_isEmpty hxtol hnorm hstatus, hnorm,
    (hq.isDampedStep (s := s) hscale).workspace⟩

theorem Tries.steady {p q : Progress ℝ n m k} {j j' : Journal ℝ n}
    (hp : Steady (.ofJacobian limits point jacobian tall) p) (hscale : ∀ e : Fin k, 0 < scale[e])
    (hxtol : 0 ≤ s.options.xtol)
    (h : s.Tries (.ofJacobian limits point jacobian tall) scale cosine p j q j') :
    Steady (.ofJacobian limits point jacobian tall) q := by
  induction h with
  | first => exact hp
  | next _ hstep _ hstatus ih => exact ih.tryStep hscale hxtol hstep hstatus

end Steps

/-- What an iteration needs of the checkpoint it starts from, once that has been rescaled. -/
structure Ready (c : Checkpoint ℝ n m k) : Prop where
  scale_pos : ∀ e : Fin k, 0 < c.scale[e]
  radius_pos : 0 < c.region.radius
  scaledNorm_nonneg : 0 ≤ c.point.scaledNorm

theorem chosenScale_pos (hoptions : s.options.InRange) {d : Vector ℝ k}
    (h : s.chosenScale = some d) (e : Fin k) : 0 < d[e] := by
  obtain ⟨scale, hscale, rfl⟩ := Option.map_eq_some_iff.1 h
  have hentry : ∀ v ∈ scale, 0 < v := by
    intro v hv
    exact Options.isPositive_iff.1 (hoptions.scale v (by rw [hscale]; exact hv))
  rw [getElem_map, List.getD_eq_getElem?_getD]
  cases hv : scale[(s.free[e]).val]? with
  | none => exact one_pos
  | some v => exact hentry v (List.mem_of_getElem? hv)

/-- The first iteration makes itself ready. -/
theorem ready_rescale_first (hoptions : s.options.InRange) {l : Linearization ℝ m k}
    (hl : ∀ e : Fin k, 0 ≤ l.columnNorms[e]) {c : Checkpoint ℝ n m k}
    (hc : c.point.iterations = 0) : Ready (s.rescale l c) := by
  have hfactor : 0 < s.options.factor := Options.isPositive_iff.1 hoptions.factor
  unfold rescale
  rw [if_pos hc]
  refine ⟨fun e => ?_, ?_, scaledNorm_nonneg s _ _⟩
  · cases hscale : s.chosenScale with
    | some d => exact chosenScale_pos hoptions hscale e
    | none =>
        change 0 < l.initialScale[e]
        rw [Linearization.initialScale, getElem_map]
        split
        · exact one_pos
        · next hne => exact lt_of_le_of_ne (hl e) (Ne.symm (by simpa using hne))
  · change 0 < (TrustRegion.initial _ _).radius
    unfold TrustRegion.initial
    dsimp only
    split
    · exact hfactor
    · next hne =>
      refine mul_pos hfactor (lt_of_le_of_ne (scaledNorm_nonneg s _ _) (Ne.symm ?_))
      simpa using hne

theorem Ready.stepScale_pos {c : Checkpoint ℝ n m k} (h : Ready c) (l : Linearization ℝ m k)
    (e : Fin k) : 0 < (s.stepScale l c.scale)[e] := by
  unfold stepScale
  split
  · rw [Linearization.raiseScale, getElem_zipWith]
    exact (h.scale_pos e).trans_le (le_max_left _ _)
  · exact h.scale_pos e

theorem Ready.steady {c : Checkpoint ℝ n m k} (h : Ready c) (l : Linearization ℝ m k) :
    Steady l ⟨c.point, c.region, l.r⟩ :=
  ⟨h.radius_pos, h.scaledNorm_nonneg, fun _ _ => rfl⟩

/-- Every iteration of a search is ready for its steps. -/
theorem ready_of_visits (hoptions : s.options.InRange) {c : Checkpoint ℝ n m k} {j : Journal ℝ n}
    (h : s.Visits tall trials x c j) {l : Linearization ℝ m k}
    (hl : ∀ e : Fin k, 0 ≤ l.columnNorms[e]) : Ready (s.rescale l c) := by
  have hxtol : 0 ≤ s.options.xtol := Options.isTolerance_iff.1 hoptions.xtol
  induction h generalizing l with
  | start hp =>
      obtain ⟨r, i, -, rfl⟩ := startAt_ok hp
      exact ready_rescale_first hoptions hl rfl
  | @next c c' _ _ _ hstep ih =>
      obtain ⟨a, i, -, hstep⟩ := iteration_ok hstep
      have hready := ih (l := .ofJacobian s.limits c.point a tall) fun e => by
        rw [Linearization.columnNorms_ofJacobian]
        exact euclid_nonneg _
      rcases advance_ok hstep with ⟨_, -, hend, -⟩ | ⟨-, q, _, result, hq, hlast, hend⟩
      · cases hend
      · rcases hend with ⟨-, hend⟩ | ⟨hstatus, haccepted, hend⟩
        · cases hend
        · cases hend
          have hscale := hready.stepScale_pos (s := s) (.ofJacobian s.limits c.point a tall)
          have hsteady := (Tries.steady (hready.steady _) hscale hxtol hq).tryStep hscale hxtol
            hlast hstatus
          have hiterations := ((tryStep_descends hlast).1 haccepted).2.2
          rw [rescale, if_neg (by rw [hiterations]; exact Nat.succ_ne_zero _)]
          exact ⟨hscale, hsteady.radius_pos, hsteady.scaledNorm_nonneg⟩

section Model

variable (s : Setting ℝ n m k) (tall : k ≤ m) (c : Checkpoint ℝ n m k) (jacobian : Mat ℝ m k)

noncomputable def modelAt : Linearization ℝ m k := .ofJacobian s.limits c.point jacobian tall

noncomputable def scaleAt : Vector ℝ k :=
  s.stepScale (s.modelAt tall c jacobian) (s.rescale (s.modelAt tall c jacobian) c).scale

noncomputable def progressAt : Progress ℝ n m k :=
  let start := s.rescale (s.modelAt tall c jacobian) c
  ⟨start.point, start.region, (s.modelAt tall c jacobian).r⟩

noncomputable def cosineAt : ℝ :=
  (s.modelAt tall c jacobian).gradientCosine (s.rescale (s.modelAt tall c jacobian) c).point.norm

end Model

theorem ready_progressAt (hoptions : s.options.InRange) {trials : ℕ} {x : Vector ℝ n}
    {c : Checkpoint ℝ n m k} {j : Journal ℝ n} (hc : s.Visits tall trials x c j) (a : Mat ℝ m k) :
    Ready (s.rescale (s.modelAt tall c a) c) := by
  refine ready_of_visits hoptions hc fun e => ?_
  rw [modelAt, Linearization.columnNorms_ofJacobian]
  exact euclid_nonneg _

section FirstStep

variable {tall : k ≤ m} {c : Checkpoint ℝ n m k} {a : Mat ℝ m k} {result : TrialResult ℝ n m k}
  {i i' j : Journal ℝ n}

/-- The first step of an iteration beyond the gradient test is its last when it is accepted or gives a
reason to stop. -/
theorem iteration_of_step (trials : ℕ)
    (ha : (s.jacobianAt c.point.x c.point.residuals).resume j = (.ok a, i))
    (hgradient : s.options.gtol < s.cosineAt tall c a) (hlimit : s.options.maxIterations ≠ 0)
    (hstep : (s.tryStep (s.modelAt tall c a) (s.scaleAt tall c a) (s.cosineAt tall c a)
      (s.progressAt tall c a)).resume i = (.ok result, i'))
    (hend : result.accepted = true ∨ result.status.isEmpty = false) :
    (s.iteration tall (trials + 1) c).resume j =
      (.ok (if result.status.isEmpty = true
        then .inr ⟨s.scaleAt tall c a, result.progress.region, result.progress.point⟩
        else .inl ⟨result.progress.point, s.modelAt tall c a, result.progress.workspace,
          result.status⟩), i') :=
  Run.bind_ok.2 ⟨a, i, ha,
    advance_of_step trials (Options.isEmpty_gradientStatus_iff_lt.2 hgradient) hlimit hstep hend⟩

theorem iteration_of_first_step (trials : ℕ)
    (ha : (s.jacobianAt c.point.x c.point.residuals).resume j = (.ok a, i))
    (hgradient : s.options.gtol < s.cosineAt tall c a) (hlimit : s.options.maxIterations ≠ 0)
    (hstep : (s.tryStep (s.modelAt tall c a) (s.scaleAt tall c a) (s.cosineAt tall c a)
      (s.progressAt tall c a)).resume i = (.ok result, i'))
    (hstatus : result.status.isEmpty = false) :
    (s.iteration tall (trials + 1) c).resume j =
      (.ok (.inl ⟨result.progress.point, s.modelAt tall c a, result.progress.workspace,
        result.status⟩), i') := by
  rw [iteration_of_step trials ha hgradient hlimit hstep (.inr hstatus), if_neg (by simp [hstatus])]

end FirstStep

end Setting

end LeastSquares
