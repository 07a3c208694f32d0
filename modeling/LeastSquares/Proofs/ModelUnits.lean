import LeastSquares.Proofs.Conversions
import LeastSquares.Proofs.StepUnits

/-!
The linear model in different units. Converted columns have inner products that differ by factors,
and these fix everything that a step is computed from: the normal equations, the scale, the cosines
and the length of an image. The step without damping needs more where the Jacobian is singular,
since the normal equations do not determine it. It is the same if the parameters keep their units,
as the same columns are then exchanged; otherwise the Jacobian has to have full rank.
-/

namespace LeastSquares

open Matrix

variable {n m k : ℕ}

namespace Linearization

section Plain

variable (limits : StepLimits ℝ k) (p : Iterate ℝ n m k) (a : Mat ℝ m k) (tall : k ≤ m)

theorem presents_ofJacobian (scale : Vector ℝ k) :
    ((ofJacobian limits p a tall).stepModel scale).Presents (ofJacobian limits p a tall).r
      (order limits p a tall) ((masked limits p a).toMatrixᵀ * (masked limits p a).toMatrix)
      ((masked limits p a).toMatrixᵀ *ᵥ coords p.residuals) where
  pivot _ := rfl
  revealsRank := revealsRank_ofJacobian limits p a tall
  gram_eq := gram_eq limits p a tall
  moment_eq := moment_eq limits p a tall

theorem euclid_image_sq {w : Mat ℝ k k} (hw : w.SameUpper (ofJacobian limits p a tall).r)
    (step : Vector ℝ k) : euclid ((ofJacobian limits p a tall).image w step) ^ 2 =
      coords step ⬝ᵥ
        (((masked limits p a).toMatrixᵀ * (masked limits p a).toMatrix) *ᵥ coords step) := by
  rw [euclid_image fun i j => by rw [StepModel.upperPart_congr hw], mulVec_dotProduct_mulVec,
    Matrix.mulVec_mulVec]

/-- The largest cosine is bounded when those of all columns are, in any order. -/
theorem gradientCosine_ofJacobian_le_iff {norm b : ℝ} (hb : 0 ≤ b) :
    (ofJacobian limits p a tall).gradientCosine norm ≤ b ↔
      norm = 0 ∨ ∀ c, euclid ((masked limits p a).column c) ≠ 0 →
        |dot ((masked limits p a).column c) p.residuals / norm /
          euclid ((masked limits p a).column c)| ≤ b := by
  rw [gradientCosine_le_iff hb]
  simp only [columnNorms_ofJacobian, cosineAt_eq]
  exact or_congr_right ((order limits p a tall).surjective.forall (p := fun c => euclid
    ((masked limits p a).column c) ≠ 0 → |dot ((masked limits p a).column c) p.residuals / norm /
      euclid ((masked limits p a).column c)| ≤ b)).symm

theorem gradientCosine_nonneg (l : Linearization ℝ m k) (norm : ℝ) : 0 ≤ l.gradientCosine norm := by
  unfold gradientCosine
  split
  · exact le_rfl
  · exact (foldl_max_le.1 le_rfl).1

end Plain

/-! ### Converted columns -/

section Converted

variable {v : Conversion n m k} {limits limits' : StepLimits ℝ k} {p : Iterate ℝ n m k}
  {a : Mat ℝ m k} {tall : k ≤ m}
  (houtward : ∀ c,
    limits'.pointsOutward (v.free p.free) (v.jacobian a) (v.residuals p.residuals) c =
      limits.pointsOutward p.free a p.residuals c)

include houtward

theorem getElem_column_masked (i : Fin m) (c : Fin k) :
    ((masked limits' (v.iterate p) (v.jacobian a)).column c)[i] =
      v.unit c * (v.residuals ((masked limits p a).column c))[i] := by
  have hc := houtward c
  rw [StepLimits.column_maskJacobian, StepLimits.column_maskJacobian]
  change (if limits'.pointsOutward (v.free p.free) (v.jacobian a) (v.residuals p.residuals) c = true
    then _ else _)[i] = _
  rw [hc]
  split
  · have hzero : euclid (v.residuals (Vector.replicate m 0)) = 0 := by
      rw [v.euclid_residuals, euclid_eq_zero.2 fun i => getElem_replicate 0 i, mul_zero]
    rw [euclid_eq_zero.1 hzero, getElem_replicate, mul_zero]
  · rw [Mat.getElem_column, v.getElem_jacobian]

theorem dot_column_masked (f : Vector ℝ m) (c : Fin k) :
    dot ((masked limits' (v.iterate p) (v.jacobian a)).column c) (v.residuals f) =
      v.factor ^ 2 * v.unit c * dot ((masked limits p a).column c) f := by
  rw [mul_right_comm, ← v.dot_residuals, dot_eq, dot_eq, Finset.sum_mul]
  refine Finset.sum_congr rfl fun i _ => ?_
  rw [getElem_column_masked houtward]
  ring

theorem dot_columns_masked (c e : Fin k) :
    dot ((masked limits' (v.iterate p) (v.jacobian a)).column c)
        ((masked limits' (v.iterate p) (v.jacobian a)).column e) =
      v.factor ^ 2 * (v.unit c * v.unit e) *
        dot ((masked limits p a).column c) ((masked limits p a).column e) := by
  have hright : dot ((masked limits' (v.iterate p) (v.jacobian a)).column c)
      ((masked limits' (v.iterate p) (v.jacobian a)).column e) =
        v.unit e * dot ((masked limits' (v.iterate p) (v.jacobian a)).column c)
          (v.residuals ((masked limits p a).column e)) := by
    rw [dot_eq, dot_eq, Finset.mul_sum]
    refine Finset.sum_congr rfl fun i _ => ?_
    rw [getElem_column_masked houtward i e]
    ring
  rw [hright, dot_column_masked houtward]
  ring

theorem euclid_column_masked (c : Fin k) :
    euclid ((masked limits' (v.iterate p) (v.jacobian a)).column c) =
      v.factor * v.unit c * euclid ((masked limits p a).column c) := by
  have hpos : 0 ≤ v.factor * v.unit c := (mul_pos v.factor_pos (v.unit_pos c)).le
  have hsquare := dot_columns_masked houtward c c
  simp only [dot_eq, ← pow_two] at hsquare
  rw [euclid, euclid, hsquare, ← mul_pow, Real.sqrt_mul (sq_nonneg _), Real.sqrt_sq hpos]

theorem columnNorms_convert (c : Fin k) :
    (ofJacobian limits' (v.iterate p) (v.jacobian a) tall).columnNorms[c] =
      v.factor * v.unit c * (ofJacobian limits p a tall).columnNorms[c] := by
  rw [columnNorms_ofJacobian, columnNorms_ofJacobian, euclid_column_masked houtward]

theorem gradientCosine_convert (norm : ℝ) :
    (ofJacobian limits' (v.iterate p) (v.jacobian a) tall).gradientCosine (v.factor * norm) =
      (ofJacobian limits p a tall).gradientCosine norm := by
  have hsame : ∀ b, 0 ≤ b →
      ((ofJacobian limits' (v.iterate p) (v.jacobian a) tall).gradientCosine (v.factor * norm) ≤ b ↔
        (ofJacobian limits p a tall).gradientCosine norm ≤ b) := by
    intro b hb
    rw [gradientCosine_ofJacobian_le_iff _ _ _ _ hb, gradientCosine_ofJacobian_le_iff _ _ _ _ hb]
    refine or_congr (by rw [mul_eq_zero, or_iff_right v.factor_pos.ne']) (forall_congr' fun c => ?_)
    have hγ := v.factor_pos.ne'
    have hc := (v.unit_pos c).ne'
    have hcosine : ∀ d e : ℝ, v.factor ^ 2 * v.unit c * d / (v.factor * norm) /
        (v.factor * v.unit c * e) = d / norm / e := by
      intro d e
      rw [div_div, div_div, show v.factor * norm * (v.factor * v.unit c * e) =
        v.factor ^ 2 * v.unit c * (norm * e) by ring,
        mul_div_mul_left _ _ (mul_ne_zero (pow_ne_zero 2 hγ) hc)]
    change (_ ≠ 0 → |dot _ (v.residuals p.residuals) / _ / _| ≤ b) ↔ _
    rw [euclid_column_masked houtward, dot_column_masked houtward, hcosine, mul_ne_zero_iff,
      and_iff_right (mul_ne_zero hγ hc)]
  refine le_antisymm ?_ ?_
  · exact (hsame _ (gradientCosine_nonneg _ _)).2 le_rfl
  · exact (hsame _ (gradientCosine_nonneg _ _)).1 le_rfl

/-! ### Converted normal equations -/

theorem gram_convert : (masked limits' (v.iterate p) (v.jacobian a)).toMatrixᵀ *
      (masked limits' (v.iterate p) (v.jacobian a)).toMatrix =
    .of fun c e => v.factor ^ 2 * (v.unit c * v.unit e) *
      ((masked limits p a).toMatrixᵀ * (masked limits p a).toMatrix) c e := by
  ext c e
  rw [transpose_mul_self_apply, Matrix.of_apply, transpose_mul_self_apply,
    dot_columns_masked houtward]

theorem moment_convert : (masked limits' (v.iterate p) (v.jacobian a)).toMatrixᵀ *ᵥ
      coords (v.iterate p).residuals =
    fun c => v.factor ^ 2 * v.unit c *
      ((masked limits p a).toMatrixᵀ *ᵥ coords p.residuals) c := by
  ext c
  rw [transpose_mulVec_apply, transpose_mulVec_apply]
  exact dot_column_masked houtward p.residuals c

theorem gram_mulVec_convert (y : Fin k → ℝ) :
    ((masked limits' (v.iterate p) (v.jacobian a)).toMatrixᵀ *
        (masked limits' (v.iterate p) (v.jacobian a)).toMatrix) *ᵥ (fun c => y c / v.unit c) =
      fun c => v.factor ^ 2 * v.unit c *
        (((masked limits p a).toMatrixᵀ * (masked limits p a).toMatrix) *ᵥ y) c := by
  rw [gram_convert houtward]
  ext c
  rw [Matrix.mulVec, dotProduct, Matrix.mulVec, dotProduct, Finset.mul_sum]
  refine Finset.sum_congr rfl fun e _ => ?_
  have he := (v.unit_pos e).ne'
  rw [Matrix.of_apply]
  field_simp

/-- The image of a converted step is as much longer as residuals are. -/
theorem euclid_image_convert {w w' : Mat ℝ k k} (hw : w.SameUpper (ofJacobian limits p a tall).r)
    (hw' : w'.SameUpper (ofJacobian limits' (v.iterate p) (v.jacobian a) tall).r)
    (step : Vector ℝ k) :
    euclid ((ofJacobian limits' (v.iterate p) (v.jacobian a) tall).image w' (v.free step)) =
      v.factor * euclid ((ofJacobian limits p a tall).image w step) := by
  have hcoords : coords (v.free step) = fun c => coords step c / v.unit c := by
    ext c
    exact v.getElem_free step c
  rw [← pow_left_inj₀ (euclid_nonneg _) (mul_nonneg v.factor_pos.le (euclid_nonneg _)) two_ne_zero,
    mul_pow, euclid_image_sq _ _ _ _ hw, euclid_image_sq _ _ _ _ hw', hcoords,
    gram_mulVec_convert houtward, dotProduct, dotProduct, Finset.mul_sum]
  refine Finset.sum_congr rfl fun c _ => ?_
  have hc := (v.unit_pos c).ne'
  field_simp

/-! ### The step without damping -/

/-- Where the parameters keep their units, the triangles have the same rows. -/
theorem rows_convert (tall : k ≤ m) (hunit : ∀ c, v.unit c = 1) :
    (ofJacobian limits' (v.iterate p) (v.jacobian a) tall).pivot =
        (ofJacobian limits p a tall).pivot ∧
      ∃ ε : Fin k → ℝ, ProportionalRows ε v.factor (ofJacobian limits p a tall).r
          (ofJacobian limits' (v.iterate p) (v.jacobian a) tall).r ∧
        ∀ l : Fin k, (ofJacobian limits p a tall).r[l][l] ≠ 0 →
          (ofJacobian limits' (v.iterate p) (v.jacobian a) tall).qtf[l] =
            ε l * (v.factor * (ofJacobian limits p a tall).qtf[l]) := by
  have hproducts := fun c e => dot_columns_masked houtward c e
  have hmoments := fun c => dot_column_masked houtward p.residuals c
  simp only [hunit, mul_one] at hproducts hmoments
  have hrows := PivotedQR.rows_of_products v.factor_pos hproducts hmoments tall
  choose ε hsign hrow hqtf using hrows
  exact ⟨PivotedQR.pivot_of_products v.factor_pos hproducts tall, ε, ⟨hsign, hrow⟩, hqtf⟩

theorem mulVec_eq_zero_convert
    (hfull : ∀ w, (masked limits p a).toMatrix *ᵥ w = 0 → w = 0) (w : Fin k → ℝ)
    (hw : (masked limits' (v.iterate p) (v.jacobian a)).toMatrix *ᵥ w = 0) : w = 0 := by
  have hgram := gram_mulVec_convert houtward fun c => v.unit c * w c
  have hback : (fun c => v.unit c * w c / v.unit c) = w := by
    ext c
    rw [mul_div_cancel_left₀ _ (v.unit_pos c).ne']
  rw [hback, ← Matrix.mulVec_mulVec, hw, Matrix.mulVec_zero] at hgram
  have hzero : ((masked limits p a).toMatrixᵀ * (masked limits p a).toMatrix) *ᵥ
      (fun c => v.unit c * w c) = 0 := by
    ext c
    have hc := congrFun hgram c
    exact (mul_eq_zero.1 hc.symm).resolve_left
      (mul_pos (pow_pos v.factor_pos 2) (v.unit_pos c)).ne'
  have hscaled := hfull (fun c => v.unit c * w c) (dotProduct_self_eq_zero.1 (by
    rw [mulVec_dotProduct_mulVec, Matrix.mulVec_mulVec, hzero, dotProduct_zero]))
  ext c
  exact (mul_eq_zero.1 (congrFun hscaled c)).resolve_left (v.unit_pos c).ne'

/-- The linear model is converted, for every scale. -/
theorem converts_stepModel (tall : k ≤ m)
    (hregular : (∀ c, v.unit c = 1) ∨ ∀ w, (masked limits p a).toMatrix *ᵥ w = 0 → w = 0)
    (scale : Vector ℝ k) :
    StepModel.Converts v.factor v.unit ((ofJacobian limits p a tall).stepModel scale)
      ((ofJacobian limits' (v.iterate p) (v.jacobian a) tall).stepModel (v.scale scale))
      (ofJacobian limits p a tall).r
      (ofJacobian limits' (v.iterate p) (v.jacobian a) tall).r := by
  have hmodel := presents_ofJacobian limits p a tall scale
  have hmodel' := presents_ofJacobian limits' (v.iterate p) (v.jacobian a) tall (v.scale scale)
  have hpresents := hmodel'
  rw [gram_convert houtward, moment_convert houtward] at hpresents
  have hboth : (∀ c : Fin k, (((ofJacobian limits' (v.iterate p) (v.jacobian a) tall).stepModel
        (v.scale scale)).undamped (ofJacobian limits' (v.iterate p) (v.jacobian a) tall).r)[c] =
      (((ofJacobian limits p a tall).stepModel scale).undamped
        (ofJacobian limits p a tall).r)[c] / v.unit c) ∧
      (StepModel.rank (ofJacobian limits' (v.iterate p) (v.jacobian a) tall).r = k ↔
        StepModel.rank (ofJacobian limits p a tall).r = k) := by
    -- where units stay, the rows are proportional; where they change, full rank leaves one solution
    rcases hregular with hunit | hfull
    · obtain ⟨hpivot, ε, hrows, hqtf⟩ := rows_convert houtward tall hunit
      refine ⟨fun c => ?_, by rw [hrows.rank_eq v.factor_pos]⟩
      have hundamped : ((ofJacobian limits' (v.iterate p) (v.jacobian a) tall).stepModel
          (v.scale scale)).undamped (ofJacobian limits' (v.iterate p) (v.jacobian a) tall).r =
          ((ofJacobian limits p a tall).stepModel scale).undamped (ofJacobian limits p a tall).r :=
        StepModel.undamped_of_rows v.factor_pos hrows hqtf hpivot
      rw [hundamped, hunit, div_one]
    · have hfull' := mulVec_eq_zero_convert houtward hfull
      have hrank := StepModel.rank_of_diagonal (diagonal_ne_zero limits p a tall hfull)
      have hrank' := StepModel.rank_of_diagonal
        (diagonal_ne_zero limits' (v.iterate p) (v.jacobian a) tall hfull')
      refine ⟨fun c => ?_, iff_of_true hrank' hrank⟩
      have hsolution := hmodel'.undamped_normal
      rw [moment_convert houtward, ← hmodel.undamped_normal, ← gram_mulVec_convert houtward]
        at hsolution
      exact congrFun (Matrix.mulVec_injective_of_isUnit (hmodel'.isUnit_gram hrank') hsolution) c
  exact
    { factor_pos := v.factor_pos
      unit_pos := v.unit_pos
      presents := ⟨_, _, _, _, hmodel, hpresents⟩
      scale_eq := v.getElem_scale scale
      undamped_eq := hboth.1
      rank_iff := hboth.2 }

end Converted

end Linearization

end LeastSquares
