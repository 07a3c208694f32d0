import LeastSquares.Proofs.Optimality
import LeastSquares.Proofs.OrthogonalFactor

/-!
What the damped solve is to minimize, in exact arithmetic. Seen from a vector, the damped sum of
squares is its value there, its slopes times the displacement, and a form in the displacement that is
never negative. So the vectors that minimize it are those at which all slopes vanish. The slopes, in
the order of the columns of a factorization, are by how much the normal equations of the triangle are
missed.
-/

namespace LeastSquares

open Matrix

variable {m n : ℕ}

noncomputable def dampedSquares (a : Mat ℝ m n) (b : Vector ℝ m) (c : ℝ) (scale x : Vector ℝ n) : ℝ :=
  (a.toMatrix *ᵥ coords x - coords b) ⬝ᵥ (a.toMatrix *ᵥ coords x - coords b) +
    c * euclid (scaleBy scale x) ^ 2

/-- Half the slope of the damped sum of squares in the direction of component `e`. -/
noncomputable def dampedSlope (a : Mat ℝ m n) (b : Vector ℝ m) (c : ℝ) (scale x : Vector ℝ n)
    (e : Fin n) : ℝ :=
  (a.toMatrixᵀ *ᵥ (a.toMatrix *ᵥ coords x - coords b)) e + c * scale[e] ^ 2 * x[e]

/-- What the displacement `δ` adds to the damped sum of squares beyond its slopes. -/
noncomputable def dampedForm (a : Mat ℝ m n) (c : ℝ) (scale : Vector ℝ n) (δ : Fin n → ℝ) : ℝ :=
  (a.toMatrix *ᵥ δ) ⬝ᵥ (a.toMatrix *ᵥ δ) + c * ∑ e, (scale[e] * δ e) ^ 2

variable {a : Mat ℝ m n} {b : Vector ℝ m} {c : ℝ} {scale x : Vector ℝ n}

theorem dampedForm_nonneg (hc : 0 ≤ c) (δ : Fin n → ℝ) : 0 ≤ dampedForm a c scale δ :=
  add_nonneg (dotProduct_self_nonneg _)
    (mul_nonneg hc (Finset.sum_nonneg fun _ _ => sq_nonneg _))

theorem dampedForm_smul (t : ℝ) (δ : Fin n → ℝ) :
    dampedForm a c scale (t • δ) = t ^ 2 * dampedForm a c scale δ := by
  have hscaled : ∑ e : Fin n, (scale[e] * (t • δ) e) ^ 2 =
      t ^ 2 * ∑ e : Fin n, (scale[e] * δ e) ^ 2 := by
    rw [Finset.mul_sum]
    refine Finset.sum_congr rfl fun e _ => ?_
    rw [Pi.smul_apply, smul_eq_mul]
    ring
  rw [dampedForm, dampedForm, hscaled, mulVec_smul, smul_dotProduct, dotProduct_smul, smul_eq_mul,
    smul_eq_mul]
  ring

theorem dampedSquares_eq (a : Mat ℝ m n) (b : Vector ℝ m) (c : ℝ) (scale x y : Vector ℝ n) :
    dampedSquares a b c scale y = dampedSquares a b c scale x +
      2 * ∑ e, dampedSlope a b c scale x e * (y[e] - x[e]) +
      dampedForm a c scale (coords y - coords x) := by
  set δ := coords y - coords x with hδ
  have himage : a.toMatrix *ᵥ coords y - coords b =
      (a.toMatrix *ᵥ coords x - coords b) + a.toMatrix *ᵥ δ := by
    rw [hδ, mulVec_sub]
    abel
  have hscaled : euclid (scaleBy scale y) ^ 2 = euclid (scaleBy scale x) ^ 2 +
      2 * ∑ e, scale[e] ^ 2 * x[e] * δ e + ∑ e, (scale[e] * δ e) ^ 2 := by
    rw [euclid_sq, euclid_sq, Finset.mul_sum, ← Finset.sum_add_distrib, ← Finset.sum_add_distrib]
    refine Finset.sum_congr rfl fun e _ => ?_
    rw [getElem_scaleBy, getElem_scaleBy, hδ, Pi.sub_apply, coords_apply, coords_apply]
    ring
  have hslopes : ∑ e, dampedSlope a b c scale x e * (y[e] - x[e]) =
      (a.toMatrix *ᵥ coords x - coords b) ⬝ᵥ (a.toMatrix *ᵥ δ) +
        c * ∑ e, scale[e] ^ 2 * x[e] * δ e := by
    rw [dotProduct_mulVec_eq_sum, Finset.mul_sum, ← Finset.sum_add_distrib]
    refine Finset.sum_congr rfl fun e _ => ?_
    rw [dampedSlope, hδ, Pi.sub_apply, coords_apply, coords_apply]
    ring
  rw [dampedSquares, himage, hscaled, add_dotProduct_add, hslopes, dampedSquares, dampedForm]
  ring

/-- Where two vectors differ only in components whose slopes vanish, only the form is left. -/
theorem dampedSquares_of_slopes {y : Vector ℝ n}
    (h : ∀ e : Fin n, dampedSlope a b c scale x e = 0 ∨ y[e] = x[e]) :
    dampedSquares a b c scale y =
      dampedSquares a b c scale x + dampedForm a c scale (coords y - coords x) := by
  have hslopes : ∑ e, dampedSlope a b c scale x e * (y[e] - x[e]) = 0 := by
    refine Finset.sum_eq_zero fun e _ => ?_
    rcases h e with hslope | heq
    · rw [hslope, zero_mul]
    · rw [heq, sub_self, mul_zero]
  rw [dampedSquares_eq a b c scale x y, hslopes, mul_zero, add_zero]

theorem dampedSquares_le (hc : 0 ≤ c) {y : Vector ℝ n}
    (h : ∀ e : Fin n, dampedSlope a b c scale x e = 0 ∨ y[e] = x[e]) :
    dampedSquares a b c scale x ≤ dampedSquares a b c scale y := by
  rw [dampedSquares_of_slopes h]
  exact le_add_of_nonneg_right (dampedForm_nonneg hc _)

/-- Along one component the damped sum of squares is a parabola. -/
theorem dampedSquares_put (a : Mat ℝ m n) (b : Vector ℝ m) (c : ℝ) (scale x : Vector ℝ n) (e : Fin n)
    (t : ℝ) :
    dampedSquares a b c scale (put x e (x[e] + t)) = dampedSquares a b c scale x +
      2 * dampedSlope a b c scale x e * t + t ^ 2 * dampedForm a c scale (Pi.single e 1) := by
  have hmoved : ∀ i : Fin n,
      (put x e (x[e] + t))[i] - x[i] = t * (Pi.single e 1 : Fin n → ℝ) i := by
    intro i
    rw [getElem_put]
    split
    · next heq => rw [← heq, Pi.single_eq_same, add_sub_cancel_left, mul_one]
    · next hne => rw [Pi.single_eq_of_ne (Ne.symm hne), sub_self, mul_zero]
  have hδ : coords (put x e (x[e] + t)) - coords x = t • Pi.single e 1 := funext hmoved
  have hslopes : ∑ i, dampedSlope a b c scale x i * ((put x e (x[e] + t))[i] - x[i]) =
      dampedSlope a b c scale x e * t := by
    rw [Finset.sum_eq_single_of_mem e (Finset.mem_univ e), hmoved, Pi.single_eq_same, mul_one]
    intro i _ hne
    rw [hmoved, Pi.single_eq_of_ne hne, mul_zero, mul_zero]
  rw [dampedSquares_eq a b c scale x (put x e (x[e] + t)), hslopes, hδ, dampedForm_smul]
  ring

theorem dampedSlope_eq_zero (h : ∀ y, dampedSquares a b c scale x ≤ dampedSquares a b c scale y)
    (e : Fin n) : dampedSlope a b c scale x e = 0 := by
  -- a parabola that is nowhere below where it starts has no slope there
  have hparabola : ∀ t : ℝ, 0 ≤ dampedForm a c scale (Pi.single e 1) * (t * t) +
      2 * dampedSlope a b c scale x e * t + 0 := by
    intro t
    have hle := h (put x e (x[e] + t))
    rw [dampedSquares_put] at hle
    linarith
  have hdiscriminant := discrim_le_zero hparabola
  rw [discrim, mul_zero, sub_zero] at hdiscriminant
  have hzero := sq_eq_zero_iff.1 (le_antisymm hdiscriminant (sq_nonneg _))
  linarith

theorem dampedSquares_minimal_iff (hc : 0 ≤ c) :
    (∀ y, dampedSquares a b c scale x ≤ dampedSquares a b c scale y) ↔
      ∀ e, dampedSlope a b c scale x e = 0 :=
  ⟨dampedSlope_eq_zero, fun h _ => dampedSquares_le hc fun e => .inl (h e)⟩

namespace PivotedQR

section Factor

variable (a : Mat ℝ m n) (tall : n ≤ m) {r : Mat ℝ n n}
  (hr : ∀ i j, upperPart r i j = upperPart (factor a tall).workspace i j)

include hr

theorem revealsRank_of_upperPart : StepModel.RevealsRank r :=
  StepModel.RevealsRank.congr (fun _ _ _ => upperPart_eq_zero a tall) hr

theorem transpose_upperMatrix_mul : (upperMatrix r)ᵀ * upperMatrix r =
    (a.toMatrixᵀ * a.toMatrix).submatrix (exchanges a tall) (exchanges a tall) := by
  ext i j
  rw [Matrix.submatrix_apply, transpose_mul_self_apply, Matrix.mul_apply]
  refine Eq.trans (Finset.sum_congr rfl fun l _ => ?_) (sum_upperPart_mul a tall i j)
  rw [← hr, ← hr]
  rfl

/-- The slope that belongs to a column of `R` is by how much its normal equation is missed. -/
theorem dampedSlope_pivot (b : Vector ℝ m) (c : ℝ) (scale x : Vector ℝ n) (j : Fin n) :
    dampedSlope a b c scale x (factor a tall).pivot[j] =
      ∑ i, (∑ l, upperPart r l j * upperPart r l i) * x[(factor a tall).pivot[i]] +
        c * scale[(factor a tall).pivot[j]] ^ 2 * x[(factor a tall).pivot[j]] -
      ∑ l, upperPart r l j * ((factor a tall).project b)[l] := by
  have hgram : (a.toMatrixᵀ *ᵥ (a.toMatrix *ᵥ coords x)) (factor a tall).pivot[j] =
      ∑ i, (∑ l, upperPart r l j * upperPart r l i) * x[(factor a tall).pivot[i]] := by
    have hproduct := congrFun (submatrix_mulVec_equiv (a.toMatrixᵀ * a.toMatrix)
      (coords x ∘ exchanges a tall) (exchanges a tall) (exchanges a tall)) j
    rw [← transpose_upperMatrix_mul a tall hr, Function.comp_assoc, Equiv.self_comp_symm] at hproduct
    rw [mulVec_mulVec]
    exact hproduct.symm
  have hmoment : (a.toMatrixᵀ *ᵥ coords b) (factor a tall).pivot[j] =
      ∑ l, upperPart r l j * ((factor a tall).project b)[l] := by
    simp only [hr, sum_upperPart_project]
    exact transpose_mulVec_apply a b _
  rw [dampedSlope, mulVec_sub, Pi.sub_apply, hgram, hmoment]
  ring

end Factor

end PivotedQR

end LeastSquares
