import LeastSquares.Proofs.ProportionalRows
import LeastSquares.Proofs.StepDivisors

/-!
The damped step without its triangle. A triangle and a head of `Qᵗ·f` stand for normal equations,
the matrix and the right side of which are indexed by the parameters, whatever the column exchange.
All that the search for the damping looks at is a function of these: the length of the gradient, the
step of each damping, and the lengths of the solutions of the transposed triangular systems, which
are values of a quadratic form.
-/

namespace LeastSquares

open Matrix

variable {n : ℕ}

/-! ### Triangular factors -/

theorem isUnit_of_diagonal {t : Mat ℝ n n} (h : ∀ j : Fin n, t[j][j] ≠ 0) :
    IsUnit (upperMatrix t) := by
  have htriangular : (upperMatrix t).IsUpperTriangular := fun _ _ hij => upperPart_of_lt _ hij
  rw [Matrix.isUnit_iff_isUnit_det, isUnit_iff_ne_zero, Matrix.det_of_isUpperTriangular htriangular]
  refine Finset.prod_ne_zero_iff.2 fun j _ => ?_
  rw [upperMatrix, Matrix.of_apply, upperPart_self]
  exact h j

section Factors

variable {t gram : Matrix (Fin n) (Fin n) ℝ} {order : Fin n ≃ Fin n}
  (ht : IsUnit t) (hgram : tᵀ * t = gram.submatrix order order)

include ht hgram

theorem isUnit_of_factor : IsUnit gram := by
  have hproduct : IsUnit (tᵀ * t) := (Matrix.isUnit_transpose t |>.2 ht).mul ht
  rwa [hgram, Matrix.isUnit_submatrix_equiv] at hproduct

/-- The length of the solution of the transposed system is a value of the quadratic form of the
inverse. -/
theorem dotProduct_of_transposed {w v y : Fin n → ℝ} (hw : tᵀ *ᵥ w = v ∘ order)
    (hy : gram *ᵥ y = v) : w ⬝ᵥ w = v ⬝ᵥ y := by
  have himage : t *ᵥ (y ∘ order) = w := by
    have hinjective := Matrix.mulVec_injective_of_isUnit (Matrix.isUnit_transpose t |>.2 ht)
    apply hinjective
    rw [hw, Matrix.mulVec_mulVec, hgram, Matrix.submatrix_mulVec_equiv, Function.comp_assoc,
      Equiv.self_comp_symm, Function.comp_id, hy]
  calc w ⬝ᵥ w = (t *ᵥ (y ∘ order)) ⬝ᵥ w := by rw [himage]
    _ = (y ∘ order) ⬝ᵥ (v ∘ order) := by
        rw [← hw, Matrix.dotProduct_mulVec, Matrix.vecMul_transpose]
    _ = v ⬝ᵥ y := by
        rw [dotProduct_comm]
        exact Equiv.sum_comp order fun a => v a * y a

end Factors

/-! ### The triangle that a damped solve returns -/

section DampedSolve

theorem upperMatrix_s (solution : DampedSolution ℝ n) :
    upperMatrix solution.s = solution.s.toMatrix := by
  ext l i
  rw [upperMatrix, Matrix.of_apply, Mat.toMatrix_apply, upperPart]
  split
  · rfl
  · next h => rw [s_of_gt solution (not_le.1 h)]

theorem isUpperTriangular_s (solution : DampedSolution ℝ n) :
    solution.s.toMatrix.IsUpperTriangular := fun _ _ hij => s_of_gt solution hij

theorem isUnit_s {solution : DampedSolution ℝ n} (h : ∀ j : Fin n, solution.diagonal[j] ≠ 0) :
    IsUnit solution.s.toMatrix := by
  rw [← upperMatrix_s]
  refine isUnit_of_diagonal fun j => ?_
  rw [s_self]
  exact h j

/-- `S` is a triangular factor of what `R` and `D` make up together. -/
theorem transpose_s_mul_s (r : Mat ℝ n n) (pivot : Vector (Fin n) n) (damping b : Vector ℝ n) :
    (dampedSolve r pivot damping b).s.toMatrixᵀ * (dampedSolve r pivot damping b).s.toMatrix =
      (upperMatrix r)ᵀ * upperMatrix r + Matrix.diagonal fun j => damping[pivot[j]] ^ 2 := by
  ext i j
  rw [Matrix.add_apply, Matrix.diagonal_apply, Matrix.mul_apply, Matrix.mul_apply]
  exact sum_s_mul r damping b pivot i j

end DampedSolve

namespace StepModel

theorem rank_of_diagonal {r : Mat ℝ n n} (h : ∀ c : Fin n, r[c][c] ≠ 0) : rank r = n := by
  rw [rank, List.findIdx_eq_length_of_false, Vector.length_toList]
  intro d hd
  rw [toList_eq_map] at hd
  obtain ⟨c, -, rfl⟩ := List.mem_map.1 hd
  rw [Mat.diagonal, getElem_ofFn]
  simpa using h c

/-! ### Transposed triangular systems -/

section Transposed

variable {r : Mat ℝ n n}

theorem sum_upperPart_put {w : Vector ℝ n} {v : ℝ} {c j : Fin n} (h : j < c) :
    ∑ i, upperPart r i j * (put w c v)[i] = ∑ i, upperPart r i j * w[i] := by
  refine Finset.sum_congr rfl fun i _ => ?_
  rw [getElem_put]
  split
  · next heq => rw [← heq, upperPart_of_lt r h, zero_mul, zero_mul]
  · rfl

theorem sum_upperPart_eq (r : Mat ℝ n n) (j : Fin n) (f : Fin n → ℝ) :
    ∑ i, upperPart r i j * f i = r[j][j] * f j + ∑ i : Fin n with i.val < j.val, r[i][j] * f i := by
  have hsum := Covariance.sum_mul_upperPart f r j
  simp only [mul_comm (f _)] at hsum
  exact hsum

/-- The columns before `count` of the transposed system `tᵀ·w = z` are solved, and the others are as
they were. -/
structure SolvesColumns (t : Mat ℝ n n) (z : Vector ℝ n) (count : ℕ) (w : Vector ℝ n) : Prop where
  solved : ∀ j : Fin n, j.val < count → ∑ i, upperPart t i j * w[i] = z[j]
  pending : ∀ j : Fin n, count ≤ j.val → w[j] = z[j]

theorem SolvesColumns.put {z w : Vector ℝ n} {c : Fin n} (hdiagonal : r[c][c] ≠ 0)
    (h : SolvesColumns r z c w) :
    SolvesColumns r z (c + 1)
      (put w c
        ((w[c] - Scalar.sumFromZero ((before c).map fun i => r[i][c] * w[i])) / r[c][c])) where
  solved j hj := by
    rcases Nat.lt_succ_iff_lt_or_eq.1 hj with hlt | heq
    · rw [sum_upperPart_put (Fin.lt_def.2 hlt)]
      exact h.solved j hlt
    · obtain rfl := Fin.ext heq
      have hbefore : ((before j).map fun i => r[i][j] * w[i]).sum =
          ∑ i : Fin n with i.val < j.val, r[i][j] * w[i] := by
        rw [before, sum_map_filter]
        rfl
      have hrest : ∀ v, ∑ i : Fin n with i.val < j.val, r[i][j] * (LeastSquares.put w j v)[i] =
          ∑ i : Fin n with i.val < j.val, r[i][j] * w[i] := by
        intro v
        refine Finset.sum_congr rfl fun i hi => ?_
        have hij : i < j := (Finset.mem_filter.1 hi).2
        rw [getElem_put, if_neg hij.ne']
      rw [sum_upperPart_eq, hrest, getElem_put, if_pos rfl, sumFromZero_eq, hbefore,
        mul_div_cancel₀ _ hdiagonal, sub_add_cancel]
      exact h.pending j le_rfl
  pending j hj := by
    have hcj : c < j := hj
    rw [getElem_put, if_neg hcj.ne]
    exact h.pending j (Nat.le_of_succ_le hj)

theorem sum_upperPart_solveTransposed (hdiagonal : ∀ j : Fin n, r[j][j] ≠ 0) (z : Vector ℝ n)
    (j : Fin n) : ∑ i, upperPart r i j * (solveTransposed r z)[i] = z[j] := by
  have hloop : SolvesColumns r z n (solveTransposed r z) :=
    foldl_finRange (I := SolvesColumns r z)
      ⟨fun _ hj => absurd hj (Nat.not_lt_zero _), fun _ _ => rfl⟩ fun c _ hw => hw.put (hdiagonal c)
  exact hloop.solved j j.isLt

/-- The columns before `count` of the transposed system `tᵀ·w = z` are solved and taken to the other
side. -/
structure TakesColumns (t : Mat ℝ n n) (z : Vector ℝ n) (count : ℕ) (w : Vector ℝ n) : Prop where
  solved : ∀ j : Fin n, j.val < count → ∑ i, upperPart t i j * w[i] = z[j]
  pending : ∀ j : Fin n, count ≤ j.val →
    w[j] + ∑ i : Fin n with i.val < count, t[i][j] * w[i] = z[j]

theorem TakesColumns.step {t : Mat ℝ n n} {z w w' : Vector ℝ n} {c : Fin n}
    (h : TakesColumns t z c w) (hbefore : ∀ i, i < c → w'[i] = w[i]) (hat : t[c][c] * w'[c] = w[c])
    (hafter : ∀ i, c < i → w'[i] = w[i] - t[c][i] * w'[c]) : TakesColumns t z (c + 1) w' := by
  have hsum : ∀ j : Fin n, ∑ i : Fin n with i.val < c.val, t[i][j] * w'[i] =
      ∑ i : Fin n with i.val < c.val, t[i][j] * w[i] := by
    intro j
    refine Finset.sum_congr rfl fun i hi => ?_
    rw [hbefore i (Finset.mem_filter.1 hi).2]
  refine ⟨fun j hj => ?_, fun j hj => ?_⟩
  · rcases Nat.lt_succ_iff_lt_or_eq.1 hj with hlt | heq
    · rw [← h.solved j hlt]
      refine Finset.sum_congr rfl fun i _ => ?_
      rcases le_or_gt i j with hij | hji
      · rw [hbefore i (hij.trans_lt hlt)]
      · rw [upperPart_of_lt _ hji, zero_mul, zero_mul]
    · obtain rfl := Fin.ext heq
      rw [sum_upperPart_eq, hat, hsum]
      exact h.pending j le_rfl
  · rw [sum_filter_lt_succ, hsum, hafter j hj, ← h.pending j (Nat.le_of_succ_le hj)]
    ring

theorem sum_upperPart_solveTranspose {a : Attempt ℝ n}
    (hdiagonal : ∀ j : Fin n, a.solution.diagonal[j] ≠ 0) (z : Vector ℝ n) (j : Fin n) :
    ∑ i, upperPart a.solution.s i j * (a.solveTranspose z)[i] = z[j] := by
  have hloop : TakesColumns a.solution.s z n (a.solveTranspose z) := by
    refine foldl_finRange (I := TakesColumns a.solution.s z)
      ⟨fun _ hj => absurd hj (Nat.not_lt_zero _), fun _ _ => by simp⟩ fun c w hw => ?_
    have hne : (if a.solution.diagonal[c] == 0 then Scalar.minNormal else a.solution.diagonal[c]) =
        a.solution.diagonal[c] := if_neg (by simpa using hdiagonal c)
    simp only [hne]
    refine hw.step (fun i hi => ?_) ?_ fun i hi => ?_
    · rw [getElem_ofFn, if_neg hi.asymm, if_neg hi.ne]
    · rw [getElem_ofFn, if_neg (lt_irrefl c), if_pos rfl, DampedSolution.s, Mat.getElem_ofFn,
        if_neg (lt_irrefl c), if_pos rfl, mul_div_cancel₀ _ (hdiagonal c)]
    · rw [getElem_ofFn, getElem_ofFn, if_pos hi, if_neg (lt_irrefl c), if_pos rfl,
        DampedSolution.s, Mat.getElem_ofFn, if_pos hi]
  exact hloop.solved j j.isLt

end Transposed

/-! ### Normal equations in the order of the parameters -/

/-- The triangle `r` and the head of `Qᵗ·f` of the model stand for the normal equations with the
matrix `gram` and the right side `moment`, in the order `order` of the parameters. -/
structure Presents (model : StepModel ℝ n) (r : Mat ℝ n n) (order : Fin n ≃ Fin n)
    (gram : Matrix (Fin n) (Fin n) ℝ) (moment : Fin n → ℝ) : Prop where
  pivot : ∀ j : Fin n, model.pivot[j] = order j
  revealsRank : RevealsRank r
  gram_eq : (upperMatrix r)ᵀ * upperMatrix r = gram.submatrix order order
  moment_eq : (upperMatrix r)ᵀ *ᵥ coords model.qtf = moment ∘ order

noncomputable def dampedGram (gram : Matrix (Fin n) (Fin n) ℝ) (scale : Vector ℝ n) (damping : ℝ) :
    Matrix (Fin n) (Fin n) ℝ :=
  gram + Matrix.diagonal fun a => damping * scale[a] ^ 2

theorem dampedGram_zero (gram : Matrix (Fin n) (Fin n) ℝ) (scale : Vector ℝ n) :
    dampedGram gram scale 0 = gram := by
  simp [dampedGram]

theorem dampedGram_mulVec (gram : Matrix (Fin n) (Fin n) ℝ) (scale : Vector ℝ n) (damping : ℝ)
    (x : Fin n → ℝ) (a : Fin n) :
    (dampedGram gram scale damping *ᵥ x) a =
      ∑ b, gram a b * x b + damping * scale[a] ^ 2 * x a := by
  rw [dampedGram, Matrix.add_mulVec, Pi.add_apply, Matrix.mulVec_diagonal]
  rfl

namespace Presents

variable {model : StepModel ℝ n} {r : Mat ℝ n n} {order : Fin n ≃ Fin n}
  {gram : Matrix (Fin n) (Fin n) ℝ} {moment : Fin n → ℝ}
  (h : model.Presents r order gram moment)

include h

theorem distinct : Distinct model.pivot := by
  intro i j hij
  rw [h.pivot, h.pivot] at hij
  exact order.injective hij

theorem sum_upperPart_mul (i j : Fin n) :
    ∑ l, upperPart r l i * upperPart r l j = gram (order i) (order j) :=
  congrFun (congrFun h.gram_eq i) j

theorem sum_upperPart_qtf (j : Fin n) : ∑ l, upperPart r l j * model.qtf[l] = moment (order j) :=
  congrFun h.moment_eq j

theorem gradientNorm_eq : model.gradientNorm r = √(∑ a, (moment a / model.scale[a]) ^ 2) := by
  have hterm : ∀ j : Fin n, Scalar.sum ((upTo j).map fun i => r[i][j] * model.qtf[i]) =
      moment (order j) := by
    intro j
    rw [sum_eq, sum_map_upTo, ← h.sum_upperPart_qtf]
    symm
    rw [← Finset.sum_subset (Finset.subset_univ (.Iic j))]
    · refine Finset.sum_congr rfl fun i hi => ?_
      rw [upperPart, if_pos (Finset.mem_Iic.1 hi)]
    · intro i _ hi
      rw [upperPart_of_lt r (not_le.1 (mt Finset.mem_Iic.2 hi)), zero_mul]
  rw [gradientNorm, norm_map, ← Fin.sum_univ_def]
  simp only [hterm, h.pivot]
  rw [Equiv.sum_comp order fun a => (moment a / model.scale[a]) ^ 2]

/-- A step that solves the damped normal equations in the order of the columns solves them in the
order of the parameters. -/
theorem solvesNormal_iff (c : ℝ) (x : Vector ℝ n) :
    model.SolvesNormal r c x ↔ dampedGram gram model.scale c *ᵥ coords x = moment := by
  have hrow : ∀ j, ∑ i, (∑ l, upperPart r l j * upperPart r l i) * x[model.pivot[i]] =
      ∑ b, gram (order j) b * x[b] := by
    intro j
    simp only [h.sum_upperPart_mul, h.pivot]
    exact Equiv.sum_comp order fun b => gram (order j) b * x[b]
  constructor
  · intro hnormal
    ext a
    obtain ⟨j, rfl⟩ := order.surjective a
    have hj := hnormal j
    rw [hrow, h.sum_upperPart_qtf, h.pivot] at hj
    rw [dampedGram_mulVec]
    exact hj
  · intro hnormal j
    have hj := congrFun hnormal (order j)
    rw [dampedGram_mulVec] at hj
    rw [hrow, h.sum_upperPart_qtf, h.pivot]
    exact hj

theorem undamped_normal : gram *ᵥ coords (model.undamped r) = moment := by
  rw [← dampedGram_zero gram model.scale, ← h.solvesNormal_iff]
  exact solvesNormal_undamped h.distinct h.revealsRank

theorem undamped_eq_zero_of_moment (hmoment : moment = 0) (e : Fin n) :
    (model.undamped r)[e] = 0 :=
  undamped_eq_zero_of_gradient h.distinct (fun j => by rw [h.sum_upperPart_qtf, hmoment]; rfl) e

/-- A step that is too long has a gradient to follow. -/
theorem gradientNorm_ne_zero (hscale : ∀ a : Fin n, 0 < model.scale[a])
    (hx : model.scaledNorm (model.undamped r) ≠ 0) : model.gradientNorm r ≠ 0 := by
  intro hzero
  apply hx
  rw [scaledNorm_eq_zero_iff hscale]
  refine h.undamped_eq_zero_of_moment (funext fun a => ?_)
  rw [h.gradientNorm_eq, Real.sqrt_eq_zero (Finset.sum_nonneg fun _ _ => sq_nonneg _),
    Finset.sum_eq_zero_iff_of_nonneg fun _ _ => sq_nonneg _] at hzero
  have hterm := sq_eq_zero_iff.1 (hzero a (Finset.mem_univ a))
  exact (div_eq_zero_iff.1 hterm).resolve_right (hscale a).ne'

section FullRank

variable (hrank : rank r = n)

include hrank

omit h in
theorem isUnit_upperMatrix : IsUnit (upperMatrix r) := by
  refine isUnit_of_diagonal fun j => diagonal_ne_zero_of_lt_rank ?_
  rw [hrank]
  exact j.isLt

theorem isUnit_gram : IsUnit gram := isUnit_of_factor (isUnit_upperMatrix hrank) h.gram_eq

theorem euclid_solveTransposed {z : Vector ℝ n} {v y : Fin n → ℝ}
    (hz : ∀ j : Fin n, z[j] = v (order j)) (hy : gram *ᵥ y = v) :
    euclid (solveTransposed r z) ^ 2 = v ⬝ᵥ y := by
  rw [euclid_sq_eq_dotProduct]
  refine dotProduct_of_transposed (isUnit_upperMatrix hrank) h.gram_eq ?_ hy
  ext j
  rw [Function.comp_apply, ← hz]
  refine sum_upperPart_solveTransposed (fun j => diagonal_ne_zero_of_lt_rank ?_) z j
  rw [hrank]
  exact j.isLt

end FullRank

/-! ### Attempts -/

section Attempts

variable {s : Search ℝ n} (hs : s.Sound r) (hscale : ∀ e : Fin n, 0 < model.scale[e])

include hs hscale

theorem attempt_normal (radius : ℝ) : dampedGram gram model.scale s.candidate *ᵥ
    coords (s.attempt model radius).solution.x = moment :=
  (h.solvesNormal_iff _ _).1 (hs.attempt_normal radius h.distinct hscale)

theorem attempt_factor (radius : ℝ) :
    (∀ j : Fin n, (s.attempt model radius).solution.diagonal[j] ≠ 0) ∧
      (s.attempt model radius).solution.s.toMatrixᵀ * (s.attempt model radius).solution.s.toMatrix =
        (dampedGram gram model.scale s.candidate).submatrix order order := by
  have hroot : 0 < √s.candidate := Real.sqrt_pos.2 hs.candidate_pos
  have hworkspace : upperMatrix s.workspace = upperMatrix r := by
    ext i j
    exact hs.workspace i j
  have hdiagonal : (Matrix.diagonal fun j : Fin n =>
      (model.scale.map fun d => √s.candidate * d)[model.pivot[j]] ^ 2) =
        (Matrix.diagonal fun a => s.candidate * model.scale[a] ^ 2).submatrix order order := by
    rw [Matrix.submatrix_diagonal_equiv]
    congr 1
    ext j
    rw [Function.comp_apply, getElem_map, mul_pow, Real.sq_sqrt hs.candidate_pos.le, h.pivot]
  constructor
  · refine fun j => diagonal_dampedSolve_ne_zero s.workspace _ model.qtf ?_
    rw [getElem_map]
    exact (mul_pos hroot (hscale _)).ne'
  · refine (transpose_s_mul_s s.workspace _ _ _).trans ?_
    rw [hworkspace, h.gram_eq]
    exact congrArg (gram.submatrix order order + ·) hdiagonal

theorem isUnit_dampedGram : IsUnit (dampedGram gram model.scale s.candidate) := by
  obtain ⟨hdiagonal, hfactor⟩ := h.attempt_factor hs hscale 0
  exact isUnit_of_factor (isUnit_s hdiagonal) hfactor

theorem euclid_solveTranspose {radius : ℝ} {z : Vector ℝ n} {v y : Fin n → ℝ}
    (hz : ∀ j : Fin n, z[j] = v (order j))
    (hy : dampedGram gram model.scale s.candidate *ᵥ y = v) :
    euclid ((s.attempt model radius).solveTranspose z) ^ 2 = v ⬝ᵥ y := by
  obtain ⟨hdiagonal, hfactor⟩ := h.attempt_factor hs hscale radius
  rw [euclid_sq_eq_dotProduct]
  refine dotProduct_of_transposed (isUnit_s hdiagonal) hfactor ?_ hy
  ext j
  rw [Function.comp_apply, ← hz, ← upperMatrix_s]
  exact sum_upperPart_solveTranspose hdiagonal z j

end Attempts

end Presents

end StepModel

end LeastSquares
