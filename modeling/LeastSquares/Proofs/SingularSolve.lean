import LeastSquares.Proofs.DampedSquares
import LeastSquares.Proofs.Elimination
import LeastSquares.Proofs.ProportionalRows

/-!
The damped solve where `S` is singular, in exact arithmetic. The back substitution stops at the first
zero on the diagonal of `S`, and every component from there on is zero. So what comes out is the best
of the vectors that vanish there. It is the best of all if only zeros follow on the diagonal, for
then `S` has nothing but zero rows from there on; where a zero is followed by another entry it need
not be, and an example shows by how much it can be missed.
-/

namespace LeastSquares

open Matrix

variable {m n : ℕ}

/-! ### Rows that vanish -/

namespace DampedSolve.Stage

variable {s : Stage ℝ n} {j k : Fin n}

/-- A zero on the diagonal stands in a row of zeros. -/
def Collapses (s : Stage ℝ n) (count : ℕ) : Prop :=
  ∀ l, s.triangle count l l = 0 → ∀ i, s.triangle count l i = 0

theorem Collapses.rotate (h : s.Collapses j) (hjk : j ≤ k) : (s.rotate k).Collapses j := by
  by_cases hrow : s.row[k] = 0
  · rwa [rotate_of_eq hrow]
  · intro l hl i
    rw [triangle_rotate hrow hjk] at hl ⊢
    by_cases heq : l = k
    · -- a rotation leaves no zero on the diagonal
      rw [if_pos heq, heq, triangle_self_of_le hjk, pending_of_le le_rfl] at hl
      exact absurd hl (Rotation.first_clearing_ne_zero hrow)
    · rw [if_neg heq] at hl ⊢
      exact h l hl i

theorem Collapses.eliminate (h : s.Collapses j) (d entry : ℝ) :
    (s.eliminate j d entry).Collapses (j + 1) := by
  have hkept : ∀ t : Stage ℝ n, t.Collapses j → Collapses
      { t with row := put t.row j t.r[j][j], r := t.r.setEntry j j entry } (j + 1) := by
    intro t ht l hl i
    rw [triangle_keep] at hl ⊢
    exact ht l hl i
  have hloaded : (s.load j d).Collapses j := by
    intro l hl i
    rw [triangle_load] at hl ⊢
    exact h l hl i
  refine hkept _ ?_
  split
  · exact foldl_starting (I := fun _ (t : Stage ℝ n) => t.Collapses j) hloaded
      fun _ hk _ ht => ht.rotate hk
  · exact h

theorem collapses_foldl {r : Mat ℝ n n} (hrank : StepModel.RevealsRank r) (d : Fin n → ℝ)
    (b : Vector ℝ n) :
    ((List.finRange n).foldl (fun s j => s.eliminate j (d j) r[j][j])
      ⟨mirror r, b, Vector.replicate n 0, 0⟩ : Stage ℝ n).Collapses n := by
  refine foldl_finRange (I := fun count (s : Stage ℝ n) => s.Collapses count) ?_
    fun _ _ h => h.eliminate _ _
  intro l hl i
  rw [triangle_start] at hl ⊢
  rw [upperPart_self] at hl
  exact hrank l l i hl le_rfl

theorem triangle_foldl_of_eq_zero (r : Mat ℝ n n) {d : Fin n → ℝ} (hd : ∀ j, d j = 0)
    (b : Vector ℝ n) (l i : Fin n) :
    ((List.finRange n).foldl (fun s j => s.eliminate j (d j) r[j][j])
      ⟨mirror r, b, Vector.replicate n 0, 0⟩ : Stage ℝ n).triangle n l i = upperPart r l i := by
  refine foldl_finRange (I := fun count (s : Stage ℝ n) => s.triangle count l i = upperPart r l i)
    (triangle_start r b l i) fun j s hs => ?_
  rw [Stage.eliminate, if_neg (by simpa using hd j)]
  exact (triangle_keep _ l i).trans hs

end DampedSolve.Stage

section Solve

variable {r : Mat ℝ n n} {pivot : Vector (Fin n) n} {damping qtb : Vector ℝ n}

/-- If every zero on the diagonal of `R` stands in a row of zeros, every one on that of `S` does. -/
theorem s_eq_zero (hrank : StepModel.RevealsRank r) {l : Fin n}
    (h : (dampedSolve r pivot damping qtb).diagonal[l] = 0) (i : Fin n) :
    (dampedSolve r pivot damping qtb).s[l][i] = 0 := by
  have hcollapses := DampedSolve.Stage.collapses_foldl hrank (fun j => damping[pivot[j]]) qtb
  have hrow := hcollapses l ((DampedSolve.Stage.triangle_self_of_lt l.isLt).trans h) i
  exact (getElem_s _ _ l i).trans hrow

/-- Without damping `S` is `R`, so that only zeros follow the first zero on its diagonal. -/
theorem diagonal_eq_zero_of_undamped (hrank : StepModel.RevealsRank r)
    (hdamping : ∀ e : Fin n, damping[e] = 0) {j : Fin n}
    (h : ¬ (dampedSolve r pivot damping qtb).Reaches j) :
    (dampedSolve r pivot damping qtb).diagonal[j] = 0 := by
  have hdiagonal : ∀ l : Fin n, (dampedSolve r pivot damping qtb).diagonal[l] = r[l][l] := by
    intro l
    have htriangle :=
      DampedSolve.Stage.triangle_foldl_of_eq_zero r (fun j => hdamping pivot[j]) qtb l l
    rw [upperPart_self] at htriangle
    exact (s_self _ l).symm.trans ((getElem_s _ _ l l).trans htriangle)
  simp only [DampedSolution.Reaches, not_forall, not_not] at h
  obtain ⟨i, hij, hzero⟩ := h
  rw [hdiagonal] at hzero ⊢
  rw [← upperPart_self]
  exact hrank i j j hzero hij

/-- The triangular system of `S` determines the components that the back substitution reaches. -/
theorem eq_zero_of_s (solution : DampedSolution ℝ n) {z : Fin n → ℝ}
    (hsolved : solution.s.toMatrix *ᵥ z = 0) (hzero : ∀ j, ¬ solution.Reaches j → z j = 0) :
    z = 0 := by
  refine funext fun l => eq_zero_of_triangle solution.s (solution.diagonal.toList.findIdx (· == 0))
    (fun l hl => ?_) (fun l _ => ?_) (fun l hl => ?_) l
  · rw [s_self]
    exact DampedSolve.lt_findIdx_iff.1 hl l le_rfl
  · rw [← upperMatrix_s] at hsolved
    exact congrFun hsolved l
  · exact hzero l fun hreaches => absurd (DampedSolve.lt_findIdx_iff.2 hreaches) (not_lt.2 hl)

end Solve

/-! ### What is minimized -/

/-- What a solution minimizes: it is the best among the vectors whose components from the first zero
on the diagonal of `S` on vanish, for the matrix `a`, the right-hand side `b` and the diagonal
`damping`. -/
structure DampedSolution.MinimizesReached (solution : DampedSolution ℝ n) (pivot : Vector (Fin n) n)
    (a : Mat ℝ m n) (b : Vector ℝ m) (damping : Vector ℝ n) : Prop where
  zero : ∀ j, ¬ solution.Reaches j → solution.x[pivot[j]] = 0
  minimal : ∀ y : Vector ℝ n, (∀ j, ¬ solution.Reaches j → y[pivot[j]] = 0) →
    dampedSquares a b 1 damping solution.x ≤ dampedSquares a b 1 damping y
  unique : ∀ y : Vector ℝ n, (∀ j, ¬ solution.Reaches j → y[pivot[j]] = 0) →
    dampedSquares a b 1 damping y ≤ dampedSquares a b 1 damping solution.x → y = solution.x
  /-- It is the best of all vectors exactly if the gradient of `‖A·x - b‖²` vanishes there. -/
  minimal_iff : (∀ y, dampedSquares a b 1 damping solution.x ≤ dampedSquares a b 1 damping y) ↔
    ∀ j, ¬ solution.Reaches j →
      (a.toMatrixᵀ *ᵥ (a.toMatrix *ᵥ coords solution.x - coords b)) pivot[j] = 0
  /-- It is the best of all vectors if nothing but zeros follows on the diagonal of `S`. -/
  trailing : (∀ j, ¬ solution.Reaches j → solution.diagonal[j] = 0) →
    ∀ y, dampedSquares a b 1 damping solution.x ≤ dampedSquares a b 1 damping y
  undamped : (∀ e : Fin n, damping[e] = 0) →
    ∀ y, dampedSquares a b 1 damping solution.x ≤ dampedSquares a b 1 damping y

namespace PivotedQR

section Factor

variable {a : Mat ℝ m n} {tall : n ≤ m} {r : Mat ℝ n n} {b : Vector ℝ m} {damping : Vector ℝ n}
  {solution : DampedSolution ℝ n}
  (hr : ∀ i j, upperPart r i j = upperPart (factor a tall).workspace i j)
  (hsolution : solution =
    dampedSolve r (factor a tall).pivot damping ((factor a tall).project b))

include hsolution

theorem x_eq_zero {j : Fin n} (h : ¬ solution.Reaches j) :
    solution.x[(factor a tall).pivot[j]] = 0 := by
  rw [hsolution] at h ⊢
  exact dampedSolve_eq_zero r damping _ (distinct_factor a tall) h

include hr

/-- Beyond its slopes the damped sum of squares is the length of the product with `S`. -/
theorem dampedForm_eq (δ : Fin n → ℝ) : dampedForm a 1 damping δ =
    (solution.s.toMatrix *ᵥ (δ ∘ exchanges a tall)) ⬝ᵥ
      (solution.s.toMatrix *ᵥ (δ ∘ exchanges a tall)) := by
  have hdiagonal : (δ ∘ exchanges a tall) ⬝ᵥ
      ((Matrix.diagonal fun j => damping[(factor a tall).pivot[j]] ^ 2) *ᵥ (δ ∘ exchanges a tall)) =
        ∑ e, (damping[e] * δ e) ^ 2 := by
    rw [← Equiv.sum_comp (exchanges a tall)]
    refine Finset.sum_congr rfl fun j _ => ?_
    rw [mulVec_diagonal, mul_pow]
    change δ (exchanges a tall j) * (damping[exchanges a tall j] ^ 2 * δ (exchanges a tall j)) = _
    ring
  rw [hsolution, mulVec_dotProduct_mulVec, mulVec_mulVec, transpose_s_mul_s, add_mulVec,
    dotProduct_add, hdiagonal, transpose_upperMatrix_mul a tall hr, submatrix_mulVec_equiv,
    Function.comp_assoc, Equiv.self_comp_symm, Function.comp_id, comp_equiv_dotProduct_comp_equiv,
    ← mulVec_mulVec, ← mulVec_dotProduct_mulVec, dampedForm, one_mul]

/-- A slope vanishes if the rows of `S` that are not reached have no entry in its column. -/
theorem dampedSlope_of_entries {j : Fin n} (h : ∀ l, solution.Reaches l ∨ solution.s[l][j] = 0) :
    dampedSlope a b 1 damping solution.x (factor a tall).pivot[j] = 0 := by
  rw [hsolution] at h ⊢
  have hnormal := dampedSolve_normal_of r damping _ (distinct_factor a tall) h
  rw [dampedSlope_pivot a tall hr, one_mul, hnormal, sub_self]

theorem dampedSlope_of_reaches {j : Fin n} (h : solution.Reaches j) :
    dampedSlope a b 1 damping solution.x (factor a tall).pivot[j] = 0 := by
  rw [hsolution] at h ⊢
  have hnormal := dampedSolve_normal_of_reaches r damping _ (distinct_factor a tall) h
  rw [dampedSlope_pivot a tall hr, one_mul, hnormal, sub_self]

/-- Where a component is free to vary, the slope vanishes. -/
theorem dampedSlope_eq_zero_or_eq {y : Vector ℝ n}
    (hy : ∀ j, ¬ solution.Reaches j → y[(factor a tall).pivot[j]] = 0) (e : Fin n) :
    dampedSlope a b 1 damping solution.x e = 0 ∨ y[e] = solution.x[e] := by
  obtain ⟨j, rfl⟩ := (exchanges a tall).surjective e
  by_cases hj : solution.Reaches j
  · exact .inl (dampedSlope_of_reaches hr hsolution hj)
  · exact .inr ((hy j hj).trans (x_eq_zero hsolution hj).symm)

/-- A vector that is as good, and vanishes where the solution does, has the same product with `S`. -/
theorem eq_of_dampedSquares_le {y : Vector ℝ n}
    (hy : ∀ j, ¬ solution.Reaches j → y[(factor a tall).pivot[j]] = 0)
    (h : dampedSquares a b 1 damping y ≤ dampedSquares a b 1 damping solution.x) :
    y = solution.x := by
  rw [dampedSquares_of_slopes (dampedSlope_eq_zero_or_eq hr hsolution hy),
    dampedForm_eq hr hsolution] at h
  have hproduct : solution.s.toMatrix *ᵥ ((coords y - coords solution.x) ∘ exchanges a tall) = 0 :=
    dotProduct_self_eq_zero.1 (le_antisymm (by linarith) (dotProduct_self_nonneg _))
  have hsame := eq_zero_of_s solution hproduct fun j hj =>
    sub_eq_zero.2 ((hy j hj).trans (x_eq_zero hsolution hj).symm)
  exact eq_of_pivot (distinct_factor a tall) fun j => sub_eq_zero.1 (congrFun hsame j)

theorem dampedSquares_minimal_iff_gradient :
    (∀ y, dampedSquares a b 1 damping solution.x ≤ dampedSquares a b 1 damping y) ↔
      ∀ j, ¬ solution.Reaches j →
        (a.toMatrixᵀ *ᵥ (a.toMatrix *ᵥ coords solution.x - coords b)) (factor a tall).pivot[j] =
          0 := by
  -- the damping does not contribute to the slope of a component that is zero
  have hrest : ∀ j, ¬ solution.Reaches j →
      dampedSlope a b 1 damping solution.x (factor a tall).pivot[j] =
        (a.toMatrixᵀ *ᵥ (a.toMatrix *ᵥ coords solution.x - coords b)) (factor a tall).pivot[j] := by
    intro j hj
    rw [dampedSlope, x_eq_zero hsolution hj, mul_zero, add_zero]
  rw [dampedSquares_minimal_iff zero_le_one]
  constructor
  · intro h j hj
    rw [← hrest j hj, h]
  · intro h e
    obtain ⟨j, rfl⟩ := (exchanges a tall).surjective e
    by_cases hj : solution.Reaches j
    · exact dampedSlope_of_reaches hr hsolution hj
    · exact (hrest j hj).trans (h j hj)

theorem dampedSquares_le_of_trailing (h : ∀ j, ¬ solution.Reaches j → solution.diagonal[j] = 0)
    (y : Vector ℝ n) : dampedSquares a b 1 damping solution.x ≤ dampedSquares a b 1 damping y := by
  refine (dampedSquares_minimal_iff zero_le_one).2 (fun e => ?_) y
  obtain ⟨j, rfl⟩ := (exchanges a tall).surjective e
  refine dampedSlope_of_entries hr hsolution fun l => or_iff_not_imp_left.2 fun hl => ?_
  have hdiagonal := h l hl
  rw [hsolution] at hdiagonal ⊢
  exact s_eq_zero (revealsRank_of_upperPart a tall hr) hdiagonal j

theorem minimizesReached : solution.MinimizesReached (factor a tall).pivot a b damping where
  zero _ := x_eq_zero hsolution
  minimal _ hy := dampedSquares_le zero_le_one (dampedSlope_eq_zero_or_eq hr hsolution hy)
  unique _ := eq_of_dampedSquares_le hr hsolution
  minimal_iff := dampedSquares_minimal_iff_gradient hr hsolution
  trailing := dampedSquares_le_of_trailing hr hsolution
  undamped hdamping := by
    refine dampedSquares_le_of_trailing hr hsolution fun j hj => ?_
    rw [hsolution] at hj ⊢
    exact diagonal_eq_zero_of_undamped (revealsRank_of_upperPart a tall hr) hdamping hj

end Factor

/-- For every matrix that is not wider than it is tall, every vector and every diagonal, the damped
solve with what the factorization leaves gives the best of the vectors that it reaches, and no other
of these is as good. It is the best of all vectors exactly if the gradient vanishes in the rest, and
in particular if nothing but zeros follows on the diagonal of `S`, as is the case without damping. -/
theorem dampedSolve_minimizes_reached (a : Mat ℝ m n) (tall : n ≤ m) :
    ∃ qr, factor? a = .ok qr ∧ ∀ (b : Vector ℝ m) (damping : Vector ℝ n), ∃ triangle head,
      qr.toTriangle? b.toArray = .ok (triangle, head) ∧
        (dampedSolve triangle.r triangle.pivot damping head).MinimizesReached triangle.pivot a b
          damping :=
  ⟨factor a tall, factor?_eq_ok a tall, fun b _ => ⟨_, _, toTriangle?_toArray _ b,
    minimizesReached (fun _ _ => rfl) rfl⟩⟩

/-- A matrix of rank one whose second column vanishes. -/
noncomputable def interleaved : Mat ℝ 3 3 := #v[#v[2, 0, 1], #v[0, 0, 0], #v[0, 0, 0]]

theorem dampedSolve_minimizes_reached_interleaved :
    3 ≤ 3 ∧ ∃ qr, factor? interleaved = .ok qr ∧ ∀ (b : Vector ℝ 3) (damping : Vector ℝ 3),
      ∃ triangle head, qr.toTriangle? b.toArray = .ok (triangle, head) ∧
        (dampedSolve triangle.r triangle.pivot damping head).MinimizesReached triangle.pivot
          interleaved b damping :=
  ⟨by decide, dampedSolve_minimizes_reached interleaved (by decide)⟩

namespace Interleaved

open Stage

def row : Fin 3 → ℝ := ![2, 0, 1]

theorem dot_column (i j : Fin 3) :
    dot (interleaved.column i) (interleaved.column j) = row i * row j := by
  rw [dot_eq, Fin.sum_univ_three]
  simp only [Mat.getElem_column]
  fin_cases i <;> fin_cases j <;> simp [interleaved, row, getElem_eq_val]

theorem row_sq_le (k : Fin 3) : row k * row k ≤ row 0 * row 0 := by
  fin_cases k <;> norm_num [row]

/-- Once the first column is cleared, nothing is left of the others. -/
theorem tail_one (hpivot : ∀ k : Fin 3, (afterSteps interleaved le_rfl 1).pivot[k] = k) {k : Fin 3}
    (hk : 1 ≤ k.val) : (afterSteps interleaved le_rfl 1).tail 1 k = 0 := by
  obtain ⟨hreduces, -⟩ := reduces_afterSteps interleaved le_rfl (by decide : 1 ≤ 3)
  set image := imageAt le_rfl (afterSteps interleaved le_rfl 1) 1 with himage
  have hproduct : ∀ k, image 0 0 * image 0 k = 2 * row k := by
    intro k
    have hstairs := hreduces.staircase.product 0 (by decide) k
    rw [hpivot, hpivot, dot_column] at hstairs
    exact (Finset.sum_singleton _ _).symm.trans hstairs
  have hsquare : image 0 k ^ 2 = row k * row k := by
    have hfirst : image 0 0 * image 0 0 = 4 := (hproduct 0).trans (by norm_num [row])
    have hproducts : (image 0 0 * image 0 0) * image 0 k ^ 2 = 4 * (row k * row k) := by
      linear_combination (image 0 0 * image 0 k + 2 * row k) * hproduct k
    rw [hfirst] at hproducts
    linarith
  rw [hreduces.tail_eq_sub hk, hpivot, dot_column, ← hsquare, sub_eq_zero]
  exact (Finset.sum_singleton _ _).symm

theorem pivot_eq (k : Fin 3) : (factor interleaved le_rfl).pivot[k] = k := by
  have hzero : ∀ k : Fin 3, (afterSteps interleaved le_rfl 0).pivot[k] = k := by
    intro k
    change (Vector.finRange 3)[k] = k
    fin_cases k <;> rfl
  have hone : ∀ k : Fin 3, (afterSteps interleaved le_rfl 1).pivot[k] = k := by
    intro k
    rw [pivot_afterSteps_succ interleaved le_rfl (by decide) fun k hk => ?_]
    · exact hzero k
    · obtain ⟨hreduces, -⟩ := reduces_afterSteps interleaved le_rfl (by decide : 0 ≤ 3)
      rw [hreduces.tail_eq_sub hk, hreduces.tail_eq_sub le_rfl, hzero, hzero, dot_column, dot_column]
      simpa using row_sq_le k
  have htwo : ∀ k : Fin 3, (afterSteps interleaved le_rfl 2).pivot[k] = k := by
    intro k
    rw [pivot_afterSteps_succ interleaved le_rfl (by decide) fun k hk => ?_]
    · exact hone k
    · rw [tail_one hone hk, tail_one hone le_rfl]
  rw [pivot_factor, pivot_afterSteps_succ interleaved le_rfl (by decide) fun k hk => ?_]
  · exact htwo k
  · have hlast : k = 2 := by omega
    rw [hlast]
    rfl

theorem squares_eq (x : Vector ℝ 3) : dampedSquares interleaved #v[1, 0, 0] 1 #v[1, 0, 0] x =
    (2 * x[(0 : Fin 3)] + x[(2 : Fin 3)] - 1) ^ 2 + x[(0 : Fin 3)] ^ 2 := by
  have himage : ∀ i : Fin 3, (interleaved.toMatrix *ᵥ coords x - coords #v[1, 0, 0]) i =
      if i = 0 then 2 * x[(0 : Fin 3)] + x[(2 : Fin 3)] - 1 else 0 := by
    intro i
    rw [Pi.sub_apply, mulVec, dotProduct, Fin.sum_univ_three]
    fin_cases i <;> simp [interleaved, getElem_eq_val]
  have hscaled : euclid (scaleBy #v[1, 0, 0] x) ^ 2 = x[(0 : Fin 3)] ^ 2 := by
    rw [euclid_sq, Fin.sum_univ_three, getElem_scaleBy, getElem_scaleBy, getElem_scaleBy]
    simp [getElem_eq_val]
  rw [dampedSquares, hscaled, dotProduct, Fin.sum_univ_three, himage, himage, himage]
  simp [← pow_two]

/-- The vanishing second column makes the second entry on the diagonal of `S` zero. -/
theorem diagonal_eq_zero (head : Vector ℝ 3) :
    (dampedSolve (factor interleaved le_rfl).workspace (factor interleaved le_rfl).pivot #v[1, 0, 0]
      head).diagonal[(1 : Fin 3)] = 0 := by
  have hcolumn := sum_s_mul (factor interleaved le_rfl).workspace #v[1, 0, 0] head
    (factor interleaved le_rfl).pivot 1 1
  have hzero : dot (interleaved.column (1 : Fin 3)) (interleaved.column (1 : Fin 3)) +
      (if (1 : Fin 3) = 1 then (#v[1, 0, 0] : Vector ℝ 3)[(1 : Fin 3)] ^ 2 else 0) = 0 := by
    rw [dot_column]
    simp [row, getElem_eq_val]
  rw [sum_upperPart_mul, pivot_eq, hzero,
    Finset.sum_eq_zero_iff_of_nonneg fun _ _ => mul_self_nonneg _] at hcolumn
  rw [← s_self]
  exact mul_self_eq_zero.1 (hcolumn 1 (Finset.mem_univ _))

end Interleaved

/-- A zero on the diagonal of `S` before its last entry keeps the solve from a minimum: the vector
`0, 0, 1` is better than what it returns. -/
theorem exists_dampedSolve_above_minimum :
    ∃ qr, factor? interleaved = .ok qr ∧ ∃ triangle head,
      qr.toTriangle? #[1, 0, 0] = .ok (triangle, head) ∧
        (dampedSolve triangle.r triangle.pivot #v[1, 0, 0] head).diagonal[(1 : Fin 3)] = 0 ∧
        dampedSquares interleaved #v[1, 0, 0] 1 #v[1, 0, 0] #v[0, 0, 1] <
          dampedSquares interleaved #v[1, 0, 0] 1 #v[1, 0, 0]
            (dampedSolve triangle.r triangle.pivot #v[1, 0, 0] head).x := by
  refine ⟨factor interleaved le_rfl, factor?_eq_ok _ _, _, _, toTriangle?_toArray _ #v[1, 0, 0],
    Interleaved.diagonal_eq_zero _, ?_⟩
  set head := (factor interleaved le_rfl).project #v[1, 0, 0]
  set solution := dampedSolve (factor interleaved le_rfl).workspace
    (factor interleaved le_rfl).pivot #v[1, 0, 0] head with hsolution
  have hlast : solution.x[(2 : Fin 3)] = 0 := by
    have hunreached : ¬ solution.Reaches 2 := fun h =>
      h 1 (by decide) (Interleaved.diagonal_eq_zero head)
    rw [← Interleaved.pivot_eq 2]
    exact dampedSolve_eq_zero _ _ _ (distinct_factor interleaved le_rfl) hunreached
  have hbest : dampedSquares interleaved #v[1, 0, 0] 1 #v[1, 0, 0] #v[0, 0, 1] = 0 := by
    rw [Interleaved.squares_eq]
    simp [getElem_eq_val]
  change _ < dampedSquares interleaved #v[1, 0, 0] 1 #v[1, 0, 0] solution.x
  rw [hbest, Interleaved.squares_eq, hlast]
  nlinarith [sq_nonneg (5 * solution.x[(0 : Fin 3)] - 2)]

end PivotedQR

end LeastSquares
