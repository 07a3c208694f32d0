import LeastSquares.Proofs.ColumnProducts
import LeastSquares.Proofs.Covariance

/-!
Triangles whose rows are proportional up to their signs, as those are that belong to proportional
products of columns. Neither the undamped step nor the covariance sees the signs: the step is the
same, and the covariance is divided by the square of the factor, with the same rank at every
tolerance, also where the triangle is singular.
-/

namespace LeastSquares

variable {m n : ℕ} {ε : Fin n → ℝ} {γ : ℝ} {r r' : Mat ℝ n n}

/-- The rows of `r'` are those of `r` times `γ`, with the signs `ε`. -/
structure ProportionalRows (ε : Fin n → ℝ) (γ : ℝ) (r r' : Mat ℝ n n) : Prop where
  sign : ∀ l, ε l ^ 2 = 1
  row : ∀ l k, upperPart r' l k = ε l * (γ * upperPart r l k)

namespace ProportionalRows

variable (h : ProportionalRows ε γ r r')

include h

theorem sign_ne_zero (l : Fin n) : ε l ≠ 0 := by
  intro hzero
  have hsign := h.sign l
  rw [hzero] at hsign
  norm_num at hsign

theorem getElem {i j : Fin n} (hij : i ≤ j) : r'[i][j] = ε i * (γ * r[i][j]) := by
  have hrow := h.row i j
  rwa [upperPart, upperPart, if_pos hij, if_pos hij] at hrow

theorem self_eq_zero (hγ : 0 < γ) (l : Fin n) : r'[l][l] = 0 ↔ r[l][l] = 0 := by
  rw [h.getElem le_rfl, mul_eq_zero, mul_eq_zero, or_iff_right (h.sign_ne_zero l),
    or_iff_right hγ.ne']

/-! ### Without damping -/

theorem rank_eq (hγ : 0 < γ) : StepModel.rank r' = StepModel.rank r := by
  simp only [StepModel.rank, toList_eq_map, List.findIdx_map]
  congr 1
  funext l
  rw [Function.comp_apply, Function.comp_apply, Mat.diagonal, Mat.diagonal, getElem_ofFn,
    getElem_ofFn, Bool.eq_iff_iff, beq_iff_eq, beq_iff_eq]
  exact h.self_eq_zero hγ l

end ProportionalRows

/-- A triangular system without zeros on its diagonal determines the components below `rank`. -/
theorem eq_zero_of_triangle (r : Mat ℝ n n) (rank : ℕ) {z : Fin n → ℝ}
    (hdiagonal : ∀ l : Fin n, l.val < rank → r[l][l] ≠ 0)
    (hsolved : ∀ l : Fin n, l.val < rank → ∑ i, upperPart r l i * z i = 0)
    (hzero : ∀ l : Fin n, rank ≤ l.val → z l = 0) (l : Fin n) : z l = 0 := by
  -- downwards, as row `l` holds component `l` and later ones only
  induction l using WellFoundedGT.induction with
  | _ l ih =>
    rcases lt_or_ge l.val rank with hlt | hge
    · have hrow := hsolved l hlt
      rw [Finset.sum_eq_single_of_mem l (Finset.mem_univ l), upperPart_self] at hrow
      · exact (mul_eq_zero.1 hrow).resolve_left (hdiagonal l hlt)
      · intro i _ hne
        rcases lt_or_gt_of_ne hne with hil | hli
        · rw [upperPart_of_lt r hil, zero_mul]
        · rw [ih i hli, mul_zero]
    · exact hzero l hge

namespace StepModel

variable {model model' : StepModel ℝ n}

theorem diagonal_ne_zero_of_lt_rank {l : Fin n} (hl : l.val < rank r) : r[l][l] ≠ 0 := by
  have hne := DampedSolve.ne_zero_of_lt_findIdx hl
  rwa [Mat.diagonal, getElem_ofFn] at hne

/-- The step without damping sees neither the factor nor the signs. -/
theorem undamped_of_rows (hγ : 0 < γ) (h : ProportionalRows ε γ r r')
    (hqtf : ∀ l : Fin n, r[l][l] ≠ 0 → model'.qtf[l] = ε l * (γ * model.qtf[l]))
    (hpivot : model'.pivot = model.pivot) : model'.undamped r' = model.undamped r := by
  have hsolves := subtracts_solveTriangle model r
  have hsolves' := subtracts_solveTriangle model' r'
  rw [h.rank_eq hγ] at hsolves'
  have hsame : ∀ l : Fin n, (model'.solveTriangle r')[l] - (model.solveTriangle r)[l] = 0 := by
    refine eq_zero_of_triangle r (rank r)
      (fun _ hl => diagonal_ne_zero_of_lt_rank hl) (fun l hl => ?_) fun l hl => ?_
    · have hrow' : ε l * γ * ∑ i, upperPart r l i * (model'.solveTriangle r')[i] =
          ε l * γ * model.qtf[l] := by
        rw [Finset.mul_sum, mul_assoc (ε l), ← hqtf l (diagonal_ne_zero_of_lt_rank hl),
          ← hsolves'.solved l (Nat.zero_le _) hl]
        refine Finset.sum_congr rfl fun i _ => ?_
        rw [h.row]
        ring
      have hrow := mul_left_cancel₀ (mul_ne_zero (h.sign_ne_zero l) hγ.ne') hrow'
      simp only [mul_sub, Finset.sum_sub_distrib]
      rw [hrow, hsolves.solved l (Nat.zero_le _) hl, sub_self]
    · rw [hsolves'.zero l hl, hsolves.zero l hl, sub_self]
  rw [undamped, undamped, hpivot]
  congr 1
  exact ext_getElem fun l => sub_eq_zero.1 (hsame l)

end StepModel

namespace Covariance

/-- The columns before `count` are inverted, with the signs on the columns, and the others are as
they were, with the signs on the rows. -/
structure InvertsAlike (ε : Fin n → ℝ) (γ : ℝ) (count : ℕ) (a a' : Mat ℝ n n) : Prop where
  done : ∀ i j : Fin n, j.val < count → upperPart a' i j = ε j / γ * upperPart a i j
  pending : ∀ i j : Fin n, i ≤ j → count ≤ j.val → a'[i][j] = ε i * (γ * a[i][j])

theorem InvertsAlike.step {a a' : Mat ℝ n n} {c : Fin n} (hγ : 0 < γ) (hsign : ∀ l, ε l ^ 2 = 1)
    (h : InvertsAlike ε γ c a a') :
    InvertsAlike ε γ (c + 1) (invertColumn a c) (invertColumn a' c) := by
  have hrows := invertsRows_invertColumn a c
  have hrows' := invertsRows_invertColumn a' c
  have hreciprocal : 1 / a'[c][c] = ε c / γ * (1 / a[c][c]) := by
    have hinverse : (ε c)⁻¹ = ε c := inv_eq_of_mul_eq_one_left (by rw [← pow_two, hsign])
    rw [h.pending c c le_rfl le_rfl, one_div, mul_inv, mul_inv, hinverse]
    ring
  have hcolumn : ∀ i, i ≤ c → ((invertColumn a' c).column c)[i] =
      ε c / γ * ((invertColumn a c).column c)[i] := by
    intro i hi
    rcases hi.lt_or_eq with hlt | rfl
    · have hsum : ∑ l : Fin n with l.val < c.val, upperPart a' i l * a'[l][c] =
          ∑ l : Fin n with l.val < c.val, upperPart a i l * a[l][c] := by
        refine Finset.sum_congr rfl fun l hl => ?_
        have hlc : l < c := (Finset.mem_filter.1 hl).2
        rw [h.done i l hlc, h.pending l c hlc.le le_rfl]
        have hγ' := hγ.ne'
        field_simp
        linear_combination upperPart a i l * a[l][c] * hsign l
      rw [hrows.done i hlt, hrows'.done i hlt, hsum, hreciprocal]
      ring
    · rw [hrows.diagonal, hrows'.diagonal, hreciprocal]
  refine ⟨fun i j hj => ?_, fun i j hij hj => ?_⟩
  · rcases Nat.lt_succ_iff_lt_or_eq.1 hj with hlt | heq
    · have hne : j ≠ c := (Fin.lt_def.2 hlt).ne
      simp only [upperPart, getElem_invertColumn_of_ne _ hne]
      exact h.done i j hlt
    · obtain rfl := Fin.ext heq
      rcases le_or_gt i j with hij | hji
      · have hentry := hcolumn i hij
        rw [Mat.getElem_column, Mat.getElem_column] at hentry
        rw [upperPart, upperPart, if_pos hij, if_pos hij, hentry]
      · rw [upperPart_of_lt _ hji, upperPart_of_lt _ hji, mul_zero]
  · have hne : j ≠ c := (Fin.lt_def.2 (Nat.lt_of_succ_le hj)).ne'
    rw [getElem_invertColumn_of_ne _ hne, getElem_invertColumn_of_ne _ hne]
    exact h.pending i j hij (Nat.le_of_succ_le hj)

theorem triangle_of_rows (hγ : 0 < γ) (h : ProportionalRows ε γ r r') {rank : ℕ} (hrank : rank ≤ n)
    {i j : Fin n} (hij : i ≤ j) (hj : j.val < rank) :
    (triangle r' rank)[i][j] = (triangle r rank)[i][j] / γ ^ 2 := by
  have hinverse : ∀ count, count ≤ n → InvertsAlike ε γ count
      (((List.finRange n).take count).foldl invertColumn r)
      (((List.finRange n).take count).foldl invertColumn r') := by
    intro count hcount
    induction count with
    | zero => exact ⟨fun _ _ hj => absurd hj (Nat.not_lt_zero _), fun _ _ hij _ => h.getElem hij⟩
    | succ count ih =>
        rw [take_succ_finRange hcount, List.foldl_append, List.foldl_append]
        exact InvertsAlike.step (c := ⟨count, hcount⟩) hγ h.sign (ih (Nat.le_of_succ_le hcount))
  rw [(multiplies_triangle r hrank).product i j hij hj,
    (multiplies_triangle r' hrank).product i j hij hj, Finset.sum_div]
  refine Finset.sum_congr rfl fun l hl => ?_
  have hlt : l.val < rank := (Finset.mem_filter.1 hl).2
  rw [(hinverse rank hrank).done i l hlt, (hinverse rank hrank).done j l hlt]
  have hγ' := hγ.ne'
  field_simp
  rw [h.sign, one_mul]

theorem rank_of_rows (hγ : 0 < γ) (h : ProportionalRows ε γ r r') (tolerance : ℝ) :
    rank r' tolerance = rank r tolerance := by
  have habs : ∀ l : Fin n, |r'[l][l]| = γ * |r[l][l]| := by
    intro l
    have hunit : |ε l| = 1 := by rw [← Real.sqrt_sq_eq_abs, h.sign, Real.sqrt_one]
    rw [h.getElem le_rfl, abs_mul, abs_mul, hunit, abs_of_pos hγ, one_mul]
  have hhead : |(r'.diagonal.toList).headD 0| = γ * |(r.diagonal.toList).headD 0| := by
    simp only [toList_eq_map]
    cases List.finRange n with
    | nil => simp
    | cons l rest => simpa [Mat.diagonal] using habs l
  simp only [rank]
  rw [show Scalar.abs (r'.diagonal.toList.headD 0) = γ * Scalar.abs (r.diagonal.toList.headD 0)
    from hhead]
  simp only [toList_eq_map, List.findIdx_map]
  congr 1
  funext l
  simp only [Function.comp_apply, Mat.diagonal, getElem_ofFn]
  rw [show Scalar.abs r'[l][l] = γ * Scalar.abs r[l][l] from habs l, mul_left_comm tolerance]
  exact decide_eq_decide.2 (mul_le_mul_iff_right₀ hγ)

end Covariance

/-- The covariance is divided by the square of the factor, and its rank stays. -/
theorem covariance_of_rows (hγ : 0 < γ) (h : ProportionalRows ε γ r r') {pivot : Vector (Fin n) n}
    (hpivot : Distinct pivot) (tolerance : ℝ) :
    covariance r' pivot tolerance =
      (Mat.mapEntries (· / γ ^ 2) (covariance r pivot tolerance).1,
        (covariance r pivot tolerance).2) := by
  simp only [covariance, Covariance.rank_of_rows hγ h]
  congr 1
  have hrank := Covariance.rank_le r tolerance
  refine eq_of_pivot hpivot fun i => eq_of_pivot hpivot fun j => ?_
  rw [Mat.mapEntries, getElem_map, getElem_map, Covariance.getElem_unpermute hpivot,
    Covariance.getElem_unpermute hpivot]
  split
  · next hlt =>
    split
    · next hij => exact Covariance.triangle_of_rows hγ h hrank hij hlt.2
    · next hij => exact Covariance.triangle_of_rows hγ h hrank (le_of_not_ge hij) hlt.1
  · rw [zero_div]

end LeastSquares
