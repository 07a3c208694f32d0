import LeastSquares.Proofs.Divisors
import LeastSquares.Proofs.Placement
import LeastSquares.Proofs.TrialStep
import LeastSquares.Proofs.Workspace
import Mathlib.Algebra.Order.Star.Real
import Mathlib.LinearAlgebra.Matrix.Block
import Mathlib.LinearAlgebra.Matrix.PosDef
import Mathlib.LinearAlgebra.Matrix.ToLinearEquiv

/-!
What the covariance is, in exact arithmetic. The triangle is inverted in place, one column after the
other, and the product `R⁻¹·R⁻ᵗ` is added up in place as well. Both loops are described by what they
have reached: the columns before some number hold the result, and the others are as they were. Hence
the entries of the covariance are products of the rows of an inverse: that of the leading block of
the triangle, as far as its diagonal counts. For a triangle of full rank this makes it `(RᵗR)⁻¹`, and
for the triangle of a linear model `(JᵗJ)⁻¹`, whatever the column exchange.
-/

namespace LeastSquares

open Matrix

variable {m n k : ℕ}

theorem sum_filter_lt_succ (j : Fin n) (f : Fin n → ℝ) :
    ∑ i : Fin n with i.val < j.val + 1, f i = f j + ∑ i : Fin n with i.val < j.val, f i := by
  have hsplit : (Finset.univ.filter fun i : Fin n => i.val < j.val + 1) =
      insert j (Finset.univ.filter fun i : Fin n => i.val < j.val) := by
    ext i
    simp only [Finset.mem_filter, Finset.mem_univ, true_and, Finset.mem_insert, Fin.ext_iff]
    omega
  rw [hsplit, Finset.sum_insert (by simp)]

theorem before_eq_take (c : Fin n) : before c = (List.finRange n).take c := by
  rw [← filter_val_lt]
  rfl

/-! ### Matrices of products -/

def IsGram (covar : Mat ℝ n n) (w : Fin n → Fin k → ℝ) : Prop :=
  ∀ p q : Fin n, covar[p][q] = w p ⬝ᵥ w q

namespace IsGram

variable {covar : Mat ℝ n n} {w : Fin n → Fin k → ℝ} (h : IsGram covar w)

include h

theorem symmetric (p q : Fin n) : covar[p][q] = covar[q][p] := by
  rw [h p q, h q p, dotProduct_comm]

theorem posSemidef : covar.toMatrix.PosSemidef := by
  have hproduct : covar.toMatrix = Matrix.of w * (Matrix.of w)ᴴ := by
    ext p q
    exact h p q
  rw [hproduct]
  exact posSemidef_self_mul_conjTranspose _

theorem diagonal_nonneg (p : Fin n) : 0 ≤ covar[p][p] := by
  rw [h p p]
  exact dotProduct_self_nonneg _

theorem diagonal_eq_zero_iff (p : Fin n) : covar[p][p] = 0 ↔ w p = 0 := by
  rw [h p p, dotProduct_self_eq_zero]

end IsGram

namespace Covariance

/-! ### The rank -/

/-- The first `count` entries of the diagonal count beside the first of all, and the next one does
not. -/
structure IsRank (r : Mat ℝ n n) (tolerance : ℝ) (count : ℕ) : Prop where
  le : count ≤ n
  significant : ∀ first c : Fin n, first.val = 0 → c.val < count →
    tolerance * |r[first][first]| < |r[c][c]|
  negligible : ∀ first c : Fin n, first.val = 0 → c.val = count →
    |r[c][c]| ≤ tolerance * |r[first][first]|

theorem IsRank.unique {r : Mat ℝ n n} {tolerance : ℝ} {count other : ℕ}
    (h : IsRank r tolerance count) (hother : IsRank r tolerance other) : count = other := by
  have hle : ∀ {a b : ℕ}, IsRank r tolerance a → IsRank r tolerance b → a ≤ b := by
    intro a b ha hb
    by_contra hba
    have hbn : b < n := (not_le.1 hba).trans_le ha.le
    have hlarge := ha.significant ⟨0, b.zero_le.trans_lt hbn⟩ ⟨b, hbn⟩ rfl (not_le.1 hba)
    exact hlarge.not_ge (hb.negligible _ _ rfl rfl)
  exact le_antisymm (hle h hother) (hle hother h)

theorem headD_diagonal (r : Mat ℝ n n) {first : Fin n} (hfirst : first.val = 0) :
    r.diagonal.toList.headD 0 = r[first][first] := by
  have hlength : first.val < r.diagonal.toList.length := by simp
  rw [List.headD_eq_head?_getD, List.head?_eq_getElem?, ← hfirst, List.getElem?_eq_getElem hlength,
    Vector.getElem_toList]
  exact getElem_ofFn _ first

theorem isRank_rank (r : Mat ℝ n n) (tolerance : ℝ) : IsRank r tolerance (rank r tolerance) := by
  have hlength : ∀ c : Fin n, c.val < r.diagonal.toList.length := fun c => by simp
  have hat : ∀ first c : Fin n, first.val = 0 →
      (|r.diagonal.toList.get ⟨c.val, hlength c⟩| ≤ tolerance * |r.diagonal.toList.headD 0| ↔
        |r[c][c]| ≤ tolerance * |r[first][first]|) := by
    intro first c hfirst
    have hc : r.diagonal.toList.get ⟨c.val, hlength c⟩ = r[c][c] := getElem_ofFn _ c
    rw [hc, headD_diagonal r hfirst]
  refine ⟨rank_le r tolerance, fun first c hfirst hc => ?_, fun first c hfirst hc => ?_⟩
  · have hlarge := of_decide_eq_false (List.not_of_lt_findIdx hc)
    exact not_le.1 fun hle => hlarge ((hat first c hfirst).2 hle)
  · have hfound := (List.findIdx_eq (hlength c)).1 hc.symm
    exact (hat first c hfirst).1 (of_decide_eq_true hfound.1)

/-- A zero on the diagonal is negligible beside everything. -/
theorem rank_le_of_eq_zero {r : Mat ℝ n n} {tolerance : ℝ} (htolerance : 0 ≤ tolerance) {c : Fin n}
    (hc : r[c][c] = 0) : rank r tolerance ≤ c.val :=
  not_lt.1 fun hlt => diagonal_ne_zero htolerance hlt hc

/-- With nothing negligible but zero, a triangle without zeros on its diagonal has full rank. -/
theorem rank_zero {r : Mat ℝ n n} (hr : ∀ c : Fin n, r[c][c] ≠ 0) : rank r 0 = n := by
  refine (isRank_rank r 0).unique ⟨le_rfl, fun _ c _ _ => ?_, fun _ c _ hc => ?_⟩
  · rw [zero_mul, abs_pos]
    exact hr c
  · exact absurd hc c.isLt.ne

/-! ### The inverse -/

/-- Column `c` of the inverse once the rows before `count` are done: `a` holds the inverse in its
earlier columns. -/
structure InvertsRows (a : Mat ℝ n n) (c : Fin n) (count : ℕ) (v : Vector ℝ n) : Prop where
  done : ∀ i : Fin n, i.val < count →
    v[i] = -(1 / a[c][c] * ∑ l : Fin n with l.val < count, upperPart a i l * a[l][c])
  pending : ∀ i : Fin n, count ≤ i.val → i < c → v[i] = a[i][c]
  diagonal : v[c] = 1 / a[c][c]

theorem InvertsRows.step {a : Mat ℝ n n} {c j : Fin n} {v : Vector ℝ n} (hj : j < c)
    (h : InvertsRows a c j v) :
    InvertsRows a c (j + 1) (Vector.ofFn fun i =>
      if i < j then v[i] - 1 / a[c][c] * v[j] * a[i][j]
      else if i = j then 0 - 1 / a[c][c] * v[j] * a[j][j] else v[i]) := by
  have hvj : v[j] = a[j][c] := h.pending j le_rfl hj
  refine ⟨fun i hi => ?_, fun i hi hic => ?_, ?_⟩
  · rw [getElem_ofFn, sum_filter_lt_succ, hvj]
    rcases Nat.lt_succ_iff_lt_or_eq.1 hi with hlt | heq
    · rw [if_pos (Fin.lt_def.2 hlt), h.done i hlt, upperPart, if_pos (Fin.lt_def.2 hlt).le]
      ring
    · obtain rfl := Fin.ext heq
      have hrest : ∑ l : Fin n with l.val < i.val, upperPart a i l * a[l][c] = 0 := by
        refine Finset.sum_eq_zero fun l hl => ?_
        rw [upperPart_of_lt a (Fin.lt_def.2 (Finset.mem_filter.1 hl).2), zero_mul]
      rw [if_neg (lt_irrefl i), if_pos rfl, upperPart_self, hrest]
      ring
  · have hji : j < i := hi
    rw [getElem_ofFn, if_neg hji.asymm, if_neg hji.ne']
    exact h.pending i (Nat.le_of_succ_le hi) hic
  · rw [getElem_ofFn, if_neg hj.asymm, if_neg hj.ne']
    exact h.diagonal

theorem invertsRows_invertColumn (a : Mat ℝ n n) (c : Fin n) :
    InvertsRows a c c ((invertColumn a c).column c) := by
  have hstart : InvertsRows a c 0 (put (a.column c) c (1 / a[c][c])) := by
    refine ⟨fun _ hi => absurd hi (Nat.not_lt_zero _), fun i _ hic => ?_, ?_⟩
    · rw [getElem_put, if_neg hic.ne', Mat.getElem_column]
    · rw [getElem_put, if_pos rfl]
  have hloop := foldl_take (I := InvertsRows a c) c.isLt.le hstart
    fun j hj v hv => hv.step (Fin.lt_def.2 hj)
  rw [← before_eq_take] at hloop
  have hcolumn : (invertColumn a c).column c = (before c).foldl (fun (v : Vector ℝ n) j =>
      Vector.ofFn fun i =>
        if i < j then v[i] - 1 / a[c][c] * v[j] * a[i][j]
        else if i = j then 0 - 1 / a[c][c] * v[j] * a[j][j] else v[i])
      (put (a.column c) c (1 / a[c][c])) := by
    refine ext_getElem fun i => ?_
    rw [Mat.getElem_column, invertColumn, Mat.getElem_ofFn, if_pos rfl]
  rwa [hcolumn]

/-- The columns before `count` are inverted, the others still those of `r`. -/
structure Inverts (r : Mat ℝ n n) (count : ℕ) (a : Mat ℝ n n) : Prop where
  inverse : ∀ i c : Fin n, c.val < count →
    ∑ l, upperPart a i l * upperPart r l c = if i = c then 1 else 0
  pending : ∀ i c : Fin n, count ≤ c.val → a[i][c] = r[i][c]

theorem sum_mul_upperPart (f : Fin n → ℝ) (r : Mat ℝ n n) (c : Fin n) :
    ∑ l, f l * upperPart r l c =
      f c * r[c][c] + ∑ l : Fin n with l.val < c.val, f l * r[l][c] := by
  have hbelow : ∑ l, f l * upperPart r l c =
      ∑ l : Fin n with l.val < c.val + 1, f l * upperPart r l c := by
    refine (Finset.sum_subset (Finset.subset_univ _) fun l _ hl => ?_).symm
    have hcl : c < l := by simpa [Nat.lt_succ_iff] using hl
    rw [upperPart_of_lt r hcl, mul_zero]
  rw [hbelow, sum_filter_lt_succ, upperPart_self]
  refine congrArg _ (Finset.sum_congr rfl fun l hl => ?_)
  have hlc : l < c := (Finset.mem_filter.1 hl).2
  rw [upperPart, if_pos hlc.le]

theorem Inverts.step {r a : Mat ℝ n n} {c : Fin n} (hc : r[c][c] ≠ 0) (h : Inverts r c a) :
    Inverts r (c + 1) (invertColumn a c) := by
  have hearlier : ∀ i l : Fin n, l ≠ c → upperPart (invertColumn a c) i l = upperPart a i l := by
    intro i l hl
    rw [upperPart, upperPart, getElem_invertColumn_of_ne a hl]
  have hrows := invertsRows_invertColumn a c
  refine ⟨fun i j hj => ?_, fun i j hj => ?_⟩
  · rcases Nat.lt_succ_iff_lt_or_eq.1 hj with hlt | heq
    · rw [← h.inverse i j hlt]
      refine Finset.sum_congr rfl fun l _ => ?_
      rcases eq_or_ne l c with rfl | hl
      · rw [upperPart_of_lt r (Fin.lt_def.2 hlt), mul_zero, mul_zero]
      · rw [hearlier i l hl]
    · obtain rfl := Fin.ext heq
      -- the sum is the new entry times the diagonal, and what the earlier columns contribute
      rw [sum_mul_upperPart]
      have hsum : ∑ l : Fin n with l.val < j.val, upperPart (invertColumn a j) i l * r[l][j] =
          ∑ l : Fin n with l.val < j.val, upperPart a i l * a[l][j] := by
        refine Finset.sum_congr rfl fun l hl => ?_
        have hlj : l < j := (Finset.mem_filter.1 hl).2
        rw [hearlier i l hlj.ne, h.pending l j le_rfl]
      have hzero : j ≤ i → ∑ l : Fin n with l.val < j.val, upperPart a i l * a[l][j] = 0 := by
        intro hji
        refine Finset.sum_eq_zero fun l hl => ?_
        have hlj : l < j := (Finset.mem_filter.1 hl).2
        rw [upperPart_of_lt a (hlj.trans_le hji), zero_mul]
      have hdiagonal : a[j][j] = r[j][j] := h.pending j j le_rfl
      rw [hsum]
      rcases lt_trichotomy i j with hij | rfl | hji
      · have hnew := hrows.done i hij
        rw [Mat.getElem_column, hdiagonal] at hnew
        rw [upperPart, if_pos hij.le, hnew, if_neg hij.ne]
        field_simp
        ring
      · have hnew := hrows.diagonal
        rw [Mat.getElem_column, hdiagonal] at hnew
        rw [upperPart_self, hnew, hzero le_rfl, if_pos rfl, add_zero, one_div_mul_cancel hc]
      · rw [upperPart_of_lt _ hji, hzero hji.le, if_neg hji.ne', zero_mul, add_zero]
  · rw [getElem_invertColumn_of_ne a (Fin.ne_of_gt hj)]
    exact h.pending i j (Nat.le_of_succ_le hj)

/-! ### The product -/

/-- The columns before `count` hold the products of the first `count` columns of `v`, the others are
still those of `v`. -/
structure Multiplies (v : Mat ℝ n n) (count : ℕ) (a : Mat ℝ n n) : Prop where
  product : ∀ i j : Fin n, i ≤ j → j.val < count →
    a[i][j] = ∑ l : Fin n with l.val < count, upperPart v i l * upperPart v j l
  pending : ∀ i j : Fin n, count ≤ j.val → a[i][j] = v[i][j]

theorem Multiplies.step {v a : Mat ℝ n n} {c : Fin n} (h : Multiplies v c a) :
    Multiplies v (c + 1) (multiplyColumn a c) := by
  refine ⟨fun i j hij hj => ?_, fun i j hj => ?_⟩
  · rw [multiplyColumn, Mat.getElem_ofFn, sum_filter_lt_succ]
    rcases Nat.lt_succ_iff_lt_or_eq.1 hj with hlt | heq
    · have hjc : j < c := hlt
      rw [if_pos ⟨hjc, hij⟩, h.product i j hij hlt, h.pending j c le_rfl, h.pending i c le_rfl,
        upperPart, if_pos (hij.trans hjc.le), upperPart, if_pos hjc.le]
      ring
    · obtain rfl := Fin.ext heq
      have hrest : ∑ l : Fin n with l.val < j.val, upperPart v i l * upperPart v j l = 0 := by
        refine Finset.sum_eq_zero fun l hl => ?_
        rw [upperPart_of_lt v (Fin.lt_def.2 (Finset.mem_filter.1 hl).2), mul_zero]
      rw [if_neg (fun hlt => lt_irrefl j hlt.1), if_pos ⟨rfl, hij⟩, h.pending i j le_rfl,
        h.pending j j le_rfl, hrest, upperPart_self, upperPart, if_pos hij, add_zero]
  · have hcj : c < j := hj
    rw [multiplyColumn, Mat.getElem_ofFn, if_neg (fun hlt => hlt.1.asymm hcj),
      if_neg (fun heq => hcj.ne' heq.1)]
    exact h.pending i j (Nat.le_of_succ_le hj)

theorem multiplies_triangle (r : Mat ℝ n n) {rank : ℕ} (hrank : rank ≤ n) :
    Multiplies (((List.finRange n).take rank).foldl invertColumn r) rank (triangle r rank) := by
  rw [triangle, filter_val_lt]
  exact foldl_take hrank ⟨fun _ _ _ hj => absurd hj (Nat.not_lt_zero _), fun _ _ _ => rfl⟩
    fun c _ a ha => ha.step

theorem triangle_eq (r : Mat ℝ n n) {rank : ℕ} (hrank : rank ≤ n)
    (hr : ∀ c : Fin n, c.val < rank → r[c][c] ≠ 0) :
    ∃ v : Mat ℝ n n, Inverts r rank v ∧ Multiplies v rank (triangle r rank) := by
  refine ⟨((List.finRange n).take rank).foldl invertColumn r, ?_, multiplies_triangle r hrank⟩
  exact foldl_take hrank ⟨fun _ _ hc => absurd hc (Nat.not_lt_zero _), fun _ _ _ => rfl⟩
    fun c hc a ha => ha.step (hr c hc)

theorem unpermute_eq_zero {pivot : Vector (Fin n) n} (hpivot : Distinct pivot) (upper : Mat ℝ n n)
    {rank : ℕ} {c : Fin n} (hc : rank ≤ c.val) (q : Fin n) :
    (unpermute upper pivot rank)[pivot[c]][q] = 0 ∧
      (unpermute upper pivot rank)[q][pivot[c]] = 0 := by
  obtain ⟨j, rfl⟩ := hpivot.order.surjective q
  rw [Distinct.order_apply, getElem_unpermute hpivot, getElem_unpermute hpivot]
  exact ⟨if_neg fun hlt => hc.not_gt hlt.1, if_neg fun hlt => hc.not_gt hlt.2⟩

/-! ### The leading block -/

def leading (r : Mat ℝ n n) {count : ℕ} (hcount : count ≤ n) : Matrix (Fin count) (Fin count) ℝ :=
  (upperMatrix r).submatrix (Fin.castLE hcount) (Fin.castLE hcount)

/-- The inverse of the leading block does not depend on what lies beyond it. -/
theorem Inverts.leading_mul {r v : Mat ℝ n n} {count : ℕ} (hcount : count ≤ n)
    (h : Inverts r count v) : leading v hcount * leading r hcount = 1 := by
  ext i c
  have hbeyond : ∀ l : Fin n, l ∉ Set.range (Fin.castLE hcount) →
      upperPart v (i.castLE hcount) l * upperPart r l (c.castLE hcount) = 0 := by
    intro l hl
    have hcl : c.castLE hcount < l := by
      refine Fin.lt_def.2 (c.isLt.trans_le (not_lt.1 fun hlt => hl ⟨⟨l, hlt⟩, rfl⟩))
    rw [upperPart_of_lt r hcl, mul_zero]
  have hsum : (leading v hcount * leading r hcount) i c =
      ∑ l, upperPart v (i.castLE hcount) l * upperPart r l (c.castLE hcount) :=
    Fintype.sum_of_injective (Fin.castLE hcount) (Fin.castLE_injective hcount) _ _ hbeyond
      fun _ => rfl
  rw [hsum, h.inverse _ _ c.isLt, Matrix.one_apply]
  exact if_congr (Fin.castLE_inj) rfl rfl

theorem Multiplies.eq_mul_transpose {v a : Mat ℝ n n} {count : ℕ} (hcount : count ≤ n)
    (h : Multiplies v count a) {i j : Fin count} (hij : i ≤ j) :
    a[i.castLE hcount][j.castLE hcount] = (leading v hcount * (leading v hcount)ᵀ) i j := by
  have hfilter : (Finset.univ.filter fun l : Fin n => l.val < count) =
      Finset.univ.map (Fin.castLEEmb hcount) := by
    ext l
    simp only [Finset.mem_filter, Finset.mem_univ, true_and, Finset.mem_map, Fin.castLEEmb_apply]
    constructor
    · exact fun hl => ⟨⟨l, hl⟩, rfl⟩
    · rintro ⟨l', rfl⟩
      exact l'.isLt
  rw [h.product _ _ hij j.isLt, hfilter, Finset.sum_map, Matrix.mul_apply]
  rfl

theorem Multiplies.getElem_unpermute {v a : Mat ℝ n n} {count : ℕ} (hcount : count ≤ n)
    (h : Multiplies v count a) {pivot : Vector (Fin n) n} (hpivot : Distinct pivot)
    (i j : Fin count) :
    (unpermute a pivot count)[pivot[i.castLE hcount]][pivot[j.castLE hcount]] =
      (leading v hcount * (leading v hcount)ᵀ) i j := by
  rw [Covariance.getElem_unpermute hpivot, if_pos ⟨i.isLt, j.isLt⟩]
  rcases le_or_gt i j with hij | hji
  · exact (if_pos hij).trans (h.eq_mul_transpose hcount hij)
  · refine (if_neg hji.not_ge).trans ((h.eq_mul_transpose hcount hji.le).trans ?_)
    rw [Matrix.mul_apply, Matrix.mul_apply]
    exact Finset.sum_congr rfl fun l _ => mul_comm _ _

end Covariance

section Triangle

variable {r : Mat ℝ n n} {pivot : Vector (Fin n) n} {tolerance : ℝ}

/-- The entries of the covariance are the products of vectors, one for each parameter: the rows of the
inverse of the leading block, and zero from the rank on. -/
theorem covariance_isGram (hpivot : Distinct pivot) (htolerance : 0 ≤ tolerance) {count : ℕ}
    (hcount : count ≤ n) (hrank : Covariance.rank r tolerance = count) :
    ∃ w : Fin n → Fin count → ℝ, IsGram (covariance r pivot tolerance).1 w ∧
      (Matrix.of fun i : Fin count => w pivot[i.castLE hcount]) * Covariance.leading r hcount = 1 ∧
        ∀ i : Fin n, w pivot[i] = 0 ↔ count ≤ i.val := by
  obtain ⟨v, hinverse, hproduct⟩ := Covariance.triangle_eq r hcount fun c hc =>
    Covariance.diagonal_ne_zero htolerance (hrank ▸ hc)
  let rows (i : Fin n) (l : Fin count) : ℝ :=
    if i.val < count then upperPart v i (l.castLE hcount) else 0
  let w (p : Fin n) : Fin count → ℝ := rows (hpivot.order.symm p)
  have hw : ∀ i : Fin n, w pivot[i] = rows i := fun i =>
    congrArg rows (hpivot.order.symm_apply_apply i)
  have hzero : ∀ i : Fin n, count ≤ i.val → w pivot[i] = 0 := by
    intro i hi
    rw [hw]
    funext l
    exact if_neg hi.not_gt
  have hblock : (Matrix.of fun i : Fin count => w pivot[i.castLE hcount]) =
      Covariance.leading v hcount := by
    ext i l
    rw [Matrix.of_apply, hw]
    exact if_pos i.isLt
  have hrows : (Matrix.of fun i : Fin count => w pivot[i.castLE hcount]) *
      Covariance.leading r hcount = 1 := by
    rw [hblock, hinverse.leading_mul hcount]
  refine ⟨w, fun p q => ?_, hrows, fun i => ⟨fun hi => ?_, hzero i⟩⟩
  · obtain ⟨i, rfl⟩ := hpivot.order.surjective p
    obtain ⟨j, rfl⟩ := hpivot.order.surjective q
    rw [covariance, hrank, Distinct.order_apply, Distinct.order_apply]
    rcases le_or_gt count i.val with hi | hi
    · rw [hzero i hi, zero_dotProduct]
      exact (Covariance.unpermute_eq_zero hpivot _ hi _).1
    rcases le_or_gt count j.val with hj | hj
    · rw [hzero j hj, dotProduct_zero]
      exact (Covariance.unpermute_eq_zero hpivot _ hj _).2
    refine (hproduct.getElem_unpermute hcount hpivot ⟨i, hi⟩ ⟨j, hj⟩).trans ?_
    rw [← hblock]
    rfl
  -- no row of an inverse is zero
  · by_contra hlt
    have hself := congrFun₂ hrows ⟨i, not_le.1 hlt⟩ ⟨i, not_le.1 hlt⟩
    rw [Matrix.one_apply_eq, Matrix.mul_apply] at hself
    refine zero_ne_one ((Finset.sum_eq_zero fun l _ => ?_).symm.trans hself)
    rw [Matrix.of_apply]
    exact mul_eq_zero_of_left (congrFun hi l) _

/-- The covariance is the inverse of `RᵗR` for the leading block of the triangle, at the places
the columns have been exchanged to. -/
theorem getElem_covariance_leading (hpivot : Distinct pivot) (htolerance : 0 ≤ tolerance) {count : ℕ}
    (hcount : count ≤ n) (hrank : Covariance.rank r tolerance = count) (i j : Fin count) :
    (covariance r pivot tolerance).1[pivot[i.castLE hcount]][pivot[j.castLE hcount]] =
      ((Covariance.leading r hcount)ᵀ * Covariance.leading r hcount)⁻¹ i j := by
  obtain ⟨w, hgram, hinverse, -⟩ := covariance_isGram hpivot htolerance hcount hrank
  rw [hgram, Matrix.mul_inv_rev, ← Matrix.transpose_nonsing_inv, Matrix.inv_eq_left_inv hinverse]
  rfl

theorem getElem_covariance (hr : ∀ c : Fin n, r[c][c] ≠ 0) (hpivot : Distinct pivot) (i j : Fin n) :
    (covariance r pivot 0).1[pivot[i]][pivot[j]] =
      ((upperMatrix r)ᵀ * upperMatrix r)⁻¹ i j :=
  getElem_covariance_leading hpivot le_rfl le_rfl (Covariance.rank_zero hr) i j

/-- A triangle whose products of columns are those of a matrix of full column rank has no zero on
its diagonal. -/
theorem diagonal_ne_zero_of_gram (hpivot : Distinct pivot) {a : Matrix (Fin m) (Fin n) ℝ}
    (hgram : (upperMatrix r)ᵀ * upperMatrix r = (aᵀ * a).submatrix hpivot.order hpivot.order)
    (hrank : ∀ v, a *ᵥ v = 0 → v = 0) (c : Fin n) : r[c][c] ≠ 0 := by
  have hdet : (aᵀ * a).det ≠ 0 := by
    intro hdet
    obtain ⟨v, hv, hzero⟩ := Matrix.exists_mulVec_eq_zero_iff.2 hdet
    refine hv (hrank v (dotProduct_self_eq_zero.1 ?_))
    rw [mulVec_dotProduct_mulVec, Matrix.mulVec_mulVec, hzero, dotProduct_zero]
  rw [← Matrix.det_submatrix_equiv_self hpivot.order, ← hgram, Matrix.det_mul] at hdet
  have htriangular : (upperMatrix r).IsUpperTriangular := fun _ _ hij => upperPart_of_lt _ hij
  have hdiagonal := right_ne_zero_of_mul hdet
  rw [Matrix.det_of_isUpperTriangular htriangular] at hdiagonal
  have hc := Finset.prod_ne_zero_iff.1 hdiagonal c (Finset.mem_univ c)
  rwa [upperMatrix, Matrix.of_apply, upperPart_self] at hc

/-- The covariance of a triangle whose products of columns are those of a matrix of full column
rank is that of the matrix, whatever the column exchange. -/
theorem toMatrix_covariance_of_gram (hpivot : Distinct pivot) {a : Matrix (Fin m) (Fin n) ℝ}
    (hgram : (upperMatrix r)ᵀ * upperMatrix r = (aᵀ * a).submatrix hpivot.order hpivot.order)
    (hrank : ∀ v, a *ᵥ v = 0 → v = 0) : (covariance r pivot 0).1.toMatrix = (aᵀ * a)⁻¹ := by
  ext p q
  obtain ⟨i, rfl⟩ := hpivot.order.surjective p
  obtain ⟨j, rfl⟩ := hpivot.order.surjective q
  rw [Mat.toMatrix_apply, Distinct.order_apply, Distinct.order_apply,
    getElem_covariance (diagonal_ne_zero_of_gram hpivot hgram hrank) hpivot, hgram,
    Matrix.inv_submatrix_equiv]
  rfl

/-- The matrix `covar` is the inverse of `RᵗR` for the leading block `R` of a triangle, with its rows and
columns at the places `pivot`, and zero elsewhere. -/
structure Covariance.InvertsLeading (r : Mat ℝ n n) (pivot : Vector (Fin n) n) {count : ℕ}
    (hcount : count ≤ n) (covar : Mat ℝ n n) : Prop where
  regular : IsUnit (Covariance.leading r hcount)
  block : ∀ i j : Fin count, covar[pivot[i.castLE hcount]][pivot[j.castLE hcount]] =
    ((Covariance.leading r hcount)ᵀ * Covariance.leading r hcount)⁻¹ i j
  beyond : ∀ i j : Fin n, count ≤ i.val ∨ count ≤ j.val → covar[pivot[i]][pivot[j]] = 0

/-- The covariance of a triangle of any rank. The rank is the number of entries of the diagonal
before the first that is negligible; the matrix is symmetric and positive semidefinite, the inverse
of `RᵗR` as far as the rank goes, and zero beyond. When nothing but zero is negligible and the
triangle belongs to a matrix of full column rank, it is the inverse of the product of that matrix
with its transpose. -/
theorem covariance_of_triangle (r : Mat ℝ n n) {pivot : Vector (Fin n) n} (hpivot : Distinct pivot)
    {tolerance : ℝ} (htolerance : 0 ≤ tolerance) :
    ∃ count, ∃ hcount : count ≤ n, (covariance r pivot tolerance).2 = count ∧
      (∀ other, Covariance.IsRank r tolerance other ↔ other = count) ∧
      (covariance r pivot tolerance).1.toMatrix.IsSymm ∧
      (covariance r pivot tolerance).1.toMatrix.PosSemidef ∧
      Covariance.InvertsLeading r pivot hcount (covariance r pivot tolerance).1 ∧
      ∀ {m : ℕ} (q a : Matrix (Fin m) (Fin n) ℝ), qᵀ * q = 1 →
        q * upperMatrix r = a.submatrix id (fun j : Fin n => pivot[j]) →
        (∀ v, a *ᵥ v = 0 → v = 0) → tolerance = 0 →
          (covariance r pivot tolerance).1.toMatrix = (aᵀ * a)⁻¹ := by
  have hrank := Covariance.isRank_rank r tolerance
  obtain ⟨w, hgram, hinverse, hzero⟩ := covariance_isGram hpivot htolerance hrank.le rfl
  refine ⟨_, hrank.le, rfl, fun other => ⟨fun h => h.unique hrank, fun h => h ▸ hrank⟩,
    Matrix.ext fun p q => hgram.symmetric q p, hgram.posSemidef, ?_, ?_⟩
  · refine ⟨IsUnit.of_mul_eq_one_right _ hinverse,
      getElem_covariance_leading hpivot htolerance hrank.le rfl, fun i j hij => ?_⟩
    rw [hgram]
    rcases hij with hi | hj
    · rw [(hzero i).2 hi, zero_dotProduct]
    · rw [(hzero j).2 hj, dotProduct_zero]
  · rintro m q a horthonormal hproduct hfull rfl
    refine toMatrix_covariance_of_gram hpivot ?_ hfull
    calc (upperMatrix r)ᵀ * upperMatrix r
        = (upperMatrix r)ᵀ * (qᵀ * q) * upperMatrix r := by rw [horthonormal, Matrix.mul_one]
      _ = (q * upperMatrix r)ᵀ * (q * upperMatrix r) := by
          rw [Matrix.transpose_mul, Matrix.mul_assoc, Matrix.mul_assoc, Matrix.mul_assoc]
      _ = (aᵀ * a).submatrix hpivot.order hpivot.order := by rw [hproduct]; rfl

end Triangle

namespace Covariance.Cut

/-- A triangle whose last column counts for little; what stands below the diagonal is not read. -/
noncomputable def triangle : Mat ℝ 3 3 := #v[#v[2, 1, 2], #v[2, 1, 1], #v[1, 2, 2⁻¹]]

def places : Vector (Fin 3) 3 := #v[2, 0, 1]

noncomputable def columns : Matrix (Fin 3) (Fin 3) ℝ := !![1, 2, 2; 1, 1, 0; 0, 2⁻¹, 0]

theorem distinct : Distinct places := by
  unfold Distinct
  decide

theorem upperMatrix_triangle : upperMatrix triangle = !![2, 1, 2; 0, 1, 1; 0, 0, 2⁻¹] := by
  ext i j
  fin_cases i <;> fin_cases j <;> rfl

theorem isRank : IsRank triangle (1 / 4) 2 := by
  refine ⟨by decide, fun first c hfirst hc => ?_, fun first c hfirst hc => ?_⟩
  · obtain rfl : first = 0 := Fin.ext hfirst
    have hcases : c = 0 ∨ c = 1 := by omega
    rcases hcases with rfl | rfl
    · show (1 / 4 : ℝ) * |2| < |2|
      norm_num
    · show (1 / 4 : ℝ) * |2| < |1|
      norm_num
  · obtain rfl : first = 0 := Fin.ext hfirst
    obtain rfl : c = 2 := Fin.ext hc
    show |(2⁻¹ : ℝ)| ≤ 1 / 4 * |2|
    norm_num

theorem inv_leading :
    ((leading triangle (by decide : 2 ≤ 3))ᵀ * leading triangle (by decide))⁻¹ =
      !![1 / 2, -1 / 2; -1 / 2, 1] := by
  have hleading : leading triangle (by decide : 2 ≤ 3) = !![2, 1; 0, 1] := by
    rw [leading, upperMatrix_triangle]
    ext i j
    fin_cases i <;> fin_cases j <;> rfl
  refine Matrix.inv_eq_left_inv ?_
  rw [hleading]
  ext i j
  fin_cases i <;> fin_cases j <;> norm_num [Matrix.mul_apply, Fin.sum_univ_two]

theorem product : (1 : Matrix (Fin 3) (Fin 3) ℝ) * upperMatrix triangle =
    columns.submatrix id fun j : Fin 3 => places[j] := by
  rw [Matrix.one_mul, upperMatrix_triangle]
  ext i j
  fin_cases i <;> fin_cases j <;> rfl

theorem eq_zero_of_columns (v : Fin 3 → ℝ) (h : columns *ᵥ v = 0) : v = 0 := by
  refine Matrix.eq_zero_of_mulVec_eq_zero ?_ h
  have hdet : columns.det = 1 := by
    rw [Matrix.det_fin_three]
    simp [columns]
  rw [hdet]
  exact one_ne_zero

end Covariance.Cut

/-- The last column of the triangle, which belongs to the parameter in the middle, is negligible in
the first case and counts in the second. -/
theorem covariance_of_triangle_cut :
    Distinct Covariance.Cut.places ∧
      (covariance Covariance.Cut.triangle Covariance.Cut.places (1 / 4)).2 = 2 ∧
      (covariance Covariance.Cut.triangle Covariance.Cut.places (1 / 4)).1.toMatrix =
        !![1, 0, -1 / 2; 0, 0, 0; -1 / 2, 0, 1 / 2] ∧
      (covariance Covariance.Cut.triangle Covariance.Cut.places 0).1.toMatrix =
        (Covariance.Cut.columnsᵀ * Covariance.Cut.columns)⁻¹ := by
  obtain ⟨count, hcount, hrank, hiff, -, -, hinverts, -⟩ := covariance_of_triangle
    Covariance.Cut.triangle Covariance.Cut.distinct (show (0 : ℝ) ≤ 1 / 4 by norm_num)
  obtain rfl : 2 = count := (hiff 2).1 Covariance.Cut.isRank
  obtain ⟨_, _, -, -, -, -, -, hfull⟩ := covariance_of_triangle Covariance.Cut.triangle
    Covariance.Cut.distinct le_rfl
  refine ⟨Covariance.Cut.distinct, hrank, ?_, hfull 1 Covariance.Cut.columns (by simp)
    Covariance.Cut.product Covariance.Cut.eq_zero_of_columns rfl⟩
  have hblock := hinverts.block
  rw [Covariance.Cut.inv_leading] at hblock
  ext p q
  fin_cases p <;> fin_cases q
  · exact hblock 1 1
  · exact hinverts.beyond 1 2 (.inr le_rfl)
  · exact hblock 1 0
  · exact hinverts.beyond 2 1 (.inl le_rfl)
  · exact hinverts.beyond 2 2 (.inl le_rfl)
  · exact hinverts.beyond 2 0 (.inl le_rfl)
  · exact hblock 0 1
  · exact hinverts.beyond 0 2 (.inr le_rfl)
  · exact hblock 0 0

namespace Linearization

variable (limits : StepLimits ℝ k) (p : Iterate ℝ n m k) (jacobian : Mat ℝ m k) (tall : k ≤ m)

theorem diagonal_ne_zero
    (hrank : ∀ v, (masked limits p jacobian).toMatrix *ᵥ v = 0 → v = 0) (c : Fin k) :
    (ofJacobian limits p jacobian tall).r[c][c] ≠ 0 :=
  diagonal_ne_zero_of_gram (distinct_ofJacobian limits p jacobian tall)
    (gram_eq limits p jacobian tall) hrank c

theorem covariance_eq
    (hrank : ∀ v, (masked limits p jacobian).toMatrix *ᵥ v = 0 → v = 0) (i j : Fin k) :
    (covariance (ofJacobian limits p jacobian tall).r (ofJacobian limits p jacobian tall).pivot
        0).1[i][j] =
      ((masked limits p jacobian).toMatrixᵀ * (masked limits p jacobian).toMatrix)⁻¹ i j :=
  congrFun₂ (toMatrix_covariance_of_gram (distinct_ofJacobian limits p jacobian tall)
    (gram_eq limits p jacobian tall) hrank) i j

end Linearization

end LeastSquares
