import LeastSquares.Proofs.TrialStep
import Mathlib.LinearAlgebra.Matrix.Block
import Mathlib.LinearAlgebra.Matrix.Rank

/-!
The pivoted factorization as a product of matrices, in exact arithmetic and for every rank. The thin
factor `Q` is the reflections applied in reverse to unit vectors, so its entries are the heads of
`Qᵗ` applied to unit vectors, of which the factorization already knows the products with columns of
`R`: they are the entries of the matrix. For the same reason its products with a vector are those of
the reflections in order. The order of the columns makes the diagonal of `R` fall in magnitude, and
its first zero tells the rank.
-/

namespace LeastSquares

open Matrix

variable {m n : ℕ}

/-! ### Reflections as symmetric maps -/

noncomputable def unitVector (c : Fin m) : Vector ℝ m := Vector.ofFn fun i => if i = c then 1 else 0

theorem getElem_unitVector (c i : Fin m) : (unitVector c)[i] = if i = c then 1 else 0 :=
  getElem_ofFn _ i

@[simp] theorem dot_unitVector (b : Vector ℝ m) (c : Fin m) : dot b (unitVector c) = b[c] := by
  simp [getElem_unitVector]

/-- What a reflection takes off a vector is a multiple of `v`, by a factor in which the vector
occurs as the other one does. -/
theorem dot_reflect_left (v x y : Vector ℝ m) (j : Fin m) :
    dot (reflect v j x) y =
      dot x y - (∑ l ∈ .Ici j, v[l] * x[l]) / v[j] * ∑ l ∈ .Ici j, v[l] * y[l] := by
  have hterm : ∀ i, (reflect v j x)[i] * y[i] = x[i] * y[i] -
      if j ≤ i then (∑ l ∈ .Ici j, v[l] * x[l]) / v[j] * (v[i] * y[i]) else 0 := by
    intro i
    rw [getElem_reflect]
    split
    · ring
    · ring
  rw [dot_eq, dot_eq, Finset.sum_congr rfl fun i _ => hterm i, Finset.sum_sub_distrib,
    ← Finset.sum_filter, Finset.filter_le_eq_Ici, Finset.mul_sum]

theorem dot_reflect_comm (v x y : Vector ℝ m) (j : Fin m) :
    dot (reflect v j x) y = dot x (reflect v j y) := by
  rw [dot_reflect_left, dot_comm x (reflect v j y), dot_reflect_left,
    dot_comm y x]
  ring

/-! ### Triangles -/

/-- A triangle whose diagonal is zero from some place on, as the rows are from there, and nowhere
before it, has the number of that place for its rank. -/
theorem rank_of_isUpperTriangular {r : Matrix (Fin n) (Fin n) ℝ} (hr : r.IsUpperTriangular)
    {count : ℕ} (hcount : count ≤ n) (hdiagonal : ∀ i : Fin n, i.val < count → r i i ≠ 0)
    (hrows : ∀ i : Fin n, count ≤ i.val → ∀ j, r i j = 0) : r.rank = count := by
  refine le_antisymm ?_ ?_
  -- no more than `count` rows are different from zero
  · have hsupport : Function.support r.row ⊆
        ((Finset.univ.map (Fin.castLEEmb hcount) : Finset (Fin n)) : Set (Fin n)) := by
      rw [Function.support_subset_iff']
      intro i hi
      have hge : count ≤ i.val := by
        by_contra hlt
        exact hi (Finset.mem_coe.2 (Finset.mem_map.2
          ⟨⟨i.val, not_le.1 hlt⟩, Finset.mem_univ _, rfl⟩))
      exact funext (hrows i hge)
    simpa using r.rank_le_card_of_support_subset _ hsupport
  -- the leading block has no zero on its diagonal
  · have hleading : (r.submatrix (Fin.castLE hcount) (Fin.castLE hcount)).IsUpperTriangular :=
      fun _ _ hij => hr hij
    have hdet : (r.submatrix (Fin.castLE hcount) (Fin.castLE hcount)).det ≠ 0 := by
      rw [Matrix.det_of_isUpperTriangular hleading]
      exact Finset.prod_ne_zero_iff.2 fun i _ => hdiagonal _ i.isLt
    calc count = (r.submatrix (Fin.castLE hcount) (Fin.castLE hcount)).rank := by
          rw [Matrix.rank_of_det_ne_zero hdet, Fintype.card_fin]
      _ ≤ r.rank := r.rank_submatrix_le _ _

namespace PivotedQR

section Factor

variable (a : Mat ℝ m n) (tall : n ≤ m)

theorem factor?_eq_ok : factor? a = .ok (factor a tall) := dif_pos tall

/-! ### The thin orthogonal factor -/

theorem column_q (qr : PivotedQR ℝ m n) (k : Fin n) :
    qr.q.column k = (List.finRange n).reverse.foldl (fun b j => qr.reflectAt j b)
      (unitVector (k.castLE qr.tall)) := by
  refine ext_getElem fun i => ?_
  rw [Mat.getElem_column, q, Mat.getElem_ofColumns, getElem_ofFn]
  rfl

/-- Reflections in reverse order are adjoint to the reflections in order. -/
theorem dot_foldl_reflectAt (qr : PivotedQR ℝ m n) (l : List (Fin n)) (x y : Vector ℝ m) :
    dot (l.reverse.foldl (fun b j => qr.reflectAt j b) x) y =
      dot x (l.foldl (fun b j => qr.reflectAt j b) y) := by
  -- the last reflection of `x` is passed on to `y`, as its first
  induction l generalizing y with
  | nil => rfl
  | cons j l ih =>
      rw [List.reverse_cons, List.foldl_append, List.foldl_cons, List.foldl_nil, List.foldl_cons,
        ← ih]
      exact dot_reflect_comm _ _ _ _

theorem dot_column_q_eq_project (qr : PivotedQR ℝ m n) (b : Vector ℝ m) (k : Fin n) :
    dot (qr.q.column k) b = (qr.project b)[k] := by
  rw [column_q, dot_foldl_reflectAt, dot_comm, dot_unitVector, project, getElem_ofFn]
  rfl

/-- The rows of `Q` are the heads of `Qᵗ` applied to unit vectors. -/
theorem getElem_q (qr : PivotedQR ℝ m n) (i : Fin m) (k : Fin n) :
    qr.q[i][k] = (qr.project (unitVector i))[k] := by
  rw [← Mat.getElem_column, ← dot_unitVector, dot_column_q_eq_project]

theorem dot_foldl_reflectAt_self (l : List (Fin n)) (x y : Vector ℝ m) :
    dot (l.foldl (fun b j => (factor a tall).reflectAt j b) x)
      (l.foldl (fun b j => (factor a tall).reflectAt j b) y) = dot x y := by
  have hreflectors := (Stage.reduces_final a tall).reflectors
  induction l generalizing x y with
  | nil => rfl
  | cons j l ih =>
      rw [List.foldl_cons, List.foldl_cons, ih]
      exact dot_reflect (hreflectors j j.isLt) x y

/-- The columns of `Q` are orthonormal. -/
theorem dot_column_q (j k : Fin n) :
    dot ((factor a tall).q.column j) ((factor a tall).q.column k) = if j = k then 1 else 0 := by
  rw [column_q, column_q, dot_foldl_reflectAt_self, dot_unitVector, getElem_unitVector]
  exact if_congr (by rw [Fin.castLE_inj, eq_comm]) rfl rfl

theorem transpose_q_mul_q :
    (factor a tall).q.toMatrixᵀ * (factor a tall).q.toMatrix = 1 := by
  ext j k
  rw [transpose_mul_self_apply, Matrix.one_apply, dot_column_q]

/-- Every vector is the head of a product with `Qᵗ`. -/
theorem exists_project_eq (v : Vector ℝ n) : ∃ b, (factor a tall).project b = v := by
  set b : Vector ℝ m := Vector.ofFn ((factor a tall).q.toMatrix *ᵥ coords v) with hb
  have hcoords : coords b = (factor a tall).q.toMatrix *ᵥ coords v := by
    ext i
    rw [coords_apply, hb, getElem_ofFn]
  have himage : (factor a tall).q.toMatrixᵀ *ᵥ coords b = coords v := by
    rw [hcoords, mulVec_mulVec, transpose_q_mul_q, one_mulVec]
  refine ⟨b, ext_getElem fun k => ?_⟩
  rw [← dot_column_q_eq_project, ← transpose_mulVec_apply, himage, coords_apply]

/-! ### The product -/

theorem getElem_r (qr : PivotedQR ℝ m n) (i k : Fin n) : qr.r[i][k] = upperPart qr.workspace i k := by
  rw [← getElem_upperColumn, r, Mat.getElem_ofFn, upperColumn, getElem_ofFn]
  simp only [Fin.val_castLE, Fin.ext_iff, Fin.lt_def]

theorem r_of_gt (qr : PivotedQR ℝ m n) {i k : Fin n} (h : k < i) : qr.r[i][k] = 0 := by
  rw [getElem_r, upperPart_of_lt _ h]

theorem r_self (qr : PivotedQR ℝ m n) (j : Fin n) : qr.r[j][j] = qr.workspace[j][j] := by
  rw [getElem_r, upperPart_self]

theorem isUpperTriangular_r (qr : PivotedQR ℝ m n) : qr.r.toMatrix.IsUpperTriangular :=
  fun _ _ hij => r_of_gt qr hij

noncomputable def exchanges : Fin n ≃ Fin n :=
  .ofBijective (fun j => (factor a tall).pivot[j])
    (Finite.injective_iff_bijective.1 (distinct_factor a tall))

theorem q_mul_r :
    (factor a tall).q.toMatrix * (factor a tall).r.toMatrix =
      a.toMatrix.submatrix id (exchanges a tall) := by
  ext i k
  have hproduct := sum_upperPart_project a tall (unitVector i) k
  rw [dot_unitVector, Mat.getElem_column] at hproduct
  rw [Matrix.mul_apply, Matrix.submatrix_apply, Mat.toMatrix_apply]
  refine Eq.trans (Finset.sum_congr rfl fun l _ => ?_) hproduct
  rw [Mat.toMatrix_apply, Mat.toMatrix_apply, getElem_q, getElem_r, mul_comm]

end Factor

structure Factorizes (qr : PivotedQR ℝ m n) (a : Mat ℝ m n) : Prop where
  permutation : Function.Bijective fun j : Fin n => qr.pivot[j]
  triangular : qr.r.toMatrix.IsUpperTriangular
  product : qr.q.toMatrix * qr.r.toMatrix = a.toMatrix.submatrix id fun j : Fin n => qr.pivot[j]
  orthonormal : qr.q.toMatrixᵀ * qr.q.toMatrix = 1
  columnNorms : ∀ j : Fin n, qr.columnNorms[j] = euclid (a.column j)

/-- Every matrix that is not wider than it is tall is factorized, whatever its rank: into an upper
triangle and orthonormal columns, whose product has the columns of the matrix in pivoted order. -/
theorem factor_factorizes (a : Mat ℝ m n) (tall : n ≤ m) :
    ∃ qr, factor? a = .ok qr ∧ qr.Factorizes a :=
  ⟨factor a tall, factor?_eq_ok a tall,
    { permutation := (exchanges a tall).bijective
      triangular := isUpperTriangular_r _
      product := q_mul_r a tall
      orthonormal := transpose_q_mul_q a tall
      columnNorms := columnNorms_factor a tall }⟩

noncomputable def proportional : Mat ℝ 3 2 := .ofFn fun i j => i.val * (j.val + 1)

theorem factor_factorizes_proportional :
    2 ≤ 3 ∧ ∃ qr, factor? proportional = .ok qr ∧ qr.Factorizes proportional :=
  ⟨by decide, factor_factorizes proportional (by decide)⟩

/-! ### Products with the orthogonal factor -/

theorem applyQt?_toArray (qr : PivotedQR ℝ m n) (b : Vector ℝ m) :
    qr.applyQt? b.toArray = .ok (qr.applyQt b) :=
  dif_pos b.size_toArray

theorem toTriangle?_toArray (qr : PivotedQR ℝ m n) (b : Vector ℝ m) :
    qr.toTriangle? b.toArray =
      .ok (⟨qr.triangular, qr.pivot, qr.columnNorms, qr.tall⟩, qr.project b) := by
  rw [toTriangle?, applyQt?_toArray]
  rfl

theorem euclid_applyQt (a : Mat ℝ m n) (tall : n ≤ m) (b : Vector ℝ m) :
    euclid ((factor a tall).applyQt b) = euclid b := by
  have hdot := dot_applyQt a tall b b
  rw [dot_eq, dot_eq] at hdot
  simp only [euclid, pow_two, hdot]

/-- What is left of a factorization holds `R`, whatever stands below it. -/
theorem r_triangle (qr : PivotedQR ℝ m n) {i j : Fin n} (h : i ≤ j) :
    (⟨qr.triangular, qr.pivot, qr.columnNorms, qr.tall⟩ : Triangle ℝ m n).r[i][j] = qr.r[i][j] := by
  rw [getElem_r, upperPart, if_pos h]
  rfl

/-- How the two ways of applying the orthogonal factor of `qr` to the vector `b` fit together:
`image` is the product with the square factor, `triangle` and `head` are what is left once the
reflections have been given up. -/
structure AppliesQ (qr : PivotedQR ℝ m n) (b image : Vector ℝ m) (triangle : Triangle ℝ m n)
    (head : Vector ℝ n) : Prop where
  length : euclid image = euclid b
  thin : ∀ j : Fin n, image[j.castLE qr.tall] = (qr.q.toMatrixᵀ *ᵥ coords b) j
  head_eq : ∀ j : Fin n, head[j] = image[j.castLE qr.tall]
  upper : ∀ i j : Fin n, i ≤ j → triangle.r[i][j] = qr.r[i][j]
  pivot : triangle.pivot = qr.pivot
  columnNorms : triangle.columnNorms = qr.columnNorms

/-- The reflections in order, which take `b` to `Qᵗ·b`, and the reflections in reverse, which make
up the thin factor, agree for every matrix, whatever its rank, and every vector. -/
theorem factor_appliesQ (a : Mat ℝ m n) (tall : n ≤ m) :
    ∃ qr, factor? a = .ok qr ∧ ∀ b : Vector ℝ m, ∃ image triangle head,
      qr.applyQt? b.toArray = .ok image ∧ qr.toTriangle? b.toArray = .ok (triangle, head) ∧
        qr.AppliesQ b image triangle head := by
  refine ⟨factor a tall, factor?_eq_ok a tall, fun b => ?_⟩
  refine ⟨_, _, _, applyQt?_toArray _ b, toTriangle?_toArray _ b, ?_⟩
  have hhead : ∀ j : Fin n, ((factor a tall).project b)[j] =
      ((factor a tall).applyQt b)[j.castLE tall] := fun j => getElem_ofFn _ j
  exact
    { length := euclid_applyQt a tall b
      thin j := by
        rw [transpose_mulVec_apply, dot_column_q_eq_project]
        exact (hhead j).symm
      head_eq := hhead
      upper _ _ h := r_triangle _ h
      pivot := rfl
      columnNorms := rfl }

theorem factor_appliesQ_proportional :
    2 ≤ 3 ∧ ∃ qr, factor? proportional = .ok qr ∧ ∀ b : Vector ℝ 3, ∃ image triangle head,
      qr.applyQt? b.toArray = .ok image ∧ qr.toTriangle? b.toArray = .ok (triangle, head) ∧
        qr.AppliesQ b image triangle head :=
  ⟨by decide, factor_appliesQ proportional (by decide)⟩

/-! ### What the order of the columns achieves -/

section Order

variable (a : Mat ℝ m n) (tall : n ≤ m)

theorem sum_r_sq_le {j k : Fin n} (h : j ≤ k) :
    ∑ i ∈ .Icc j k, (factor a tall).r[i][k] ^ 2 ≤ (factor a tall).r[j][j] ^ 2 := by
  rw [r_self]
  refine le_trans ?_ (sum_upperPart_sq_le a tall h)
  simp only [getElem_r]
  exact Finset.sum_le_sum_of_subset_of_nonneg (fun i hi => Finset.mem_Ici.2 (Finset.mem_Icc.1 hi).1)
    fun _ _ _ => sq_nonneg _

theorem abs_r_le {j k : Fin n} (h : j ≤ k) :
    |(factor a tall).r[k][k]| ≤ |(factor a tall).r[j][j]| := by
  refine sq_le_sq.1 (le_trans ?_ (sum_r_sq_le a tall h))
  exact Finset.single_le_sum (f := fun i => (factor a tall).r[i][k] ^ 2) (fun _ _ => sq_nonneg _)
    (Finset.mem_Icc.2 ⟨h, le_rfl⟩)

theorem r_eq_zero {j i k : Fin n} (h : (factor a tall).r[j][j] = 0) (hi : j ≤ i) :
    (factor a tall).r[i][k] = 0 := by
  rw [r_self] at h
  rw [getElem_r, upperPart_eq_zero a tall h hi]

/-- Neither orthonormal columns nor their order affect the rank. -/
theorem rank_r : (factor a tall).r.toMatrix.rank = a.toMatrix.rank := by
  have hpermuted : (a.toMatrix.submatrix id (exchanges a tall)).rank = a.toMatrix.rank :=
    a.toMatrix.rank_submatrix (Equiv.refl _) (exchanges a tall)
  rw [← hpermuted, ← q_mul_r]
  refine le_antisymm ?_ (rank_mul_le_right _ _)
  -- `R` is the transpose of `Q` times the product
  have hleft := rank_mul_le_right (factor a tall).q.toMatrixᵀ
    ((factor a tall).q.toMatrix * (factor a tall).r.toMatrix)
  rwa [← Matrix.mul_assoc, transpose_q_mul_q, Matrix.one_mul] at hleft

theorem rank_eq {count : ℕ} (hcount : count ≤ n)
    (hdiagonal : ∀ i : Fin n, i.val < count → (factor a tall).r[i][i] ≠ 0)
    (hzero : ∀ j : Fin n, j.val = count → (factor a tall).r[j][j] = 0) :
    a.toMatrix.rank = count := by
  rw [← rank_r a tall]
  refine rank_of_isUpperTriangular (isUpperTriangular_r _) hcount hdiagonal fun i hi k => ?_
  have hlt : count < n := lt_of_le_of_lt hi i.isLt
  exact r_eq_zero a tall (hzero ⟨count, hlt⟩ rfl) hi

end Order

structure RevealsRank (qr : PivotedQR ℝ m n) (a : Mat ℝ m n) : Prop where
  dominant : ∀ j k : Fin n, j ≤ k → ∑ i ∈ .Icc j k, qr.r[i][k] ^ 2 ≤ qr.r[j][j] ^ 2
  falling : ∀ j k : Fin n, j ≤ k → |qr.r[k][k]| ≤ |qr.r[j][j]|
  rows : ∀ j : Fin n, qr.r[j][j] = 0 → ∀ i k : Fin n, j ≤ i → qr.r[i][k] = 0
  rank : ∀ j : Fin n, qr.r[j][j] = 0 → (∀ i : Fin n, i < j → qr.r[i][i] ≠ 0) → a.toMatrix.rank = j
  full : (∀ j : Fin n, qr.r[j][j] ≠ 0) → a.toMatrix.rank = n

/-- The diagonal of `R` dominates what is right of it and below it. So it falls in magnitude, and its
first zero, behind which there are zero rows only, stands at the rank of the matrix. -/
theorem factor_revealsRank (a : Mat ℝ m n) (tall : n ≤ m) :
    ∃ qr, factor? a = .ok qr ∧ qr.RevealsRank a := by
  refine ⟨factor a tall, factor?_eq_ok a tall, ?_⟩
  refine ⟨fun _ _ => sum_r_sq_le a tall, fun _ _ => abs_r_le a tall, fun _ hzero _ _ hi => ?_,
    fun j hzero hbefore => ?_, fun hdiagonal => ?_⟩
  · exact r_eq_zero a tall hzero hi
  · refine rank_eq a tall j.isLt.le hbefore fun i hi => ?_
    rwa [Fin.ext hi]
  · exact rank_eq a tall le_rfl (fun i _ => hdiagonal i) fun j hj => absurd hj j.isLt.ne

theorem factor_revealsRank_proportional :
    2 ≤ 3 ∧ ∃ qr, factor? proportional = .ok qr ∧ qr.RevealsRank proportional :=
  ⟨by decide, factor_revealsRank proportional (by decide)⟩

end PivotedQR

end LeastSquares
