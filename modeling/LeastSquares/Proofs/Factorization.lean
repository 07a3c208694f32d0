import LeastSquares.Linear.PivotedQR
import LeastSquares.Proofs.Loops
import LeastSquares.Proofs.Reals

/-!
What the pivoted factorization computes, in exact arithmetic. The reflections preserve inner
products and take the columns of the matrix, in pivoted order, to the columns of `R`. So sums over
columns of `R` and heads of `Qᵗ·b` are inner products of columns of the matrix and `b`, which is all
that the search needs to know of a factorization. The diagonal of `R` dominates what is right of it
and below, so that a zero on the diagonal is followed by zero rows only.
-/

namespace LeastSquares

variable {m n : ℕ}

/-! ### Reflections -/

/-- The reflection by the part of `v` from index `j` on preserves inner products. -/
def IsReflector (v : Vector ℝ m) (j : Fin m) : Prop := ∑ i ∈ .Ici j, v[i] ^ 2 = 2 * v[j]

/-- The exact reflection needs no exception: where `v[j]` vanishes, so does the quotient. -/
theorem getElem_reflect (v b : Vector ℝ m) (j i : Fin m) :
    (reflect v j b)[i] =
      if j ≤ i then b[i] - (∑ l ∈ .Ici j, v[l] * b[l]) / v[j] * v[i] else b[i] := by
  by_cases hzero : v[j] = 0
  · rw [reflect, if_pos (beq_iff_eq.2 hzero), hzero]
    simp
  · rw [reflect, if_neg (by simpa using hzero), getElem_ofFn, sumFromZero_eq, sum_map_starting]
    split
    · ring
    · rfl

theorem getElem_reflect_of_lt (v b : Vector ℝ m) {j i : Fin m} (h : i < j) :
    (reflect v j b)[i] = b[i] := by
  rw [getElem_reflect, if_neg (not_le.2 h)]

theorem reflect_of_eq_zero {v : Vector ℝ m} {j : Fin m} (h : v[j] = 0) (b : Vector ℝ m) :
    reflect v j b = b := by
  rw [reflect, if_pos (beq_iff_eq.2 h)]

theorem reflect_of_tail_eq_zero {v b : Vector ℝ m} {j : Fin m} (h : ∀ i, j ≤ i → b[i] = 0) :
    reflect v j b = b := by
  refine ext_getElem fun i => ?_
  have hsum : ∑ l ∈ .Ici j, v[l] * b[l] = 0 :=
    Finset.sum_eq_zero fun l hl => by rw [h l (Finset.mem_Ici.1 hl), mul_zero]
  rw [getElem_reflect, hsum]
  simp

/-- A reflection preserves inner products, taken over any indices that include those it changes. -/
theorem sum_reflect {v : Vector ℝ m} {j : Fin m} (h : IsReflector v j) {S : Finset (Fin m)}
    (hS : Finset.Ici j ⊆ S) (x y : Vector ℝ m) :
    ∑ i ∈ S, (reflect v j x)[i] * (reflect v j y)[i] = ∑ i ∈ S, x[i] * y[i] := by
  rw [← Finset.sum_sdiff hS, ← Finset.sum_sdiff hS]
  congr 1
  · refine Finset.sum_congr rfl fun i hi => ?_
    have hlt : i < j := by simpa using (Finset.mem_sdiff.1 hi).2
    rw [getElem_reflect_of_lt v x hlt, getElem_reflect_of_lt v y hlt]
  · have hexpand : ∀ i ∈ Finset.Ici j, (reflect v j x)[i] * (reflect v j y)[i] =
        x[i] * y[i] - (∑ l ∈ .Ici j, v[l] * y[l]) / v[j] * (v[i] * x[i])
          - (∑ l ∈ .Ici j, v[l] * x[l]) / v[j] * (v[i] * y[i])
          + (∑ l ∈ .Ici j, v[l] * x[l]) / v[j] * ((∑ l ∈ .Ici j, v[l] * y[l]) / v[j]) *
            v[i] ^ 2 := by
      intro i hi
      rw [getElem_reflect, getElem_reflect, if_pos (Finset.mem_Ici.1 hi)]
      rw [if_pos (Finset.mem_Ici.1 hi)]
      ring
    rw [Finset.sum_congr rfl hexpand, Finset.sum_add_distrib, Finset.sum_sub_distrib,
      Finset.sum_sub_distrib, ← Finset.mul_sum, ← Finset.mul_sum, ← Finset.mul_sum, h]
    rcases eq_or_ne v[j] 0 with hzero | hne
    · rw [hzero]
      simp
    · field_simp
      ring

theorem dot_reflect {v : Vector ℝ m} {j : Fin m} (h : IsReflector v j) (x y : Vector ℝ m) :
    dot (reflect v j x) (reflect v j y) = dot x y := by
  rw [dot_eq, dot_eq]
  exact sum_reflect h (Finset.subset_univ _) x y

/-- The entries of the upper triangle of a square matrix; what stands below it does not count. -/
def upperPart (r : Mat ℝ n n) (i j : Fin n) : ℝ := if i ≤ j then r[i][j] else 0

theorem upperPart_self (r : Mat ℝ n n) (j : Fin n) : upperPart r j j = r[j][j] := if_pos le_rfl

theorem upperPart_of_lt (r : Mat ℝ n n) {i j : Fin n} (h : j < i) : upperPart r i j = 0 :=
  if_neg (not_le.2 h)

namespace PivotedQR

namespace Stage

/-! ### The reflection of one step -/

section Reflector

variable {a : Mat ℝ m n} {row : Fin m} {j : Fin n} {norm : ℝ}

theorem getElem_reflector {i : Fin m} (hi : row ≤ i) :
    (reflector a row j norm)[i] = a[i][j] / norm + if i = row then 1 else 0 := by
  rw [reflector, getElem_ofFn, if_neg (not_lt.2 hi)]
  split <;> simp

theorem getElem_reflector_of_lt {i : Fin m} (hi : i < row) :
    (reflector a row j norm)[i] = a[i][j] := by
  rw [reflector, getElem_ofFn, if_pos hi]

variable (hsquare : norm ^ 2 = ∑ i ∈ .Ici row, a[i][j] ^ 2)

include hsquare

theorem isReflector_reflector (hnorm : norm ≠ 0) : IsReflector (reflector a row j norm) row := by
  have hterm : ∀ i ∈ Finset.Ici row, (reflector a row j norm)[i] ^ 2 =
      a[i][j] ^ 2 / norm ^ 2 + if i = row then 2 * (a[i][j] / norm) + 1 else 0 := by
    intro i hi
    rw [getElem_reflector (Finset.mem_Ici.1 hi)]
    split
    · ring
    · ring
  rw [IsReflector, Finset.sum_congr rfl hterm, Finset.sum_add_distrib, ← Finset.sum_div, ← hsquare,
    div_self (pow_ne_zero 2 hnorm), Finset.sum_ite_eq' (.Ici row), if_pos (Finset.mem_Ici.2 le_rfl),
    getElem_reflector le_rfl, if_pos rfl]
  ring

/-- The reflection clears the column it is made for. -/
theorem getElem_reflect_reflector (hnorm : norm ≠ 0) (hsign : 0 ≤ a[row][j] * norm) {i : Fin m}
    (hi : row ≤ i) :
    (reflect (reflector a row j norm) row (a.column j))[i] = if i = row then -norm else 0 := by
  have hterm : ∀ l ∈ Finset.Ici row, (reflector a row j norm)[l] * (a.column j)[l] =
      a[l][j] ^ 2 / norm + if l = row then a[l][j] else 0 := by
    intro l hl
    rw [getElem_reflector (Finset.mem_Ici.1 hl), Mat.getElem_column]
    split
    · ring
    · ring
  have hpivot : a[row][j] + norm ≠ 0 := by
    intro hsum
    have hpos : 0 < norm ^ 2 := by positivity
    rw [eq_neg_of_add_eq_zero_left hsum] at hsign
    linarith
  rw [getElem_reflect, if_pos hi, Finset.sum_congr rfl hterm, Finset.sum_add_distrib,
    ← Finset.sum_div, ← hsquare, Finset.sum_ite_eq' (.Ici row), if_pos (Finset.mem_Ici.2 le_rfl),
    getElem_reflector le_rfl, getElem_reflector hi, if_pos rfl, Mat.getElem_column]
  have hne : a[row][j] / norm + 1 ≠ 0 := by
    rw [div_add_one hnorm]
    exact div_ne_zero hpivot hnorm
  split
  · next heq =>
    rw [heq]
    field_simp
    ring
  · field_simp
    ring

end Reflector

/-! ### The steps so far -/

noncomputable def reflected (tall : n ≤ m) (s : Stage ℝ m n) (count : ℕ) (b : Vector ℝ m) :
    Vector ℝ m :=
  ((List.finRange n).take count).foldl (fun b j => reflect (s.a.column j) (j.castLE tall) b) b

/-- What the first `count` reflections have made of column `k`. The diagonal entry of a column that
is done is kept apart, and the reflection stands where its zeros are. -/
noncomputable def image (s : Stage ℝ m n) (count : ℕ) (k : Fin n) : Vector ℝ m :=
  Vector.ofFn fun i =>
    if k.val < count then if i.val < k.val then s.a[i][k] else if i.val = k.val then s.norms[k] else 0
    else s.a[i][k]

/-- The sum of squares of what is left of column `k` after `count` steps. -/
noncomputable def tail (s : Stage ℝ m n) (count : ℕ) (k : Fin n) : ℝ :=
  ∑ i : Fin m with count ≤ i.val, s.a[i][k] ^ 2

structure Reduces (a : Mat ℝ m n) (tall : n ≤ m) (count : ℕ) (s : Stage ℝ m n) : Prop where
  distinct : Distinct s.pivot
  reflectors : ∀ j : Fin n, j.val < count → IsReflector (s.a.column j) (j.castLE tall)
  columns : ∀ k, s.reflected tall count (a.column s.pivot[k]) = s.image count k
  dominant : ∀ j : Fin n, j.val < count → ∀ k, j < k →
    ∑ i : Fin m with j.val ≤ i.val, (s.image count k)[i] ^ 2 ≤ s.norms[j] ^ 2

/-- The norms of the columns that are not done are those of their tails. -/
def NormsFrom (count : ℕ) (s : Stage ℝ m n) : Prop :=
  ∀ k : Fin n, count ≤ k.val → s.norms[k] = √(s.tail count k)

variable {a : Mat ℝ m n} {tall : n ≤ m} {s : Stage ℝ m n}

theorem image_of_le {count : ℕ} {k : Fin n} (h : count ≤ k.val) :
    s.image count k = s.a.column k := by
  refine ext_getElem fun i => ?_
  rw [image, getElem_ofFn, if_neg (Nat.not_lt.2 h), Mat.getElem_column]

theorem getElem_image_of_lt {count : ℕ} {k : Fin n} (h : k.val < count) (i : Fin m) :
    (s.image count k)[i] =
      if i.val < k.val then s.a[i][k] else if i.val = k.val then s.norms[k] else 0 := by
  rw [image, getElem_ofFn, if_pos h]

theorem tail_nonneg (count : ℕ) (k : Fin n) : 0 ≤ s.tail count k :=
  Finset.sum_nonneg fun _ _ => sq_nonneg _

theorem reduces_start (a : Mat ℝ m n) (tall : n ≤ m) : Reduces a tall 0 (start a) where
  distinct c d h := by
    simpa [start, getElem_eq_val, Fin.ext_iff] using h
  reflectors _ h := absurd h (Nat.not_lt_zero _)
  columns k := by
    refine ext_getElem fun i => ?_
    have hpivot : (start a).pivot[k] = k := by simp [start, getElem_eq_val]
    change (a.column (start a).pivot[k])[i] = ((start a).image 0 k)[i]
    rw [hpivot, image, getElem_ofFn, if_neg (Nat.not_lt_zero _), Mat.getElem_column]
    rfl
  dominant _ h := absurd h (Nat.not_lt_zero _)

theorem normsFrom_start (a : Mat ℝ m n) : NormsFrom 0 (start a) := by
  intro k _
  simp only [start, getElem_ofFn, norm_toList, tail, euclid, Mat.getElem_column]
  congr 1
  refine Finset.sum_congr ?_ fun _ _ => rfl
  ext
  simp

/-! ### Exchanging columns -/

section Exchange

variable {count : ℕ} {j k : Fin n}

theorem getElem_exchange_swap {α : Type} (x : Vector α n) (c : Fin n) :
    (LeastSquares.exchange x j k)[c] = x[Equiv.swap j k c] := by
  rw [getElem_exchange, Equiv.swap_apply_def]
  split
  · rfl
  · split <;> rfl

theorem getElem_exchange_a (i : Fin m) (c : Fin n) :
    (s.exchange j k).a[i][c] = s.a[i][Equiv.swap j k c] := by
  rw [exchange, getElem_map, getElem_exchange_swap]

theorem swap_of_lt {c : Fin n} (hj : count ≤ j.val) (hk : count ≤ k.val) (hc : c.val < count) :
    Equiv.swap j k c = c := by
  refine Equiv.swap_apply_of_ne_of_ne ?_ ?_
  · rintro rfl
    omega
  · rintro rfl
    omega

theorem column_exchange_of_lt {c : Fin n} (hj : count ≤ j.val) (hk : count ≤ k.val)
    (hc : c.val < count) : (s.exchange j k).a.column c = s.a.column c := by
  refine ext_getElem fun i => ?_
  rw [Mat.getElem_column, Mat.getElem_column, getElem_exchange_a, swap_of_lt hj hk hc]

theorem norms_exchange_of_lt {c : Fin n} (hk : count ≤ k.val) (hc : c.val < count) :
    (s.exchange j k).norms[c] = s.norms[c] := by
  have hne : k ≠ c := by
    rintro rfl
    omega
  rw [exchange, getElem_put, if_neg hne]

theorem norms_exchange_of_ne {c : Fin n} (hc : c ≠ j) :
    (s.exchange j k).norms[c] = s.norms[Equiv.swap j k c] := by
  rw [exchange, getElem_put, Equiv.swap_apply_def, if_neg hc]
  rcases eq_or_ne c k with rfl | hne
  · rw [if_pos rfl, if_pos rfl]
  · rw [if_neg hne.symm, if_neg hne]

theorem image_exchange (hj : count ≤ j.val) (hk : count ≤ k.val) (c : Fin n) :
    (s.exchange j k).image count c = s.image count (Equiv.swap j k c) := by
  refine ext_getElem fun i => ?_
  rw [image, image, getElem_ofFn, getElem_ofFn, getElem_exchange_a]
  by_cases hc : c.val < count
  · rw [swap_of_lt hj hk hc, norms_exchange_of_lt hk hc]
  · have hswap : ¬ (Equiv.swap j k c).val < count := by
      rw [Equiv.swap_apply_def]
      split
      · omega
      · split
        · omega
        · exact hc
    rw [if_neg hc, if_neg hswap]

theorem tail_exchange (c : Fin n) : (s.exchange j k).tail count c = s.tail count (Equiv.swap j k c) :=
  Finset.sum_congr rfl fun i _ => by rw [getElem_exchange_a]

theorem reflected_exchange (hj : count ≤ j.val) (hk : count ≤ k.val) (b : Vector ℝ m) :
    (s.exchange j k).reflected tall count b = s.reflected tall count b := by
  unfold reflected
  refine List.foldl_ext _ _ _ fun b c hc => ?_
  have hlt : c.val < count := by
    rw [← filter_val_lt] at hc
    simpa using hc
  rw [column_exchange_of_lt hj hk hlt]

theorem Reduces.exchange (h : Reduces a tall count s) (hj : count ≤ j.val) (hk : count ≤ k.val) :
    Reduces a tall count (s.exchange j k) where
  distinct c d hcd := by
    simp only [Stage.exchange, getElem_exchange_swap] at hcd
    exact (Equiv.swap j k).injective (h.distinct _ _ hcd)
  reflectors c hc := by
    rw [column_exchange_of_lt hj hk hc]
    exact h.reflectors c hc
  columns c := by
    have hpivot : (s.exchange j k).pivot[c] = s.pivot[Equiv.swap j k c] :=
      getElem_exchange_swap s.pivot c
    rw [reflected_exchange hj hk, hpivot, h.columns, image_exchange hj hk]
  dominant c hc d hcd := by
    rw [image_exchange hj hk, norms_exchange_of_lt hk hc]
    refine h.dominant c hc _ ?_
    rw [Equiv.swap_apply_def]
    split
    · exact Fin.lt_def.2 (lt_of_lt_of_le hc hk)
    · split
      · exact Fin.lt_def.2 (lt_of_lt_of_le hc hj)
      · exact hcd

end Exchange

/-! ### Clearing a column -/

section Clear

variable {j : Fin n}

theorem filter_le_val (tall : n ≤ m) (j : Fin n) :
    (Finset.univ.filter fun i : Fin m => j.val ≤ i.val) = .Ici (j.castLE tall) := by
  ext i
  simp [Fin.le_def]

theorem tail_eq (tall : n ≤ m) (j k : Fin n) :
    s.tail j k = ∑ i ∈ .Ici (j.castLE tall), s.a[i][k] ^ 2 := by
  rw [tail, filter_le_val tall]

noncomputable def signedNorm (s : Stage ℝ m n) (tall : n ≤ m) (j : Fin n) : ℝ :=
  if s.a[j.castLE tall][j] < 0 then -√(s.tail j j) else √(s.tail j j)

theorem signedNorm_sq (s : Stage ℝ m n) (tall : n ≤ m) (j : Fin n) :
    s.signedNorm tall j ^ 2 = s.tail j j := by
  unfold signedNorm
  split
  · rw [neg_sq, Real.sq_sqrt (tail_nonneg _ _)]
  · rw [Real.sq_sqrt (tail_nonneg _ _)]

theorem signedNorm_sign (s : Stage ℝ m n) (tall : n ≤ m) (j : Fin n) :
    0 ≤ s.a[j.castLE tall][j] * s.signedNorm tall j := by
  have hsqrt := Real.sqrt_nonneg (s.tail j j)
  unfold signedNorm
  split
  · nlinarith
  · exact mul_nonneg (by linarith) hsqrt

theorem signedNorm_eq_zero {s : Stage ℝ m n} {tall : n ≤ m} {j : Fin n} :
    s.signedNorm tall j = 0 ↔ s.tail j j = 0 := by
  rw [← signedNorm_sq s tall, sq_eq_zero_iff]

theorem norm_column (s : Stage ℝ m n) (tall : n ≤ m) (j : Fin n) :
    NormedScalar.norm ((starting (j.castLE tall)).map fun i => s.a[i][j]) = √(s.tail j j) := by
  rw [norm_map, sum_map_starting, tail_eq tall]

section ReflectColumns

variable {k : Fin n} {norm : ℝ}

theorem getElem_reflectColumns (i : Fin m) :
    (s.reflectColumns tall j norm).a[i][k] =
      (if j < k then reflect (reflector s.a (j.castLE tall) j norm) (j.castLE tall) (s.a.column k)
      else if k = j then reflector s.a (j.castLE tall) j norm else s.a.column k)[i] := by
  simp only [reflectColumns, Mat.getElem_ofColumns, getElem_ofFn]

theorem column_reflectColumns_of_lt (h : k < j) :
    (s.reflectColumns tall j norm).a.column k = s.a.column k := by
  refine ext_getElem fun i => ?_
  rw [Mat.getElem_column, getElem_reflectColumns, if_neg h.asymm, if_neg h.ne]

theorem column_reflectColumns_self :
    (s.reflectColumns tall j norm).a.column j = reflector s.a (j.castLE tall) j norm := by
  refine ext_getElem fun i => ?_
  rw [Mat.getElem_column, getElem_reflectColumns, if_neg (lt_irrefl j), if_pos rfl]

theorem column_reflectColumns_of_gt (h : j < k) :
    (s.reflectColumns tall j norm).a.column k =
      reflect ((s.reflectColumns tall j norm).a.column j) (j.castLE tall) (s.a.column k) := by
  refine ext_getElem fun i => ?_
  rw [Mat.getElem_column, getElem_reflectColumns, if_pos h, column_reflectColumns_self]

theorem norms_reflectColumns_self : (s.reflectColumns tall j norm).norms[j] = -norm := by
  simp only [reflectColumns]
  rw [getElem_put, if_pos rfl]

theorem norms_reflectColumns_of_lt (h : k < j) :
    (s.reflectColumns tall j norm).norms[k] = s.norms[k] := by
  simp only [reflectColumns]
  rw [getElem_put, if_neg h.ne', getElem_map, getElem_ofFn, if_neg h.asymm]

theorem norms_reflectColumns_of_gt (h : j < k) :
    (s.reflectColumns tall j norm).norms[k] =
      (downdate s.norms[k] s.reference[k] (s.reflectColumns tall j norm).a[j.castLE tall][k]
        ((after (j.castLE tall)).map fun i => (s.reflectColumns tall j norm).a[i][k])).1 := by
  simp only [reflectColumns]
  rw [getElem_put, if_neg h.ne, getElem_map, getElem_ofFn, if_pos h]

end ReflectColumns

/-- Updating a norm is exact, whether or not it is computed afresh. -/
theorem downdate_eq {norm reference top : ℝ} {row : Fin m} {b : Fin m → ℝ}
    (hnorm : norm = √(∑ i ∈ .Ici row, b i ^ 2)) (htop : top = b row) :
    (downdate norm reference top ((after row).map b)).1 = √(∑ i ∈ .Ioi row, b i ^ 2) := by
  have hsplit : ∑ i ∈ .Ici row, b i ^ 2 = top ^ 2 + ∑ i ∈ .Ioi row, b i ^ 2 := by
    rw [htop, ← Finset.Ioi_insert row, Finset.sum_insert Finset.notMem_Ioi_self]
  have hrest : 0 ≤ ∑ i ∈ .Ioi row, b i ^ 2 := Finset.sum_nonneg fun _ _ => sq_nonneg _
  rw [hsplit] at hnorm
  have hsquare : norm ^ 2 = top ^ 2 + ∑ i ∈ .Ioi row, b i ^ 2 := by
    rw [hnorm, Real.sq_sqrt (by positivity)]
  unfold downdate
  by_cases hzero : norm = 0
  · have hrest' : ∑ i ∈ .Ioi row, b i ^ 2 = 0 := by
      rw [hzero] at hsquare
      nlinarith
    rw [if_neg (by simpa using hzero), hzero, hrest', Real.sqrt_zero]
  · have hvalue : norm * √(max (1 - top / norm * (top / norm)) 0) =
        √(∑ i ∈ .Ioi row, b i ^ 2) := by
      have hone : 1 - top / norm * (top / norm) = (∑ i ∈ .Ioi row, b i ^ 2) / norm ^ 2 := by
        field_simp
        linarith
      have hpos : 0 ≤ norm := by
        rw [hnorm]
        exact Real.sqrt_nonneg _
      rw [hone, max_eq_left (by positivity), Real.sqrt_div hrest, Real.sqrt_sq hpos,
        mul_div_cancel₀ _ hzero]
    rw [if_pos (by simpa using hzero)]
    dsimp only
    -- either computed afresh or updated, which is the same where no digits are lost
    split
    · rw [norm_map, sum_map_after]
    · exact hvalue

theorem clear_of_ne (tall : n ≤ m) (h : s.tail j j ≠ 0) :
    s.clear tall j = s.reflectColumns tall j (s.signedNorm tall j) := by
  have hsqrt : √(s.tail j j) ≠ 0 := by
    rwa [Ne, Real.sqrt_eq_zero (tail_nonneg _ _)]
  simp only [clear, norm_column]
  rw [if_pos (by simpa using hsqrt)]
  rfl

theorem clear_of_eq (tall : n ≤ m) (h : s.tail j j = 0) :
    s.clear tall j = { s with norms := put s.norms j 0 } := by
  simp only [clear, norm_column, h, Real.sqrt_zero, neg_zero]
  rw [if_neg (by simp)]

theorem pivot_clear : (s.clear tall j).pivot = s.pivot := by
  unfold clear
  dsimp only
  split <;> rfl

theorem column_clear_of_lt {k : Fin n} (h : k < j) :
    (s.clear tall j).a.column k = s.a.column k := by
  rcases eq_or_ne (s.tail j j) 0 with hzero | hne
  · rw [clear_of_eq tall hzero]
  · rw [clear_of_ne tall hne, column_reflectColumns_of_lt h]

theorem norms_clear_of_lt {k : Fin n} (h : k < j) : (s.clear tall j).norms[k] = s.norms[k] := by
  rcases eq_or_ne (s.tail j j) 0 with hzero | hne
  · rw [clear_of_eq tall hzero]
    exact (getElem_put _ _ _ _).trans (if_neg h.ne')
  · rw [clear_of_ne tall hne, norms_reflectColumns_of_lt h]

theorem norms_clear_self : (s.clear tall j).norms[j] ^ 2 = s.tail j j := by
  rcases eq_or_ne (s.tail j j) 0 with hzero | hne
  · rw [clear_of_eq tall hzero, hzero, getElem_put, if_pos rfl, zero_pow two_ne_zero]
  · rw [clear_of_ne tall hne, norms_reflectColumns_self, neg_sq, signedNorm_sq]

theorem eq_zero_of_tail_eq_zero {k : Fin n} (h : s.tail j k = 0) {i : Fin m}
    (hi : j.val ≤ i.val) : s.a[i][k] = 0 := by
  have hall := (Finset.sum_eq_zero_iff_of_nonneg fun _ _ => sq_nonneg _).1 h
  exact sq_eq_zero_iff.1 (hall i (by simpa using hi))

theorem isReflector_clear (s : Stage ℝ m n) (tall : n ≤ m) (j : Fin n) :
    IsReflector ((s.clear tall j).a.column j) (j.castLE tall) := by
  rcases eq_or_ne (s.tail j j) 0 with hzero | hne
  · have hsum := hzero
    rw [tail_eq tall] at hsum
    simp only [clear_of_eq tall hzero, IsReflector, Mat.getElem_column]
    rw [hsum, eq_zero_of_tail_eq_zero hzero le_rfl, mul_zero]
  · rw [clear_of_ne tall hne, column_reflectColumns_self]
    refine isReflector_reflector ?_ ?_
    · rw [signedNorm_sq, tail_eq tall]
    · rwa [Ne, signedNorm_eq_zero]

theorem image_clear_of_lt {k : Fin n} (h : k < j) :
    (s.clear tall j).image (j + 1) k = s.image j k := by
  have hentry : ∀ i : Fin m, (s.clear tall j).a[i][k] = s.a[i][k] := by
    intro i
    rw [← Mat.getElem_column, ← Mat.getElem_column, column_clear_of_lt h]
  refine ext_getElem fun i => ?_
  rw [getElem_image_of_lt (Nat.lt_succ_of_lt h), getElem_image_of_lt (Fin.lt_def.1 h), hentry,
    norms_clear_of_lt h]

theorem image_clear_self :
    (s.clear tall j).image (j + 1) j =
      reflect ((s.clear tall j).a.column j) (j.castLE tall) (s.a.column j) := by
  refine ext_getElem fun i => ?_
  rw [getElem_image_of_lt (Nat.lt_succ_self _)]
  rcases eq_or_ne (s.tail j j) 0 with hzero | hne
  · have htail : ∀ i, j.castLE tall ≤ i → (s.a.column j)[i] = 0 := fun i hi => by
      rw [Mat.getElem_column, eq_zero_of_tail_eq_zero hzero hi]
    rw [reflect_of_tail_eq_zero htail, clear_of_eq tall hzero, Mat.getElem_column, getElem_put,
      if_pos rfl]
    split
    · rfl
    · next hi =>
      rw [eq_zero_of_tail_eq_zero hzero (not_lt.1 hi)]
      split <;> rfl
  · have hsigned : s.signedNorm tall j ≠ 0 := by rwa [Ne, signedNorm_eq_zero]
    have hsquare := (signedNorm_sq s tall j).trans (tail_eq tall j j)
    rw [clear_of_ne tall hne, column_reflectColumns_self, norms_reflectColumns_self,
      ← Mat.getElem_column, column_reflectColumns_self]
    split
    · next hi =>
      have hlt : i < j.castLE tall := hi
      rw [getElem_reflect_of_lt _ _ hlt, getElem_reflector_of_lt hlt, Mat.getElem_column]
    · next hi =>
      rw [getElem_reflect_reflector hsquare hsigned (signedNorm_sign s tall j) (not_lt.1 hi)]
      simp [Fin.ext_iff]

theorem column_clear_of_gt {k : Fin n} (h : j < k) :
    (s.clear tall j).a.column k =
      reflect ((s.clear tall j).a.column j) (j.castLE tall) (s.a.column k) := by
  rcases eq_or_ne (s.tail j j) 0 with hzero | hne
  · rw [clear_of_eq tall hzero, reflect_of_eq_zero]
    rw [Mat.getElem_column, eq_zero_of_tail_eq_zero hzero le_rfl]
  · rw [clear_of_ne tall hne, column_reflectColumns_of_gt h]

/-- A step reflects what the steps before it have made of the columns. -/
theorem image_clear (k : Fin n) :
    (s.clear tall j).image (j + 1) k =
      reflect ((s.clear tall j).a.column j) (j.castLE tall) (s.image j k) := by
  rcases lt_trichotomy k j with h | rfl | h
  · rw [image_clear_of_lt h, reflect_of_tail_eq_zero]
    intro i hi
    have hlt : k.val < i.val := lt_of_lt_of_le h hi
    rw [getElem_image_of_lt h, if_neg hlt.asymm, if_neg hlt.ne']
  · rw [image_clear_self, image_of_le le_rfl]
  · rw [image_of_le h, image_of_le (le_of_lt h), column_clear_of_gt h]

theorem tail_clear (tall : n ≤ m) {k : Fin n} (h : j < k) :
    ∑ i ∈ .Ici (j.castLE tall), (s.clear tall j).a[i][k] ^ 2 = s.tail j k := by
  have hsquares := sum_reflect (isReflector_clear s tall j)
    (Finset.Subset.refl _) (s.a.column k) (s.a.column k)
  rw [← column_clear_of_gt h] at hsquares
  simp only [Mat.getElem_column, ← pow_two] at hsquares
  rw [hsquares, tail_eq tall]

/-- The norms stay exact, as the column that is cleared was the largest. -/
theorem normsFrom_clear (h : ∀ k, j < k → s.norms[k] = √(s.tail j k))
    (hlargest : ∀ k, j < k → s.tail j k ≤ s.tail j j) : NormsFrom (j + 1) (s.clear tall j) := by
  intro k hk
  have hlt : j < k := hk
  have htail : (s.clear tall j).tail (j + 1) k =
      ∑ i ∈ .Ioi (j.castLE tall), (s.clear tall j).a[i][k] ^ 2 := by
    refine Finset.sum_congr ?_ fun _ _ => rfl
    ext i
    simp [Fin.lt_def]
  have hnorm := h k hlt
  rw [htail]
  rcases eq_or_ne (s.tail j j) 0 with hzero | hne
  · have hk : s.tail j k = 0 := by
      refine le_antisymm ?_ (tail_nonneg _ _)
      rw [← hzero]
      exact hlargest k hlt
    have hrest : ∑ i ∈ .Ioi (j.castLE tall), s.a[i][k] ^ 2 = 0 := by
      refine Finset.sum_eq_zero fun i hi => ?_
      have hlt : j.castLE tall < i := Finset.mem_Ioi.1 hi
      rw [eq_zero_of_tail_eq_zero hk hlt.le, zero_pow two_ne_zero]
    rw [clear_of_eq tall hzero, hrest, getElem_put, if_neg hlt.ne, hnorm, hk]
  · rw [← tail_clear tall hlt, clear_of_ne tall hne] at hnorm
    rw [clear_of_ne tall hne, norms_reflectColumns_of_gt hlt]
    exact downdate_eq hnorm rfl

theorem reflected_clear (b : Vector ℝ m) :
    (s.clear tall j).reflected tall (j + 1) b =
      reflect ((s.clear tall j).a.column j) (j.castLE tall) (s.reflected tall j b) := by
  unfold reflected
  rw [take_succ_finRange j.isLt, List.foldl_append, List.foldl_cons, List.foldl_nil]
  congr 1
  refine List.foldl_ext _ _ _ fun b c hc => ?_
  have hlt : c < j := by
    rw [← filter_val_lt] at hc
    simpa using hc
  rw [column_clear_of_lt hlt]

theorem Reduces.clear (h : Reduces a tall j s) (hlargest : ∀ k, j < k → s.tail j k ≤ s.tail j j) :
    Reduces a tall (j + 1) (s.clear tall j) where
  distinct := by
    rw [pivot_clear]
    exact h.distinct
  reflectors c hc := by
    rcases Nat.lt_succ_iff_lt_or_eq.1 hc with hlt | heq
    · rw [column_clear_of_lt hlt]
      exact h.reflectors c hlt
    · obtain rfl := Fin.ext heq
      exact isReflector_clear _ tall c
  columns k := by rw [reflected_clear, pivot_clear, h.columns, image_clear]
  dominant c hc k hck := by
    rw [image_clear]
    -- the reflection acts from row `j` on, and so keeps the squares from an earlier row on
    have hsub : Finset.Ici (j.castLE tall) ⊆
        Finset.univ.filter fun i : Fin m => c.val ≤ i.val := by
      intro i hi
      have hji : j.castLE tall ≤ i := Finset.mem_Ici.1 hi
      simpa using (Nat.lt_succ_iff.1 hc).trans hji
    have hsquares := sum_reflect (isReflector_clear s tall j) hsub
      (s.image j k) (s.image j k)
    simp only [← pow_two] at hsquares
    rw [hsquares]
    rcases Nat.lt_succ_iff_lt_or_eq.1 hc with hlt | heq
    · rw [norms_clear_of_lt hlt]
      exact h.dominant c hlt k hck
    · obtain rfl := Fin.ext heq
      rw [norms_clear_self, image_of_le (le_of_lt hck)]
      simp only [Mat.getElem_column]
      exact hlargest k hck

end Clear

/-! ### The whole factorization -/

noncomputable def larger (norms : Vector ℝ n) (best k : Fin n) : Fin n :=
  if norms[best] < norms[k] then k else best

theorem le_norms_larger (norms : Vector ℝ n) (best k : Fin n) :
    norms[best] ≤ norms[larger norms best k] ∧ norms[k] ≤ norms[larger norms best k] := by
  unfold larger
  split
  · next hlt => exact ⟨hlt.le, le_rfl⟩
  · next hge => exact ⟨le_rfl, not_lt.1 hge⟩

theorem foldl_larger (norms : Vector ℝ n) {j best : Fin n} {l : List (Fin n)}
    (hl : ∀ k ∈ l, j ≤ k) (hbest : j ≤ best) :
    j ≤ l.foldl (larger norms) best ∧ norms[best] ≤ norms[l.foldl (larger norms) best] ∧
      ∀ k ∈ l, norms[k] ≤ norms[l.foldl (larger norms) best] := by
  induction l generalizing best with
  | nil => exact ⟨hbest, le_rfl, by simp⟩
  | cons k l ih =>
      obtain ⟨hk, hl⟩ := List.forall_mem_cons.1 hl
      have hnext : j ≤ larger norms best k := by
        unfold larger
        split
        · exact hk
        · exact hbest
      obtain ⟨hle, hfirst, hrest⟩ := ih hl hnext
      obtain ⟨hold, hnew⟩ := le_norms_larger norms best k
      exact ⟨hle, hold.trans hfirst, List.forall_mem_cons.2 ⟨hnew.trans hfirst, hrest⟩⟩

theorem largestFrom_spec (norms : Vector ℝ n) (j : Fin n) :
    j ≤ largestFrom norms j ∧ ∀ k, j ≤ k → norms[k] ≤ norms[largestFrom norms j] := by
  have hscan : largestFrom norms j = (after j).foldl (larger norms) j := rfl
  rw [hscan]
  obtain ⟨hle, hfirst, hrest⟩ := foldl_larger norms (fun k hk => (mem_after.1 hk).le) (le_refl j)
  refine ⟨hle, fun k hk => ?_⟩
  rcases hk.eq_or_lt with rfl | hlt
  · exact hfirst
  · exact hrest k (mem_after.2 hlt)

theorem Reduces.eliminate {j : Fin n} (h : Reduces a tall j s) (hnorms : NormsFrom j s) :
    Reduces a tall (j + 1) (s.eliminate tall j) ∧ NormsFrom (j + 1) (s.eliminate tall j) := by
  obtain ⟨hle, hmax⟩ := largestFrom_spec s.norms j
  have hlargest : ∀ k, j < k → (s.exchange j (largestFrom s.norms j)).tail j k ≤
      (s.exchange j (largestFrom s.norms j)).tail j j := by
    intro k hk
    have hswap : j ≤ Equiv.swap j (largestFrom s.norms j) k := by
      rw [Equiv.swap_apply_def]
      split
      · exact hle
      · split
        · exact le_rfl
        · exact hk.le
    have hroot := hmax _ hswap
    rw [hnorms _ hswap, hnorms _ hle, Real.sqrt_le_sqrt_iff (tail_nonneg _ _)] at hroot
    rw [tail_exchange, tail_exchange, Equiv.swap_apply_left]
    exact hroot
  refine ⟨(h.exchange le_rfl hle).clear hlargest, normsFrom_clear (fun k hk => ?_) hlargest⟩
  rw [norms_exchange_of_ne hk.ne', tail_exchange]
  refine hnorms _ ?_
  rw [Equiv.swap_apply_def]
  split
  · exact hle
  · split
    · exact le_rfl
    · exact hk.le

noncomputable def final (a : Mat ℝ m n) (tall : n ≤ m) : Stage ℝ m n :=
  (List.finRange n).foldl (Stage.eliminate tall) (start a)

theorem reduces_final (a : Mat ℝ m n) (tall : n ≤ m) : Reduces a tall n (final a tall) :=
  (foldl_finRange (I := fun count s => Reduces a tall count s ∧ NormsFrom count s)
    ⟨reduces_start a tall, normsFrom_start a⟩ fun _ _ h => h.1.eliminate h.2).1

end Stage

/-! ### What is promised of a factorization -/

section Factor

variable (a : Mat ℝ m n) (tall : n ≤ m)

noncomputable def upperColumn (qr : PivotedQR ℝ m n) (k : Fin n) : Vector ℝ m :=
  Vector.ofFn fun i =>
    if i.val < k.val then qr.packed[i][k] else if i.val = k.val then qr.diagonal[k] else 0

theorem distinct_factor : Distinct (factor a tall).pivot := (Stage.reduces_final a tall).distinct

theorem applyQt_eq_reflected (b : Vector ℝ m) :
    (factor a tall).applyQt b =
      (Stage.final a tall).reflected tall n b := by
  rw [Stage.reflected, List.take_of_length_le List.length_finRange.le]
  rfl

/-- The reflections take the matrix, its columns in pivoted order, to `R`. -/
theorem applyQt_column (k : Fin n) :
    (factor a tall).applyQt (a.column (factor a tall).pivot[k]) = (factor a tall).upperColumn k := by
  rw [applyQt_eq_reflected]
  refine ((Stage.reduces_final a tall).columns k).trans (ext_getElem fun i => ?_)
  rw [Stage.getElem_image_of_lt k.isLt, upperColumn, getElem_ofFn]
  rfl

theorem dot_applyQt (b c : Vector ℝ m) :
    dot ((factor a tall).applyQt b) ((factor a tall).applyQt c) = dot b c := by
  have hreflectors := (Stage.reduces_final a tall).reflectors
  unfold applyQt
  generalize List.finRange n = l
  induction l generalizing b c with
  | nil => rfl
  | cons j l ih =>
      rw [List.foldl_cons, List.foldl_cons, ih]
      exact dot_reflect (hreflectors j j.isLt) b c

theorem columnNorms_factor (k : Fin n) :
    (factor a tall).columnNorms[k] = euclid (a.column k) := by
  change (Stage.start a).norms[k] = _
  rw [Stage.start, getElem_ofFn, norm_toList]

/-! ### The triangle that the search works with -/

theorem getElem_workspace (qr : PivotedQR ℝ m n) {i k : Fin n} (h : i ≤ k) :
    qr.workspace[i][k] = (qr.upperColumn k)[i.castLE qr.tall] := by
  simp only [workspace, triangular, upperColumn, Mat.getElem_ofFn, getElem_ofFn, Fin.val_castLE]
  rcases h.lt_or_eq with hlt | rfl
  · have hne : i.castLE qr.tall ≠ k.castLE qr.tall := by
      simpa [Fin.ext_iff] using Fin.val_ne_of_ne hlt.ne
    rw [if_neg hne, if_pos (Fin.lt_def.1 hlt)]
  · rw [if_pos rfl, if_neg (lt_irrefl _), if_pos rfl]

theorem getElem_upperColumn (qr : PivotedQR ℝ m n) (i k : Fin n) :
    (qr.upperColumn k)[i.castLE qr.tall] = upperPart qr.workspace i k := by
  unfold upperPart
  split
  · next h => rw [getElem_workspace qr h]
  · next h =>
    have hlt : k.val < i.val := not_le.1 h
    rw [upperColumn, getElem_ofFn]
    simp only [Fin.val_castLE]
    rw [if_neg hlt.asymm, if_neg hlt.ne']

theorem sum_upperColumn (qr : PivotedQR ℝ m n) (k : Fin n) (b : Vector ℝ m) :
    ∑ i : Fin m, (qr.upperColumn k)[i] * b[i] =
      ∑ i : Fin n, upperPart qr.workspace i k * b[i.castLE qr.tall] := by
  have hzero : ∀ i ∈ Finset.univ, i ∉ Finset.univ.map (Fin.castLEEmb qr.tall) →
      (qr.upperColumn k)[i] * b[i] = 0 := by
    intro i _ hi
    have hge : n ≤ i.val := by
      by_contra hlt
      exact hi (Finset.mem_map.2 ⟨⟨i.val, not_le.1 hlt⟩, Finset.mem_univ _, rfl⟩)
    have hlt := k.isLt
    rw [upperColumn, getElem_ofFn, if_neg (by omega), if_neg (by omega), zero_mul]
  rw [← Finset.sum_subset (Finset.subset_univ _) hzero, Finset.sum_map]
  refine Finset.sum_congr rfl fun i _ => ?_
  rw [← getElem_upperColumn]
  rfl

/-- Products of columns of `R` with the head of `Qᵗ·b` are those of the matrix with `b`. -/
theorem sum_upperPart_project (b : Vector ℝ m) (k : Fin n) :
    ∑ i, upperPart (factor a tall).workspace i k * ((factor a tall).project b)[i] =
      dot (a.column (factor a tall).pivot[k]) b := by
  rw [← dot_applyQt a tall, applyQt_column, dot_eq, sum_upperColumn]
  simp only [project, getElem_ofFn]

theorem sum_upperPart_mul (j k : Fin n) :
    ∑ i, upperPart (factor a tall).workspace i j * upperPart (factor a tall).workspace i k =
      dot (a.column (factor a tall).pivot[j]) (a.column (factor a tall).pivot[k]) := by
  rw [← dot_applyQt a tall, applyQt_column, applyQt_column, dot_eq, sum_upperColumn]
  simp only [getElem_upperColumn]

/-- The diagonal dominates what is right of it and below. -/
theorem sum_upperPart_sq_le {j k : Fin n} (h : j ≤ k) :
    ∑ i ∈ .Ici j, upperPart (factor a tall).workspace i k ^ 2 ≤
      (factor a tall).workspace[j][j] ^ 2 := by
  rcases h.eq_or_lt with rfl | hlt
  · rw [Finset.sum_eq_single_of_mem j (Finset.mem_Ici.2 le_rfl), upperPart_self]
    intro i hi hne
    rw [upperPart_of_lt _ (lt_of_le_of_ne (Finset.mem_Ici.1 hi) hne.symm), zero_pow two_ne_zero]
  · have hdominant := (Stage.reduces_final a tall).dominant j j.isLt k hlt
    have hdiagonal : (factor a tall).workspace[j][j] =
        (Stage.final a tall).norms[j] := by
      rw [getElem_workspace _ le_rfl, upperColumn, getElem_ofFn]
      simp only [Fin.val_castLE, lt_irrefl, if_false, if_true]
      rfl
    rw [hdiagonal]
    refine le_trans ?_ hdominant
    have hentry : ∀ i : Fin n, upperPart (factor a tall).workspace i k =
        ((Stage.final a tall).image n k)[
          i.castLE tall] := by
      intro i
      rw [← getElem_upperColumn, upperColumn, getElem_ofFn, Stage.getElem_image_of_lt k.isLt]
      rfl
    have hmap : ∑ i ∈ .Ici j, upperPart (factor a tall).workspace i k ^ 2 =
        ∑ i ∈ (Finset.Ici j).map (Fin.castLEEmb tall),
          ((Stage.final a tall).image n k)[i] ^ 2 := by
      rw [Finset.sum_map]
      refine Finset.sum_congr rfl fun i _ => ?_
      rw [hentry]
      rfl
    rw [hmap]
    refine Finset.sum_le_sum_of_subset_of_nonneg ?_ fun _ _ _ => sq_nonneg _
    intro i hi
    obtain ⟨l, hl, rfl⟩ := Finset.mem_map.1 hi
    simpa using Finset.mem_Ici.1 hl

/-- A zero on the diagonal is followed by zero rows. -/
theorem upperPart_eq_zero {j i k : Fin n} (h : (factor a tall).workspace[j][j] = 0)
    (hi : j ≤ i) : upperPart (factor a tall).workspace i k = 0 := by
  rcases lt_or_ge k i with hlt | hle
  · exact upperPart_of_lt _ hlt
  · have hsum := sum_upperPart_sq_le a tall (hi.trans hle)
    rw [h, zero_pow two_ne_zero] at hsum
    have hterm := Finset.single_le_sum (f := fun i => upperPart (factor a tall).workspace i k ^ 2)
      (fun _ _ => sq_nonneg _) (Finset.mem_Ici.2 hi)
    exact sq_eq_zero_iff.1 (le_antisymm (hterm.trans hsum) (sq_nonneg _))

end Factor

end PivotedQR

end LeastSquares
