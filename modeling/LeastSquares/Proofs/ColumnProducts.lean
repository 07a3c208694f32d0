import LeastSquares.Proofs.Factorization

/-!
Two matrices whose columns have the same inner products, up to the square of a factor. Pivoting
compares the lengths of what the reflections leave of the columns, and these lengths are fixed by
the inner products. So the two factorizations exchange the same columns, and a row of one `R` is the
row of the other, times the factor and up to its sign.
-/

namespace LeastSquares

variable {m n : ℕ}

/-! ### Rows that products of columns fix -/

/-- The first `count` rows `x` of a triangle with further columns. The entry of row `l` in column
`diagonal l` is the first that need not vanish, and if it does, so does the row. The products of the
columns `diagonal l` with all columns are `g`. -/
structure Staircase {κ : Type} (diagonal : Fin n → κ) (count : ℕ) (g x : Fin n → κ → ℝ) : Prop where
  product : ∀ l : Fin n, l.val < count → ∀ k, ∑ i ∈ .Iic l, x i (diagonal l) * x i k = g l k
  vanish : ∀ l : Fin n, l.val < count → x l (diagonal l) = 0 → ∀ k, x l k = 0

/-- Rows whose products are proportional are themselves proportional, up to their signs. -/
theorem Staircase.row_eq {κ : Type} {diagonal : Fin n → κ} {count : ℕ} {g g' x x' : Fin n → κ → ℝ}
    {γ : ℝ} (hγ : 0 < γ) (h : Staircase diagonal count g x) (h' : Staircase diagonal count g' x')
    (hg : ∀ l : Fin n, l.val < count → ∀ k, g' l k = γ ^ 2 * g l k) (l : Fin n)
    (hl : l.val < count) : ∃ ε : ℝ, ε ^ 2 = 1 ∧ ∀ k, x' l k = ε * (γ * x l k) := by
  -- The rows above contribute proportional products, so row `l` does.
  induction l using WellFoundedLT.induction with
  | _ l ih =>
    have habove : ∀ k, ∑ i ∈ .Iio l, x' i (diagonal l) * x' i k =
        γ ^ 2 * ∑ i ∈ .Iio l, x i (diagonal l) * x i k := by
      intro k
      rw [Finset.mul_sum]
      refine Finset.sum_congr rfl fun i hi => ?_
      have hlt : i < l := Finset.mem_Iio.1 hi
      obtain ⟨ε, hε, hrow⟩ := ih i hlt (lt_trans hlt hl)
      rw [hrow, hrow]
      linear_combination γ ^ 2 * x i (diagonal l) * x i k * hε
    have hproduct : ∀ k, x' l (diagonal l) * x' l k = γ ^ 2 * (x l (diagonal l) * x l k) := by
      intro k
      have hsum := h.product l hl k
      have hsum' := h'.product l hl k
      rw [← Finset.Iio_insert, Finset.sum_insert (by simp)] at hsum hsum'
      rw [habove, hg l hl] at hsum'
      linear_combination hsum' - γ ^ 2 * hsum
    by_cases hzero : x l (diagonal l) = 0
    · have hsquare := hproduct (diagonal l)
      rw [hzero, mul_zero, mul_zero, mul_self_eq_zero] at hsquare
      refine ⟨1, one_pow 2, fun k => ?_⟩
      rw [h.vanish l hl hzero, h'.vanish l hl hsquare]
      ring
    · have hsquare := hproduct (diagonal l)
      have hzero' : x' l (diagonal l) ≠ 0 := by
        intro hx'
        rw [hx', zero_mul] at hsquare
        exact mul_ne_zero (pow_ne_zero 2 hγ.ne') (mul_ne_zero hzero hzero) hsquare.symm
      refine ⟨x' l (diagonal l) / (γ * x l (diagonal l)), ?_, fun k => ?_⟩
      · rw [div_pow, div_eq_one_iff_eq (pow_ne_zero 2 (mul_ne_zero hγ.ne' hzero))]
        linear_combination hsquare
      · have hγ' := hγ.ne'
        have hcancel : x' l (diagonal l) * (x' l (diagonal l) / (γ * x l (diagonal l)) *
            (γ * x l k)) = x' l (diagonal l) * x' l (diagonal l) / x l (diagonal l) * x l k := by
          field_simp
        apply mul_left_cancel₀ hzero'
        rw [hproduct, hcancel, hsquare]
        field_simp

namespace PivotedQR

namespace Stage

variable {a a' : Mat ℝ m n} {tall : n ≤ m} {s s' : Stage ℝ m n} {count : ℕ} {γ : ℝ}

/-! ### What the steps so far have left -/

theorem Reduces.dot_image (h : Reduces a tall count s) (j k : Fin n) :
    dot (s.image count j) (s.image count k) = dot (a.column s.pivot[j]) (a.column s.pivot[k]) := by
  rw [← h.columns, ← h.columns]
  have hreflectors : ∀ l ∈ (List.finRange n).take count,
      IsReflector (s.a.column l) (l.castLE tall) := by
    intro l hl
    rw [← filter_val_lt] at hl
    exact h.reflectors l (by simpa using hl)
  generalize a.column s.pivot[j] = b
  generalize a.column s.pivot[k] = c
  unfold reflected
  generalize (List.finRange n).take count = l at hreflectors ⊢
  induction l generalizing b c with
  | nil => rfl
  | cons i l ih =>
      obtain ⟨hi, hl⟩ := List.forall_mem_cons.1 hreflectors
      rw [List.foldl_cons, List.foldl_cons, ih _ _ hl]
      exact dot_reflect hi b c

/-- Entry `i` of what the steps so far have made of column `k`. -/
noncomputable def imageAt (tall : n ≤ m) (s : Stage ℝ m n) (count : ℕ) (i k : Fin n) : ℝ :=
  (s.image count k)[i.castLE tall]

theorem imageAt_of_lt {i k : Fin n} (hk : k.val < count) (hi : k < i) :
    s.imageAt tall count i k = 0 := by
  have hlt : k.val < i.val := hi
  rw [imageAt, getElem_image_of_lt hk, if_neg, if_neg]
  · exact hlt.ne'
  · exact hlt.asymm

theorem sum_castLE {f : Fin m → ℝ} (tall : n ≤ m) {l : Fin n}
    (h : ∀ i : Fin m, l.val < i.val → f i = 0) : ∑ i, f i = ∑ i ∈ .Iic l, f (i.castLE tall) := by
  have hmap : ∑ i ∈ .Iic l, f (i.castLE tall) =
      ∑ i ∈ (Finset.Iic l).map (Fin.castLEEmb tall), f i := by
    rw [Finset.sum_map]
    rfl
  rw [hmap]
  refine (Finset.sum_subset (Finset.subset_univ _) fun i _ hi => h i ?_).symm
  by_contra hle
  refine hi (Finset.mem_map.2 ⟨⟨i.val, by omega⟩, Finset.mem_Iic.2 ?_, rfl⟩)
  exact Fin.le_def.2 (not_lt.1 hle)

theorem Reduces.staircase (h : Reduces a tall count s) :
    Staircase id count (fun l k => dot (a.column s.pivot[l]) (a.column s.pivot[k]))
      (s.imageAt tall count) where
  product l hl k := by
    rw [← h.dot_image, dot_eq, sum_castLE tall (l := l)]
    · rfl
    · intro i hi
      rw [getElem_image_of_lt hl, if_neg hi.asymm, if_neg hi.ne', zero_mul]
  vanish l hl hzero k := by
    rcases lt_or_ge l k with hlt | hle
    · -- The diagonal entry bounds what is right of it.
      have hdiagonal : s.norms[l] = 0 := by
        rw [id_eq, imageAt, getElem_image_of_lt hl] at hzero
        simpa using hzero
      have hdominant := h.dominant l hl k hlt
      rw [hdiagonal, zero_pow two_ne_zero] at hdominant
      have hmem : l.castLE tall ∈ Finset.univ.filter fun i : Fin m => l.val ≤ i.val := by simp
      have hterm := Finset.single_le_sum (f := fun i => (s.image count k)[i] ^ 2)
        (fun _ _ => sq_nonneg _) hmem
      exact sq_eq_zero_iff.1 (le_antisymm (hterm.trans hdominant) (sq_nonneg _))
    · rcases hle.eq_or_lt with rfl | hlt
      · exact hzero
      · exact imageAt_of_lt (lt_trans hlt hl) hlt

theorem Reduces.tail_eq_sub (h : Reduces a tall count s) {k : Fin n} (hk : count ≤ k.val) :
    s.tail count k = dot (a.column s.pivot[k]) (a.column s.pivot[k]) -
      ∑ i : Fin n with i.val < count, s.imageAt tall count i k ^ 2 := by
  have hhead : ∑ i : Fin n with i.val < count, s.imageAt tall count i k ^ 2 =
      ∑ i : Fin m with ¬ count ≤ i.val, (s.image count k)[i] ^ 2 := by
    have hmap : (Finset.univ.filter fun i : Fin m => ¬ count ≤ i.val) =
        (Finset.univ.filter fun i : Fin n => i.val < count).map (Fin.castLEEmb tall) := by
      ext i
      simp only [Finset.mem_filter, Finset.mem_univ, true_and, Finset.mem_map, not_le]
      constructor
      · exact fun hi => ⟨⟨i.val, by omega⟩, hi, rfl⟩
      · rintro ⟨l, hl, rfl⟩
        exact hl
    rw [hmap, Finset.sum_map]
    rfl
  rw [← h.dot_image, dot_eq, hhead, eq_sub_iff_add_eq, tail]
  have htail : ∑ i : Fin m with count ≤ i.val, s.a[i][k] ^ 2 =
      ∑ i : Fin m with count ≤ i.val, (s.image count k)[i] ^ 2 := by
    rw [image_of_le hk]
    exact Finset.sum_congr rfl fun i _ => by rw [Mat.getElem_column]
  rw [htail, Finset.sum_filter_add_sum_filter_not]
  exact Finset.sum_congr rfl fun i _ => pow_two _

section Proportional

variable (hγ : 0 < γ)
  (hproducts : ∀ i j, dot (a'.column i) (a'.column j) = γ ^ 2 * dot (a.column i) (a.column j))

include hγ hproducts

theorem tail_of_products (h : Reduces a tall count s) (h' : Reduces a' tall count s')
    (hpivot : s'.pivot = s.pivot) {k : Fin n} (hk : count ≤ k.val) :
    s'.tail count k = γ ^ 2 * s.tail count k := by
  have hrows : ∀ i : Fin n, i.val < count →
      s'.imageAt tall count i k ^ 2 = γ ^ 2 * s.imageAt tall count i k ^ 2 := by
    intro i hi
    have hstairs := h'.staircase
    rw [hpivot] at hstairs
    obtain ⟨ε, hε, hrow⟩ := h.staircase.row_eq hγ hstairs (fun _ _ _ => hproducts _ _) i hi
    rw [hrow]
    linear_combination γ ^ 2 * s.imageAt tall count i k ^ 2 * hε
  rw [h.tail_eq_sub hk, h'.tail_eq_sub hk, hpivot, hproducts, mul_sub, Finset.mul_sum]
  congr 1
  refine Finset.sum_congr rfl fun i hi => hrows i ?_
  simpa using hi

end Proportional

/-! ### The columns that come next -/

theorem foldl_larger_of_proportional {norms norms' : Vector ℝ n} {j best : Fin n} {l : List (Fin n)}
    (hγ : 0 < γ) (h : ∀ k, j ≤ k → norms'[k] = γ * norms[k]) (hl : ∀ k ∈ l, j ≤ k)
    (hbest : j ≤ best) :
    l.foldl (larger norms') best = l.foldl (larger norms) best := by
  induction l generalizing best with
  | nil => rfl
  | cons k l ih =>
      obtain ⟨hk, hl⟩ := List.forall_mem_cons.1 hl
      have hstep : larger norms' best k = larger norms best k := by
        simp only [larger, h best hbest, h k hk, mul_lt_mul_iff_right₀ hγ]
      have hnext : j ≤ larger norms best k := by
        rw [larger]
        split
        · exact hk
        · exact hbest
      rw [List.foldl_cons, List.foldl_cons, hstep]
      exact ih hl hnext

theorem largestFrom_of_proportional {norms norms' : Vector ℝ n} {j : Fin n} (hγ : 0 < γ)
    (h : ∀ k, j ≤ k → norms'[k] = γ * norms[k]) : largestFrom norms' j = largestFrom norms j :=
  foldl_larger_of_proportional hγ h (fun _ hk => (mem_after.1 hk).le) le_rfl

noncomputable def afterSteps (a : Mat ℝ m n) (tall : n ≤ m) (count : ℕ) : Stage ℝ m n :=
  ((List.finRange n).take count).foldl (Stage.eliminate tall) (start a)

theorem afterSteps_succ (a : Mat ℝ m n) (tall : n ≤ m) {count : ℕ} (h : count < n) :
    afterSteps a tall (count + 1) = (afterSteps a tall count).eliminate tall ⟨count, h⟩ := by
  rw [afterSteps, take_succ_finRange h, List.foldl_append]
  rfl

theorem reduces_afterSteps (a : Mat ℝ m n) (tall : n ≤ m) {count : ℕ} (h : count ≤ n) :
    Reduces a tall count (afterSteps a tall count) ∧ NormsFrom count (afterSteps a tall count) :=
  foldl_take (I := fun count s => Reduces a tall count s ∧ NormsFrom count s) h
    ⟨reduces_start a tall, normsFrom_start a⟩ fun _ _ _ h => h.1.eliminate h.2

theorem pivot_eliminate (s : Stage ℝ m n) (tall : n ≤ m) (j : Fin n) :
    (s.eliminate tall j).pivot = LeastSquares.exchange s.pivot j (largestFrom s.norms j) :=
  pivot_clear

theorem largestFrom_eq_self {norms : Vector ℝ n} {j : Fin n} (h : ∀ k, j ≤ k → norms[k] ≤ norms[j]) :
    largestFrom norms j = j := by
  have hscan : ∀ l : List (Fin n), (∀ k ∈ l, j ≤ k) → l.foldl (larger norms) j = j := by
    intro l hl
    induction l with
    | nil => rfl
    | cons k l ih =>
        obtain ⟨hk, hl⟩ := List.forall_mem_cons.1 hl
        rw [List.foldl_cons, larger, if_neg (not_lt.2 (h k hk))]
        exact ih hl
  exact hscan _ fun _ hk => (mem_after.1 hk).le

/-- Nothing is exchanged if no column has more left of it than the one that is next. -/
theorem pivot_afterSteps_succ (a : Mat ℝ m n) (tall : n ≤ m) {count : ℕ} (h : count < n)
    (hlongest : ∀ k : Fin n, count ≤ k.val →
      (afterSteps a tall count).tail count k ≤ (afterSteps a tall count).tail count ⟨count, h⟩) :
    (afterSteps a tall (count + 1)).pivot = (afterSteps a tall count).pivot := by
  have hnorms := (reduces_afterSteps a tall h.le).2
  have hlargest : largestFrom (afterSteps a tall count).norms ⟨count, h⟩ = ⟨count, h⟩ := by
    refine largestFrom_eq_self fun k hk => ?_
    rw [hnorms k hk, hnorms ⟨count, h⟩ le_rfl]
    exact Real.sqrt_le_sqrt (hlongest k hk)
  rw [afterSteps_succ a tall h, pivot_eliminate, hlargest]
  refine ext_getElem fun k => ?_
  rw [getElem_exchange]
  split
  · next heq => rw [heq]
  · rfl

theorem pivot_afterSteps (hγ : 0 < γ)
    (hproducts : ∀ i j, dot (a'.column i) (a'.column j) = γ ^ 2 * dot (a.column i) (a.column j))
    (tall : n ≤ m) {count : ℕ} (h : count ≤ n) :
    (afterSteps a' tall count).pivot = (afterSteps a tall count).pivot := by
  induction count with
  | zero => rfl
  | succ count ih =>
      have hpivot := ih (Nat.le_of_succ_le h)
      obtain ⟨hreduces, hnorms⟩ := reduces_afterSteps a tall (Nat.le_of_succ_le h)
      obtain ⟨hreduces', hnorms'⟩ := reduces_afterSteps a' tall (Nat.le_of_succ_le h)
      have hlargest : largestFrom (afterSteps a' tall count).norms ⟨count, h⟩ =
          largestFrom (afterSteps a tall count).norms ⟨count, h⟩ := by
        refine largestFrom_of_proportional hγ fun k hk => ?_
        rw [hnorms k hk, hnorms' k hk,
          tail_of_products hγ hproducts hreduces hreduces' hpivot hk, Real.sqrt_mul (sq_nonneg γ),
          Real.sqrt_sq hγ.le]
      rw [afterSteps_succ a' tall h, afterSteps_succ a tall h, pivot_eliminate, pivot_eliminate,
        hpivot, hlargest]

end Stage

section Factor

variable {a a' : Mat ℝ m n} {γ : ℝ}

theorem pivot_factor (a : Mat ℝ m n) (tall : n ≤ m) :
    (factor a tall).pivot = (Stage.afterSteps a tall n).pivot := by
  rw [Stage.afterSteps, List.take_of_length_le List.length_finRange.le]
  rfl

/-- The products of columns fix the column exchange. -/
theorem pivot_of_products (hγ : 0 < γ)
    (hproducts : ∀ i j, dot (a'.column i) (a'.column j) = γ ^ 2 * dot (a.column i) (a.column j))
    (tall : n ≤ m) : (factor a' tall).pivot = (factor a tall).pivot := by
  rw [pivot_factor, pivot_factor, Stage.pivot_afterSteps hγ hproducts tall le_rfl]

/-- Row `l` of `R`, with component `l` of `Qᵗ·b` behind it unless the row is zero. -/
noncomputable def augmentedRow (a : Mat ℝ m n) (tall : n ≤ m) (b : Vector ℝ m) (l : Fin n) :
    Option (Fin n) → ℝ
  | some k => upperPart (factor a tall).workspace l k
  | none => if (factor a tall).workspace[l][l] = 0 then 0 else ((factor a tall).project b)[l]

theorem staircase_augmentedRow (a : Mat ℝ m n) (tall : n ≤ m) (b : Vector ℝ m) :
    Staircase some n
      (fun l k => dot (a.column (factor a tall).pivot[l])
        (k.elim b fun k => a.column (factor a tall).pivot[k]))
      (augmentedRow a tall b) where
  product l _ k := by
    have hlast : ∀ (f : Fin n → ℝ), ∑ i ∈ .Iic l, upperPart (factor a tall).workspace i l * f i =
        ∑ i, upperPart (factor a tall).workspace i l * f i := by
      intro f
      refine Finset.sum_subset (Finset.subset_univ _) fun i _ hi => ?_
      rw [upperPart_of_lt _ (not_le.1 (mt Finset.mem_Iic.2 hi)), zero_mul]
    cases k with
    | none =>
        refine Eq.trans ?_ (sum_upperPart_project a tall b l)
        rw [← hlast]
        refine Finset.sum_congr rfl fun i _ => ?_
        simp only [augmentedRow]
        split
        · next hzero => rw [upperPart_eq_zero a tall hzero le_rfl, zero_mul, zero_mul]
        · rfl
    | some k => exact (hlast _).trans (sum_upperPart_mul a tall l k)
  vanish l _ hzero k := by
    have hdiagonal : (factor a tall).workspace[l][l] = 0 := by
      rw [← upperPart_self]
      exact hzero
    cases k with
    | none => exact if_pos hdiagonal
    | some k => exact upperPart_eq_zero a tall hdiagonal le_rfl

/-- The rows of `R`, and the components of `Qᵗ·b` that belong to rows that do not vanish, are fixed
up to their signs. -/
theorem rows_of_products (hγ : 0 < γ)
    (hproducts : ∀ i j, dot (a'.column i) (a'.column j) = γ ^ 2 * dot (a.column i) (a.column j))
    {b b' : Vector ℝ m}
    (hmoments : ∀ j, dot (a'.column j) b' = γ ^ 2 * dot (a.column j) b) (tall : n ≤ m) (l : Fin n) :
    ∃ ε : ℝ, ε ^ 2 = 1 ∧
      (∀ k, upperPart (factor a' tall).workspace l k =
        ε * (γ * upperPart (factor a tall).workspace l k)) ∧
      ((factor a tall).workspace[l][l] ≠ 0 →
        ((factor a' tall).project b')[l] = ε * (γ * ((factor a tall).project b)[l])) := by
  have hstairs := staircase_augmentedRow a' tall b'
  rw [pivot_of_products hγ hproducts tall] at hstairs
  obtain ⟨ε, hε, hrow⟩ := (staircase_augmentedRow a tall b).row_eq hγ hstairs
    (fun l _ k => by
      cases k with
      | none => exact hmoments _
      | some k => exact hproducts _ _) l l.isLt
  refine ⟨ε, hε, fun k => hrow (some k), fun hne => ?_⟩
  have hdiagonal := hrow (some l)
  have hlast := hrow none
  simp only [augmentedRow, upperPart_self] at hdiagonal hlast
  have hε0 : ε ≠ 0 := by
    rintro rfl
    norm_num at hε
  have hne' : (factor a' tall).workspace[l][l] ≠ 0 := by
    rw [hdiagonal]
    exact mul_ne_zero hε0 (mul_ne_zero hγ.ne' hne)
  rwa [if_neg hne, if_neg hne'] at hlast

end Factor

end PivotedQR

end LeastSquares
