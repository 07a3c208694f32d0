import LeastSquares.Proofs.Constraints
import Mathlib.Analysis.SpecialFunctions.Trigonometric.DerivHyp
import Mathlib.Analysis.SpecialFunctions.Pow.Real

/-!
The exact reading of a fit: the same definitions over the real numbers, measured with the Euclidean
norm. Statements about exact arithmetic are statements about these instances. The lemmas here turn
the sums and norms of the definitions, which are folds over lists of indices, into finite sums.
-/

namespace LeastSquares

/-- The numeral two, by name: a definition over the reals that mentions it needs no proof of its
own. -/
instance atLeastTwo_two : Nat.AtLeastTwo 2 := ⟨le_rfl⟩

instance atLeastTwo_three : Nat.AtLeastTwo 3 := ⟨by decide⟩

instance atLeastTwo_five : Nat.AtLeastTwo 5 := ⟨by decide⟩

instance neZero_three : NeZero 3 := ⟨three_ne_zero⟩

noncomputable instance : Scalar ℝ where
  toBEq := instBEqOfDecidableEq
  decidableLT := Real.decidableLT
  decidableLE := Real.decidableLE
  sqrt := Real.sqrt
  abs x := |x|
  exp := Real.exp
  tanh := Real.tanh
  max := max
  min := min
  isFinite _ := true
  ofNat n := n
  epsilon := 2 ^ (-52 : ℤ)
  minNormal := 2 ^ (-1022 : ℤ)

noncomputable instance : NormedScalar ℝ where
  norm v := √(v.map (· ^ 2)).sum

variable {n m k : ℕ}

theorem epsilon_pos : (0 : ℝ) < Scalar.epsilon := by
  change (0 : ℝ) < 2 ^ (-52 : ℤ)
  positivity

theorem minNormal_pos : (0 : ℝ) < Scalar.minNormal := by
  change (0 : ℝ) < 2 ^ (-1022 : ℤ)
  positivity

theorem minNormal_le_zpow {e : ℤ} (h : -1022 ≤ e) : (Scalar.minNormal : ℝ) ≤ 2 ^ e :=
  zpow_le_zpow_right₀ (by norm_num) h

theorem minNormal_le_one : (Scalar.minNormal : ℝ) ≤ 1 := by
  simpa using minNormal_le_zpow (e := 0) (by norm_num)

/-! ### Limits -/

namespace StepLimits

/-- How far from a limit a value may be that is put onto it. -/
noncomputable def tolerance (limit : ℝ) : ℝ :=
  if limit = 0 then Scalar.epsilon else Scalar.epsilon * |limit|

theorem tolerance_nonneg (limit : ℝ) : 0 ≤ tolerance limit := by
  unfold tolerance
  split
  · exact epsilon_pos.le
  · exact mul_nonneg epsilon_pos.le (abs_nonneg _)

theorem tolerance_eq (limit : ℝ) : tolerance limit =
    limit * ((if 0 ≤ limit then 1 else -1) * Scalar.epsilon) +
      if limit == 0 then Scalar.epsilon else 0 := by
  unfold tolerance
  rcases lt_trichotomy limit 0 with h | rfl | h
  · rw [if_neg h.ne, if_neg (not_le.2 h), if_neg (by simpa using h.ne), abs_of_neg h]
    ring
  · simp
  · rw [if_neg h.ne', if_pos h.le, if_neg (by simpa using h.ne'), abs_of_pos h]
    ring

theorem upperThreshold_eq (u : ℝ) : upperThreshold u = u - tolerance u := by
  rw [tolerance_eq, upperThreshold]
  ring

theorem lowerThreshold_eq (l : ℝ) : lowerThreshold l = l + tolerance l := by
  rw [tolerance_eq, lowerThreshold]
  ring

end StepLimits

instance : LimitArithmetic ℝ where
  le_trans := le_trans
  le_total _ _ := le_total _ _
  isNumber_of_isFinite _ := by simp [Scalar.isNumber]
  isNumber_of_le _ := by simp [Scalar.isNumber]
  le_of_infinite h := by cases h
  infinite_le h := by cases h
  upperThreshold_le {u} _ := by
    rw [StepLimits.upperThreshold_eq]
    exact sub_le_self u (StepLimits.tolerance_nonneg u)
  le_lowerThreshold {l} _ := by
    rw [StepLimits.lowerThreshold_eq]
    exact le_add_of_nonneg_right (StepLimits.tolerance_nonneg l)

/-! ### Sums -/

theorem sumFromZero_eq (l : List ℝ) : Scalar.sumFromZero l = l.sum := List.sum_eq_foldl.symm

theorem sum_eq (l : List ℝ) : Scalar.sum l = l.sum := by
  cases l with
  | nil => rfl
  | cons x l =>
      rw [← sumFromZero_eq, Scalar.sumFromZero, List.foldl_cons]
      change _ = List.foldl (· + ·) (0 + x) l
      rw [zero_add]
      rfl

theorem sum_map_filter {p : Fin n → Prop} [DecidablePred p] (f : Fin n → ℝ) :
    (((List.finRange n).filter (p ·)).map f).sum = ∑ i with p i, f i := by
  rw [← List.sum_toFinset f ((List.nodup_finRange n).filter _)]
  refine Finset.sum_congr ?_ fun _ _ => rfl
  ext i
  simp

theorem sum_map_upTo (j : Fin n) (f : Fin n → ℝ) : ((upTo j).map f).sum = ∑ i ∈ .Iic j, f i := by
  rw [upTo, sum_map_filter, Finset.filter_ge_eq_Iic]

theorem sum_map_starting (j : Fin n) (f : Fin n → ℝ) :
    ((starting j).map f).sum = ∑ i ∈ .Ici j, f i := by
  rw [starting, sum_map_filter, Finset.filter_le_eq_Ici]

theorem sum_map_after (j : Fin n) (f : Fin n → ℝ) : ((after j).map f).sum = ∑ i ∈ .Ioi j, f i := by
  rw [after, sum_map_filter, Finset.filter_lt_eq_Ioi]

theorem toList_eq_map {α : Type} (x : Vector α n) :
    x.toList = (List.finRange n).map fun i => x[i] := by
  refine List.ext_getElem (by simp) fun i hi hi' => ?_
  simp [getElem_eq_val]

theorem sum_toList (x : Vector ℝ n) : x.toList.sum = ∑ i : Fin n, x[i] := by
  rw [toList_eq_map, Fin.sum_univ_def]

@[simp] theorem dot_eq (a b : Vector ℝ n) : dot a b = ∑ i : Fin n, a[i] * b[i] := by
  rw [dot, sumFromZero_eq, sum_toList]
  simp

theorem dot_comm (a b : Vector ℝ n) : dot a b = dot b a := by
  simp only [dot_eq, mul_comm]

theorem sum_addInterleaved (sums : Vector ℝ 8) (term : ℝ × ℕ) :
    (addInterleaved sums term).toList.sum = sums.toList.sum + term.1 := by
  have hentry : ∀ j : Fin 8, (addInterleaved sums term)[j] =
      sums[j] + if Fin.ofNat 8 term.2 = j then term.1 else 0 := by
    intro j
    rw [addInterleaved, getElem_put]
    split
    · next heq => rw [heq]
    · rw [add_zero]
  rw [sum_toList, sum_toList, Finset.sum_congr rfl fun j _ => hentry j, Finset.sum_add_distrib,
    Finset.sum_ite_eq, if_pos (Finset.mem_univ _)]

theorem sum_foldl_addInterleaved (sums : Vector ℝ 8) (l : List ℝ) (start : ℕ) :
    ((l.zipIdx start).foldl addInterleaved sums).toList.sum = sums.toList.sum + l.sum := by
  induction l generalizing sums start with
  | nil => simp
  | cons v l ih =>
      rw [List.zipIdx_cons, List.foldl_cons, ih, sum_addInterleaved, List.sum_cons, add_assoc]

theorem dotInterleaved_eq (a b : Vector ℝ n) : dotInterleaved a b = dot a b := by
  have hpairs : ∀ sums : Vector ℝ 8, [sums[0] + sums[4], sums[1] + sums[5], sums[2] + sums[6],
      sums[3] + sums[7]].sum = sums.toList.sum := by
    intro sums
    rw [sum_toList, Fin.sum_univ_eight]
    simp only [List.sum_cons, List.sum_nil]
    change _ = sums[0] + sums[1] + sums[2] + sums[3] + sums[4] + sums[5] + sums[6] + sums[7]
    ring
  have hzero : (Vector.replicate 8 (0 : ℝ)).toList.sum = 0 := by
    simp
  rw [dotInterleaved, dot, sumFromZero_eq, sumFromZero_eq, List.sum_append, hpairs,
    sum_foldl_addInterleaved, hzero, zero_add, List.sum_take_add_sum_drop]

/-- However the terms are grouped, the slope is the inner product. -/
theorem columnSlope_eq (a : Mat ℝ m n) (f : Vector ℝ m) (c : Fin n) :
    columnSlope a f c = dot f (a.column c) := by
  rw [columnSlope, dotInterleaved_eq, ite_self]

theorem sum_squares (x : Vector ℝ n) :
    Scalar.sum (x.map fun v => v * v).toList = ∑ i : Fin n, x[i] ^ 2 := by
  rw [sum_eq, sum_toList]
  exact Finset.sum_congr rfl fun i _ => by rw [getElem_map, pow_two]

/-! ### Norms -/

noncomputable def euclid (x : Vector ℝ n) : ℝ := √(∑ i : Fin n, x[i] ^ 2)

theorem norm_map (l : List (Fin n)) (f : Fin n → ℝ) :
    NormedScalar.norm (l.map f) = √(l.map fun i => f i ^ 2).sum := by
  change √((l.map f).map (· ^ 2)).sum = _
  rw [List.map_map]
  rfl

theorem norm_nonneg (v : List ℝ) : 0 ≤ NormedScalar.norm v := Real.sqrt_nonneg _

theorem norm_toList (x : Vector ℝ n) : NormedScalar.norm x.toList = euclid x := by
  rw [toList_eq_map, norm_map, ← Fin.sum_univ_def, euclid]

theorem fast_toList (x : Vector ℝ n) : Norm.fast x.toList = euclid x := by
  rw [Norm.fast, ← Vector.toList_map, sum_squares]
  rfl

/-- In exact arithmetic it does not matter which norm was chosen. -/
@[simp] theorem Setting.normOf_eq {l : ℕ} (s : Setting ℝ n m k) (x : Vector ℝ l) :
    s.normOf x = euclid x := by
  rw [normOf]
  cases s.options.norm with
  | careful => exact norm_toList x
  | fast => exact fast_toList x

section Dampen

variable {s : Setting ℝ n m k} (h : s.options.damp = 0)

include h

theorem Setting.dampen_eq (r : ℝ) : s.dampen r = r := if_neg (not_lt.2 h.le)

theorem Setting.map_dampen_eq (r : Vector ℝ m) : r.map s.dampen = r :=
  ext_getElem fun i => by rw [getElem_map, dampen_eq h]

end Dampen

theorem euclid_nonneg (x : Vector ℝ n) : 0 ≤ euclid x := Real.sqrt_nonneg _

theorem euclid_sq (x : Vector ℝ n) : euclid x ^ 2 = ∑ i : Fin n, x[i] ^ 2 :=
  Real.sq_sqrt (Finset.sum_nonneg fun _ _ => sq_nonneg _)

theorem euclid_one (x : Vector ℝ 1) : euclid x = |x[(0 : Fin 1)]| := by
  rw [euclid, Fin.sum_univ_one, Real.sqrt_sq_eq_abs]

theorem euclid_eq_zero {x : Vector ℝ n} : euclid x = 0 ↔ ∀ i : Fin n, x[i] = 0 := by
  rw [← sq_eq_zero_iff, euclid_sq, Finset.sum_eq_zero_iff_of_nonneg fun _ _ => sq_nonneg _]
  simp

end LeastSquares
