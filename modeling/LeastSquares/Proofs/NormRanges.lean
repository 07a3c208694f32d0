import LeastSquares.Proofs.CarefulNorm
import LeastSquares.Proofs.Divisors

/-!
Why the careful norm is safe. In units of its largest component the sum of a group lies between one
and the number of its components. The middle components are summed as they are, but none of them is
small and none is large, so their sum has the squares of the two ends as its limits. A quotient is
squared only if what it divides is no larger than what it divides by. All of this follows from what
the sums are after any number of components, so that the order of the components does not matter.
-/

namespace LeastSquares

namespace Norm

variable {limit x unit sum : ℝ} {v w group : List ℝ} {n : ℕ} {q : ℝ → ℝ → ℝ}

/-! ### Ranges of the sums -/

namespace IsScaled

variable (h : IsScaled unit sum group)

include h

theorem sum_ne_zero_iff_unit_pos : sum ≠ 0 ↔ 0 < unit := by
  constructor
  · intro hsum
    exact h.unit_nonneg.lt_of_ne fun hunit => hsum (h.sum_eq_zero hunit.symm)
  · rintro hunit rfl
    obtain ⟨x, hx, hxunit⟩ := h.attained.resolve_left hunit.ne'
    have hpos := squares_pos hx (abs_pos.1 (hxunit ▸ hunit))
    rw [← h.sq_mul_sum, mul_zero] at hpos
    exact hpos.false

/-- A sum in units of its largest component counts that one once, and no other more than once. -/
theorem sum_range : sum = 0 ∨ 1 ≤ sum ∧ sum ≤ group.length := by
  rcases h.unit_nonneg.eq_or_lt with hunit | hunit
  · exact .inl (h.sum_eq_zero hunit.symm)
  right
  have hsq : 0 < unit ^ 2 := pow_pos hunit 2
  obtain ⟨x, hx, hxunit⟩ := h.attained.resolve_left hunit.ne'
  constructor
  · refine le_of_mul_le_mul_left ?_ hsq
    rw [mul_one, h.sq_mul_sum, ← hxunit, sq_abs]
    exact sq_le_squares hx
  · refine le_of_mul_le_mul_left ?_ hsq
    rw [h.sq_mul_sum, mul_comm]
    exact squares_le_of_abs_le h.abs_le

end IsScaled

theorem middle_range {count : ℕ} (hlength : v.length ≤ count) :
    squares (ofSize (largest / count) .middle v) = 0 ∨
      smallest ^ 2 < squares (ofSize (largest / count) .middle v) ∧
        squares (ofSize (largest / count) .middle v) < largest ^ 2 / count := by
  by_cases hempty : ofSize (largest / count) .middle v = []
  · rw [hempty]
    exact .inl rfl
  right
  have hmiddle : ∀ y ∈ ofSize (largest / count) .middle v,
      smallest < |y| ∧ |y| < largest / count :=
    fun y hy => sizeAt_eq_middle.1 (mem_ofSize.1 hy).2
  obtain ⟨x, hx⟩ := List.exists_mem_of_ne_nil _ hempty
  have hcount : (0 : ℝ) < count :=
    Nat.cast_pos.2 ((List.length_pos_of_mem (mem_ofSize.1 hx).1).trans_le hlength)
  constructor
  · calc smallest ^ 2 < |x| ^ 2 :=
          pow_lt_pow_left₀ (hmiddle x hx).1 smallest_pos.le two_ne_zero
      _ = x ^ 2 := sq_abs x
      _ ≤ squares (ofSize (largest / count) .middle v) := sq_le_squares hx
  · have hle : ((ofSize (largest / count) .middle v).length : ℝ) ≤ count :=
      Nat.cast_le.2 ((List.length_filter_le _ v).trans hlength)
    calc squares (ofSize (largest / count) .middle v)
        < (ofSize (largest / count) .middle v).length * (largest / count) ^ 2 :=
          squares_lt_of_abs_lt hempty fun y hy => (hmiddle y hy).2
      _ ≤ count * (largest / count) ^ 2 := mul_le_mul_of_nonneg_right hle (sq_nonneg _)
      _ = largest ^ 2 / count := by field_simp

namespace Sums

variable {s : Sums ℝ}

/-- Sums that neither overflow nor underflow, for `n` components. -/
structure InRange (n : ℕ) (s : Sums ℝ) : Prop where
  large : s.large = 0 ∨ 1 ≤ s.large ∧ s.large ≤ n
  small : s.small = 0 ∨ 1 ≤ s.small ∧ s.small ≤ n
  middle : s.middle = 0 ∨ smallest ^ 2 < s.middle ∧ s.middle < largest ^ 2 / n
  large_ne_zero_iff : s.large ≠ 0 ↔ 0 < s.largeMax
  small_ne_zero_iff : s.small ≠ 0 ↔ 0 < s.smallMax

theorem Describes.inRange (h : s.Describes (largest / n) v) (hlength : v.length ≤ n) :
    s.InRange n := by
  obtain ⟨hlarge, hmiddle, hsmall⟩ := h
  have hgroup (size : Size) : ((ofSize (largest / n) size v).length : ℝ) ≤ n :=
    Nat.cast_le.2 ((List.length_filter_le _ v).trans hlength)
  refine ⟨?_, ?_, ?_, hlarge.sum_ne_zero_iff_unit_pos, hsmall.sum_ne_zero_iff_unit_pos⟩
  · exact hlarge.sum_range.imp_right fun hrange => ⟨hrange.1, hrange.2.trans (hgroup .large)⟩
  · exact hsmall.sum_range.imp_right fun hrange => ⟨hrange.1, hrange.2.trans (hgroup .small)⟩
  · rw [hmiddle]
    exact middle_range hlength

end Sums

/-! ### Quotients -/

section Lists

variable {α : Type} [Scalar α]

/-- The quotients that `add` squares: what each divides, and what it divides by. -/
def Sums.addQuotients (limit : α) (s : Sums α) (v : α) : List (α × α) :=
  let x := Scalar.abs v
  if smallest < x ∧ x < limit then []
  else if x ≤ smallest then
    if s.smallMax < x then [(s.smallMax, x)]
    else if x != 0 then [(x, s.smallMax)]
    else []
  else if s.largeMax < x then [(s.largeMax, x)]
  else [(x, s.largeMax)]

def Sums.normDivisors (s : Sums α) : List α :=
  if s.large != 0 then [s.largeMax]
  else if s.middle != 0 then if s.smallMax ≤ s.middle then [s.middle] else [s.smallMax]
  else []

def sumsAfter (v : List α) (k : ℕ) : Sums α :=
  (v.take k).foldl (Sums.add (largest / Scalar.ofNat v.length)) .empty

/-- The quotients that are squared on the way to the norm. -/
def squaredQuotients (v : List α) : List (α × α) :=
  let limit := largest / Scalar.ofNat v.length
  loopDivisors (Sums.add limit) (Sums.addQuotients limit) .empty v

/-- What the norm divides by: the number of components, what is squared, and the unit or the sum
that the last root is taken in. -/
def carefulDivisors (v : List α) : List α :=
  if v.isEmpty then []
  else Scalar.ofNat v.length :: (squaredQuotients v).map Prod.snd ++ (sums v).normDivisors

end Lists

/-- Quotients are what they should be where these lie between zero and one. -/
def IsUnitQuotient (q : ℝ → ℝ → ℝ) : Prop :=
  ∀ x d, d ≠ 0 → x / d ∈ Set.Icc 0 1 → q x d = x / d

/-- Nothing is divided by less than itself. -/
def IsFraction (p : ℝ × ℝ) : Prop := 0 ≤ p.1 ∧ p.1 ≤ p.2 ∧ 0 < p.2

theorem IsFraction.mem_Icc {p : ℝ × ℝ} (h : IsFraction p) : p.1 / p.2 ∈ Set.Icc 0 1 :=
  ⟨div_nonneg h.1 h.2.2.le, div_le_one_of_le₀ h.2.1 h.2.2.le⟩

namespace Sums

variable {s : Sums ℝ}

theorem Describes.isFraction (h : s.Describes limit v) {p : ℝ × ℝ}
    (hp : p ∈ s.addQuotients limit x) : IsFraction p := by
  have hlarge := h.large.unit_nonneg
  have hsmall := h.small.unit_nonneg
  simp only [addQuotients] at hp
  change p ∈ if smallest < |x| ∧ |x| < limit then _ else if |x| ≤ smallest then
    if s.smallMax < |x| then [(s.smallMax, |x|)] else if |x| != 0 then [(|x|, s.smallMax)] else []
    else if s.largeMax < |x| then [(s.largeMax, |x|)] else [(|x|, s.largeMax)] at hp
  split_ifs at hp with hmiddle hle hgrow hne hgrow
  · cases hp
  · obtain rfl := List.mem_singleton.1 hp
    exact ⟨hsmall, hgrow.le, hsmall.trans_lt hgrow⟩
  · obtain rfl := List.mem_singleton.1 hp
    have hpos : 0 < |x| := (abs_nonneg x).lt_of_ne' (by simpa using hne)
    exact ⟨hpos.le, not_lt.1 hgrow, hpos.trans_le (not_lt.1 hgrow)⟩
  · cases hp
  · obtain rfl := List.mem_singleton.1 hp
    exact ⟨hlarge, hgrow.le, hlarge.trans_lt hgrow⟩
  · obtain rfl := List.mem_singleton.1 hp
    have hpos : 0 < |x| := smallest_pos.trans (not_le.1 hle)
    exact ⟨hpos.le, not_lt.1 hgrow, hpos.trans_le (not_lt.1 hgrow)⟩

theorem InRange.zero_notMem_normDivisors (h : s.InRange n) : 0 ∉ s.normDivisors := by
  unfold normDivisors
  split
  · next hlarge =>
    have hpos : 0 < s.largeMax := h.large_ne_zero_iff.1 (by simpa using hlarge)
    exact fun hmem => hpos.ne (List.mem_singleton.1 hmem)
  split
  · next hmiddle =>
    have hne : s.middle ≠ 0 := by simpa using hmiddle
    have hpos : 0 < s.middle := by
      rcases h.middle with hzero | hrange
      · exact absurd hzero hne
      · exact (pow_pos smallest_pos 2).trans hrange.1
    split
    · exact fun hmem => hne (List.mem_singleton.1 hmem).symm
    · next hle => exact fun hmem => (hpos.trans (not_le.1 hle)).ne (List.mem_singleton.1 hmem)
  · exact List.not_mem_nil

theorem quotient_eq {y d : ℝ} (h : ∀ p ∈ [(y, d)], q p.1 p.2 = p.1 / p.2) : q y d = y / d :=
  h (y, d) (List.mem_singleton_self _)

theorem add_dividing (h : ∀ p ∈ s.addQuotients limit x, q p.1 p.2 = p.1 / p.2) :
    @add ℝ (dividing q).toScalar limit s x = s.add limit x := by
  unfold addQuotients at h
  unfold add
  dsimp only at h ⊢
  refine ite_congr rfl (fun _ => rfl) fun hmiddle => ?_
  rw [if_neg hmiddle] at h
  refine ite_congr rfl (fun hle => ?_) fun hle => ?_
  · rw [if_pos hle] at h
    refine ite_congr rfl (fun hgrow => ?_) fun hgrow => ?_
    · rw [if_pos hgrow] at h
      exact congrArg (fun z => { s with small := 1 + s.small * z * z, smallMax := |x| })
        (quotient_eq h)
    · rw [if_neg hgrow] at h
      refine ite_congr rfl (fun hne => ?_) fun _ => rfl
      rw [if_pos hne] at h
      exact congrArg (fun z => { s with small := s.small + z * z }) (quotient_eq h)
  · rw [if_neg hle] at h
    refine ite_congr rfl (fun hgrow => ?_) fun hgrow => ?_
    · rw [if_pos hgrow] at h
      exact congrArg (fun z => { s with large := 1 + s.large * z * z, largeMax := |x| })
        (quotient_eq h)
    · rw [if_neg hgrow] at h
      exact congrArg (fun z => { s with large := s.large + z * z }) (quotient_eq h)

theorem norm_dividing (hq : IsQuotient q) (h : 0 ∉ s.normDivisors) :
    @norm ℝ (dividing q).toScalar s = s.norm := by
  unfold normDivisors at h
  unfold norm
  refine ite_congr rfl (fun hlarge => ?_) fun hlarge => ?_
  · rw [if_pos hlarge, List.mem_singleton] at h
    rw [hq.div_eq _ (Ne.symm h), hq.div_eq _ (Ne.symm h)]
    rfl
  rw [if_neg hlarge] at h
  refine ite_congr rfl (fun hmiddle => ?_) fun _ => rfl
  rw [if_pos hmiddle] at h
  refine ite_congr rfl (fun hle => ?_) fun hle => ?_
  · rw [if_pos hle, List.mem_singleton] at h
    rw [hq.div_eq _ (Ne.symm h)]
    rfl
  · rw [if_neg hle, List.mem_singleton] at h
    rw [hq.div_eq _ (Ne.symm h)]
    rfl

end Sums

/-! ### The norm -/

theorem describes_sumsAfter (v : List ℝ) (k : ℕ) :
    (sumsAfter v k).Describes (largest / v.length) (v.take k) :=
  (Sums.describes_empty _).foldl (v.take k)

theorem inRange_sumsAfter (v : List ℝ) (k : ℕ) : (sumsAfter v k).InRange v.length :=
  (describes_sumsAfter v k).inRange (List.length_take_le' k v)

theorem sumsAfter_length (v : List ℝ) : sumsAfter v v.length = sums v := by
  rw [sumsAfter, List.take_length]
  rfl

theorem isFraction_of_mem_squaredQuotients {p : ℝ × ℝ} (hp : p ∈ squaredQuotients v) :
    IsFraction p := by
  obtain ⟨before, x, after, -, hmem⟩ := mem_loopDivisors.1 hp
  exact ((Sums.describes_empty _).foldl before).isFraction hmem

theorem sums_dividing (h : ∀ p ∈ squaredQuotients v, q p.1 p.2 = p.1 / p.2) :
    v.foldl (@Sums.add ℝ (dividing q).toScalar (largest / v.length)) .empty = sums v :=
  foldl_eq_of_forall_loopDivisors (fun _ _ _ => Sums.add_dividing) h

theorem zero_notMem_carefulDivisors (v : List ℝ) : 0 ∉ carefulDivisors v := by
  unfold carefulDivisors
  split
  · exact List.not_mem_nil
  next hv =>
  have hlength : (v.length : ℝ) ≠ 0 :=
    Nat.cast_ne_zero.2 (mt List.length_eq_zero_iff.1 (by simpa using hv))
  have hnorm : 0 ∉ (sums v).normDivisors := by
    rw [← sumsAfter_length]
    exact (inRange_sumsAfter v v.length).zero_notMem_normDivisors
  rw [List.cons_append, List.mem_cons, List.mem_append, not_or, not_or]
  refine ⟨hlength.symm, fun hmem => ?_, hnorm⟩
  obtain ⟨p, hp, hzero⟩ := List.mem_map.1 hmem
  exact (isFraction_of_mem_squaredQuotients hp).2.2.ne' hzero

theorem careful_dividing (hq : IsQuotient q) (h : 0 ∉ carefulDivisors v) :
    @careful ℝ (dividing q).toScalar v = careful v := by
  unfold carefulDivisors at h
  unfold careful
  refine ite_congr rfl (fun _ => rfl) fun hv => ?_
  rw [if_neg hv, List.cons_append, List.mem_cons, List.mem_append, not_or, not_or] at h
  obtain ⟨hlength, hsquared, hnorm⟩ := h
  have hsums : @sums ℝ (dividing q).toScalar v = sums v := by
    calc @sums ℝ (dividing q).toScalar v
        = v.foldl (@Sums.add ℝ (dividing q).toScalar (q largest v.length)) .empty := rfl
      _ = v.foldl (@Sums.add ℝ (dividing q).toScalar (largest / v.length)) .empty := by
          rw [hq largest v.length (Ne.symm hlength)]
      _ = sums v := sums_dividing fun p hp => hq _ _ fun hzero => hsquared ?_
    exact List.mem_map.2 ⟨p, hp, hzero⟩
  rw [hsums]
  exact Sums.norm_dividing hq hnorm

/-- In exact arithmetic the careful norm is safe for every vector that is not empty. After every
component the sums are in range, and the sum of a group is zero exactly as long as the group has no
unit. What is squared is between zero and one, so the sums are the same whatever becomes of other
quotients; nothing is divided by zero, so the norm is the same whatever becomes of those by zero.
It lies between the largest magnitude and that times the root of the number of components. -/
theorem careful_stays_in_range (hv : v ≠ []) :
    (∀ k, (sumsAfter v k).InRange v.length) ∧
    (∀ p ∈ squaredQuotients v, p.1 / p.2 ∈ Set.Icc 0 1) ∧
    0 ∉ carefulDivisors v ∧
    (∀ q, IsUnitQuotient q →
      v.foldl (@Sums.add ℝ (dividing q).toScalar (largest / v.length)) .empty = sums v) ∧
    (∀ q, IsQuotient q → @careful ℝ (dividing q).toScalar v = careful v) ∧
    ∃ x ∈ v, (∀ y ∈ v, |y| ≤ |x|) ∧ |x| ≤ careful v ∧ careful v ≤ √v.length * |x| := by
  have hdivisors := zero_notMem_carefulDivisors v
  have hfraction {p : ℝ × ℝ} (hp : p ∈ squaredQuotients v) : IsFraction p :=
    isFraction_of_mem_squaredQuotients hp
  refine ⟨inRange_sumsAfter v, fun p hp => (hfraction hp).mem_Icc, hdivisors, fun q hq => ?_,
    fun q hq => careful_dividing hq hdivisors, ?_⟩
  · exact sums_dividing fun p hp => hq _ _ (hfraction hp).2.2.ne' (hfraction hp).mem_Icc
  · obtain ⟨x, hx, hmax⟩ := v.toFinset.exists_max_image (|·|) (List.toFinset_nonempty_iff v |>.2 hv)
    simp only [List.mem_toFinset] at hx hmax
    refine ⟨x, hx, hmax, abs_le_careful hx, (careful_le v).trans ?_⟩
    calc √(squares v) ≤ √(v.length * |x| ^ 2) := Real.sqrt_le_sqrt (squares_le_of_abs_le hmax)
      _ = √v.length * |x| := by rw [Real.sqrt_mul (Nat.cast_nonneg _), Real.sqrt_sq (abs_nonneg x)]

/-- Components of every size, among them a zero and a second large one that is larger. -/
noncomputable def mixed : List ℝ := [1e-25, 1e25, 0, 1, 2e25]

theorem careful_stays_in_range_mixed :
    mixed ≠ [] ∧ (∀ k, (sumsAfter mixed k).InRange 5) ∧
    (∀ p ∈ squaredQuotients mixed, p.1 / p.2 ∈ Set.Icc 0 1) ∧ 0 ∉ carefulDivisors mixed ∧
    2e25 ≤ careful mixed ∧ careful mixed ≤ √5 * 2e25 := by
  have hne : mixed ≠ [] := by simp [mixed]
  obtain ⟨hrange, hquotients, hdivisors, -, -, x, hx, hmax, hle, hge⟩ := careful_stays_in_range hne
  have hlargest : |x| = 2e25 := by
    refine le_antisymm ?_ ?_
    · simp only [mixed, List.mem_cons, List.not_mem_nil, or_false] at hx
      rcases hx with rfl | rfl | rfl | rfl | rfl <;> norm_num [abs_of_pos]
    · have hlast := hmax 2e25 (by simp [mixed])
      rwa [abs_of_pos (by norm_num)] at hlast
  rw [hlargest] at hle hge
  exact ⟨hne, hrange, hquotients, hdivisors, hle, hge⟩

end Norm

end LeastSquares
