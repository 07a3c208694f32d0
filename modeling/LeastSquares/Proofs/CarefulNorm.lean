import LeastSquares.Proofs.Reals

/-!
What the careful norm computes. Two of its three groups are summed in units of their largest
component so far, and a new largest component changes the unit of what was summed before. The
invariant of a group is therefore the sum of its squares as a whole: unit squared times sum. It
holds for the components in any order, so the norm is that of the components up to the one thing it
leaves out: beside a large component the small ones are dropped.
-/

namespace LeastSquares

namespace Norm

variable {limit x unit sum : ℝ} {v w group : List ℝ}

theorem smallest_pos : (0 : ℝ) < smallest := by
  change (0 : ℝ) < 3.834e-20
  norm_num

/-! ### Sums of squares -/

noncomputable def squares (v : List ℝ) : ℝ := (v.map (· ^ 2)).sum

@[simp] theorem squares_nil : squares [] = 0 := rfl

@[simp] theorem squares_cons (x : ℝ) (v : List ℝ) : squares (x :: v) = x ^ 2 + squares v := by
  simp [squares]

@[simp] theorem squares_append (v w : List ℝ) : squares (v ++ w) = squares v + squares w := by
  simp [squares]

theorem squares_nonneg (v : List ℝ) : 0 ≤ squares v := by
  refine List.sum_nonneg fun s hs => ?_
  obtain ⟨x, -, rfl⟩ := List.mem_map.1 hs
  exact sq_nonneg x

theorem sq_le_squares (hx : x ∈ v) : x ^ 2 ≤ squares v := by
  obtain ⟨before, after, rfl⟩ := List.append_of_mem hx
  have := squares_nonneg before
  have := squares_nonneg after
  simp only [squares_append, squares_cons]
  linarith

theorem squares_pos (hx : x ∈ v) (hne : x ≠ 0) : 0 < squares v :=
  (sq_pos_of_ne_zero hne).trans_le (sq_le_squares hx)

theorem squares_perm (h : v.Perm w) : squares v = squares w := (h.map (· ^ 2)).sum_eq

theorem squares_le_of_abs_le {bound : ℝ} (h : ∀ x ∈ v, |x| ≤ bound) :
    squares v ≤ v.length * bound ^ 2 := by
  induction v with
  | nil => simp
  | cons x v ih =>
      have hx : x ^ 2 ≤ bound ^ 2 := by
        rw [← sq_abs]
        exact pow_le_pow_left₀ (abs_nonneg x) (h x List.mem_cons_self) 2
      have hv := ih fun y hy => h y (List.mem_cons_of_mem x hy)
      rw [squares_cons, List.length_cons]
      push_cast
      linarith

theorem squares_lt_of_abs_lt {bound : ℝ} (hv : v ≠ []) (h : ∀ x ∈ v, |x| < bound) :
    squares v < v.length * bound ^ 2 := by
  obtain ⟨x, w, rfl⟩ := List.exists_cons_of_ne_nil hv
  have hx : x ^ 2 < bound ^ 2 := by
    rw [← sq_abs]
    exact pow_lt_pow_left₀ (h x List.mem_cons_self) (abs_nonneg x) two_ne_zero
  have hw := squares_le_of_abs_le fun y hy => (h y (List.mem_cons_of_mem x hy)).le
  rw [squares_cons, List.length_cons]
  push_cast
  linarith

theorem fast_eq (v : List ℝ) : fast v = √(squares v) := by
  rw [fast, sum_eq, squares]
  congr 2
  exact List.map_congr_left fun x _ => (pow_two x).symm

/-! ### Groups -/

inductive Size where
  | small
  | middle
  | large
  deriving DecidableEq

/-- The size of a component; large ones begin at `limit`, but never among the small ones. -/
noncomputable def sizeAt (limit x : ℝ) : Size :=
  if |x| ≤ smallest then .small else if |x| < limit then .middle else .large

noncomputable def ofSize (limit : ℝ) (size : Size) (v : List ℝ) : List ℝ :=
  v.filter (sizeAt limit · = size)

theorem sizeAt_eq_small : sizeAt limit x = .small ↔ |x| ≤ smallest := by
  unfold sizeAt
  split_ifs with hsmall hmiddle <;> simp [hsmall]

theorem sizeAt_eq_middle : sizeAt limit x = .middle ↔ smallest < |x| ∧ |x| < limit := by
  unfold sizeAt
  split_ifs with hsmall hmiddle
  · simp [hsmall.not_gt]
  · simp [not_le.1 hsmall, hmiddle]
  · simp [hmiddle]

theorem sizeAt_eq_large : sizeAt limit x = .large ↔ smallest < |x| ∧ limit ≤ |x| := by
  unfold sizeAt
  split_ifs with hsmall hmiddle
  · simp [hsmall.not_gt]
  · simp [hmiddle.not_ge]
  · simp [not_le.1 hsmall, not_lt.1 hmiddle]

theorem mem_ofSize {size : Size} : x ∈ ofSize limit size v ↔ x ∈ v ∧ sizeAt limit x = size := by
  simp [ofSize]

theorem ofSize_concat (limit : ℝ) (size : Size) (v : List ℝ) (x : ℝ) :
    ofSize limit size (v ++ [x]) =
      ofSize limit size v ++ if sizeAt limit x = size then [x] else [] := by
  rw [ofSize, List.filter_append, List.filter_singleton]
  simp only [ofSize, Bool.cond_decide]

/-- The groups have every component once. -/
theorem squares_eq_add (limit : ℝ) (v : List ℝ) :
    squares v = squares (ofSize limit .large v) + squares (ofSize limit .middle v) +
      squares (ofSize limit .small v) := by
  induction v with
  | nil => simp [ofSize]
  | cons x v ih =>
      rw [squares_cons, ih]
      simp only [ofSize, List.filter_cons]
      cases sizeAt limit x <;> simp <;> ring

theorem squares_filter_smallest_lt (limit : ℝ) (v : List ℝ) :
    squares (v.filter (smallest < |·|)) =
      squares (ofSize limit .large v) + squares (ofSize limit .middle v) := by
  induction v with
  | nil => simp [ofSize]
  | cons x v ih =>
      simp only [ofSize, List.filter_cons] at ih ⊢
      cases hsize : sizeAt limit x with
      | small => simp [(sizeAt_eq_small.1 hsize).not_gt, ih]
      | middle => simp [(sizeAt_eq_middle.1 hsize).1, ih]; ring
      | large => simp [(sizeAt_eq_large.1 hsize).1, ih]; ring

/-! ### A group that is summed in units of its largest component -/

/-- `unit` is the largest magnitude of a group, and `sum` its sum of squares in units of `unit²`. -/
structure IsScaled (unit sum : ℝ) (group : List ℝ) : Prop where
  abs_le : ∀ x ∈ group, |x| ≤ unit
  attained : unit = 0 ∨ ∃ x ∈ group, |x| = unit
  sum_eq_zero : unit = 0 → sum = 0
  sq_mul_sum : unit ^ 2 * sum = squares group

namespace IsScaled

theorem nil : IsScaled 0 0 [] where
  abs_le := nofun
  attained := .inl rfl
  sum_eq_zero _ := rfl
  sq_mul_sum := by simp

section

variable (h : IsScaled unit sum group)

include h

theorem unit_nonneg : 0 ≤ unit := by
  rcases h.attained with rfl | ⟨x, -, rfl⟩
  · exact le_rfl
  · exact abs_nonneg x

theorem sum_ne_zero_iff : sum ≠ 0 ↔ ∃ x ∈ group, x ≠ 0 := by
  constructor
  · intro hsum
    have hunit : unit ≠ 0 := fun hunit => hsum (h.sum_eq_zero hunit)
    obtain ⟨x, hx, hxunit⟩ := h.attained.resolve_left hunit
    exact ⟨x, hx, abs_ne_zero.1 (hxunit ▸ hunit)⟩
  · rintro ⟨x, hx, hne⟩ rfl
    have hpos := squares_pos hx hne
    rw [← h.sq_mul_sum, mul_zero] at hpos
    exact hpos.false

/-- A new largest component becomes the unit, also of what was summed before. -/
theorem grow (hx : unit < |x|) :
    IsScaled |x| (1 + sum * (unit / |x|) * (unit / |x|)) (group ++ [x]) := by
  have hpos : 0 < |x| := h.unit_nonneg.trans_lt hx
  refine ⟨fun y hy => ?_, .inr ⟨x, by simp, rfl⟩, fun hzero => absurd hzero hpos.ne', ?_⟩
  · rcases List.mem_append.1 hy with hy | hy
    · exact (h.abs_le y hy).trans hx.le
    · rw [List.mem_singleton.1 hy]
  · calc |x| ^ 2 * (1 + sum * (unit / |x|) * (unit / |x|))
        = |x| ^ 2 + unit ^ 2 * sum * (|x| / |x|) ^ 2 := by ring
      _ = squares (group ++ [x]) := by
          rw [div_self hpos.ne', h.sq_mul_sum, sq_abs, squares_append, squares_cons, squares_nil]
          ring

theorem keep (hx : |x| ≤ unit) (hne : x ≠ 0) :
    IsScaled unit (sum + |x| / unit * (|x| / unit)) (group ++ [x]) := by
  have hpos : 0 < unit := (abs_pos.2 hne).trans_le hx
  refine ⟨fun y hy => ?_, h.attained.imp_right ?_, fun hzero => absurd hzero hpos.ne', ?_⟩
  · rcases List.mem_append.1 hy with hy | hy
    · exact h.abs_le y hy
    · rwa [List.mem_singleton.1 hy]
  · rintro ⟨y, hy, hyunit⟩
    exact ⟨y, List.mem_append_left [x] hy, hyunit⟩
  · calc unit ^ 2 * (sum + |x| / unit * (|x| / unit))
        = unit ^ 2 * sum + |x| ^ 2 * (unit / unit) ^ 2 := by ring
      _ = squares (group ++ [x]) := by
          rw [div_self hpos.ne', h.sq_mul_sum, sq_abs, squares_append, squares_cons, squares_nil]
          ring

theorem skip : IsScaled unit sum (group ++ [0]) := by
  refine ⟨fun y hy => ?_, h.attained.imp_right ?_, h.sum_eq_zero, ?_⟩
  · rcases List.mem_append.1 hy with hy | hy
    · exact h.abs_le y hy
    · rw [List.mem_singleton.1 hy, abs_zero]
      exact h.unit_nonneg
  · rintro ⟨y, hy, hyunit⟩
    exact ⟨y, List.mem_append_left [0] hy, hyunit⟩
  · simp [h.sq_mul_sum]

end

end IsScaled

/-! ### The three sums -/

namespace Sums

variable {s : Sums ℝ}

structure Describes (limit : ℝ) (s : Sums ℝ) (v : List ℝ) : Prop where
  large : IsScaled s.largeMax s.large (ofSize limit .large v)
  middle : s.middle = squares (ofSize limit .middle v)
  small : IsScaled s.smallMax s.small (ofSize limit .small v)

theorem describes_empty (limit : ℝ) : Describes limit empty [] := ⟨.nil, rfl, .nil⟩

theorem add_of_small (s : Sums ℝ) (hx : sizeAt limit x = .small) :
    s.add limit x =
      if s.smallMax < |x| then
        { s with small := 1 + s.small * (s.smallMax / |x|) * (s.smallMax / |x|), smallMax := |x| }
      else if x ≠ 0 then
        { s with small := s.small + |x| / s.smallMax * (|x| / s.smallMax) }
      else s := by
  have hsmall : |x| ≤ smallest := sizeAt_eq_small.1 hx
  have hbranch : ¬ (smallest < |x| ∧ |x| < limit) := fun h => h.1.not_ge hsmall
  have hzero : (|x| != 0) = true ↔ x ≠ 0 := by simp
  change (if smallest < |x| ∧ |x| < limit then _ else if |x| ≤ smallest then _ else _) = _
  rw [if_neg hbranch, if_pos hsmall]
  simp only [← hzero]
  rfl

theorem add_of_middle (s : Sums ℝ) (hx : sizeAt limit x = .middle) :
    s.add limit x = { s with middle := s.middle + |x| * |x| } :=
  if_pos (sizeAt_eq_middle.1 hx)

theorem add_of_large (s : Sums ℝ) (hx : sizeAt limit x = .large) :
    s.add limit x =
      if s.largeMax < |x| then
        { s with large := 1 + s.large * (s.largeMax / |x|) * (s.largeMax / |x|), largeMax := |x| }
      else { s with large := s.large + |x| / s.largeMax * (|x| / s.largeMax) } := by
  obtain ⟨hsmall, hlarge⟩ := sizeAt_eq_large.1 hx
  have hbranch : ¬ (smallest < |x| ∧ |x| < limit) := fun h => h.2.not_ge hlarge
  change (if smallest < |x| ∧ |x| < limit then _ else if |x| ≤ smallest then _ else _) = _
  rw [if_neg hbranch, if_neg hsmall.not_ge]
  rfl

/-- One more component goes to the group of its size and leaves the other two as they are. -/
theorem Describes.add (h : s.Describes limit v) (x : ℝ) :
    (s.add limit x).Describes limit (v ++ [x]) := by
  obtain ⟨hlarge, hmiddle, hsmall⟩ := h
  have hother : ∀ size, sizeAt limit x ≠ size →
      ofSize limit size (v ++ [x]) = ofSize limit size v :=
    fun size hne => by rw [ofSize_concat, if_neg hne, List.append_nil]
  have hsame : ∀ {size}, sizeAt limit x = size →
      ofSize limit size (v ++ [x]) = ofSize limit size v ++ [x] :=
    fun heq => by rw [ofSize_concat, if_pos heq]
  cases hx : sizeAt limit x with
  | small =>
      rw [add_of_small s hx]
      have hlarge' := hother .large (by simp [hx])
      have hmiddle' := hother .middle (by simp [hx])
      split_ifs with hgrow hne
      · exact ⟨hlarge' ▸ hlarge, hmiddle' ▸ hmiddle, hsame hx ▸ hsmall.grow hgrow⟩
      · exact ⟨hlarge' ▸ hlarge, hmiddle' ▸ hmiddle, hsame hx ▸ hsmall.keep (not_lt.1 hgrow) hne⟩
      · -- a zero is not added, as there may be no unit yet
        obtain rfl := not_not.1 hne
        exact ⟨hlarge' ▸ hlarge, hmiddle' ▸ hmiddle, hsame hx ▸ hsmall.skip⟩
  | middle =>
      rw [add_of_middle s hx]
      refine ⟨hother .large (by simp [hx]) ▸ hlarge, ?_,
        hother .small (by simp [hx]) ▸ hsmall⟩
      rw [hsame hx, squares_append, ← hmiddle]
      simp [abs_mul_abs_self, pow_two]
  | large =>
      have hne : x ≠ 0 := by
        rintro rfl
        have := (sizeAt_eq_large.1 hx).1
        rw [abs_zero] at this
        exact smallest_pos.not_gt this
      rw [add_of_large s hx]
      have hmiddle' := hother .middle (by simp [hx])
      have hsmall' := hother .small (by simp [hx])
      split_ifs with hgrow
      · exact ⟨hsame hx ▸ hlarge.grow hgrow, hmiddle' ▸ hmiddle, hsmall' ▸ hsmall⟩
      · exact ⟨hsame hx ▸ hlarge.keep (not_lt.1 hgrow) hne, hmiddle' ▸ hmiddle, hsmall' ▸ hsmall⟩

theorem Describes.foldl (h : s.Describes limit v) (w : List ℝ) :
    (w.foldl (Sums.add limit) s).Describes limit (v ++ w) := by
  induction w generalizing s v with
  | nil => rwa [List.append_nil]
  | cons x w ih =>
      have hstep := ih (h.add x)
      rwa [List.append_assoc, List.singleton_append] at hstep

theorem mul_sqrt (hunit : 0 ≤ unit) (a : ℝ) : unit * √a = √(unit ^ 2 * a) := by
  rw [Real.sqrt_mul (sq_nonneg unit), Real.sqrt_sq hunit]

/-- Beside a large component the norm is that of the large and the middle ones, and else that of the
middle and the small ones. -/
theorem Describes.norm_eq (h : s.Describes limit v) :
    s.norm = √(squares (ofSize limit .middle v) +
      if s.large ≠ 0 then squares (ofSize limit .large v) else squares (ofSize limit .small v)) := by
  obtain ⟨hlarge, hmiddle, hsmall⟩ := h
  rw [← hlarge.sq_mul_sum, ← hmiddle, ← hsmall.sq_mul_sum]
  by_cases hne : s.large ≠ 0
  · have hmax : s.largeMax ≠ 0 := fun hzero => hne (hlarge.sum_eq_zero hzero)
    have hnorm : s.norm = s.largeMax * √(s.large + s.middle / s.largeMax / s.largeMax) :=
      if_pos (by simpa using hne)
    rw [hnorm, mul_sqrt hlarge.unit_nonneg, if_pos hne]
    congr 1
    field_simp
    ring
  have hnorm : s.norm = if (s.middle != 0) = true then _ else _ := if_neg (by simpa using hne)
  rw [hnorm, if_neg hne]
  split_ifs with hmid hle
  · have hmid : s.middle ≠ 0 := by simpa using hmid
    congr 1
    field_simp
  · -- the unit of the small group exceeds the middle sum, so it is not zero
    have hmax : s.smallMax ≠ 0 := by
      have := squares_nonneg (ofSize limit .middle v)
      rw [← hmiddle] at this
      exact (this.trans_lt (not_le.1 hle)).ne'
    congr 1
    field_simp
  · have hmid : s.middle = 0 := by simpa using hmid
    rw [hmid, zero_add]
    exact mul_sqrt hsmall.unit_nonneg s.small

end Sums

/-! ### The norm -/

def IsLarge (n : ℕ) (x : ℝ) : Prop := smallest < |x| ∧ largest / n ≤ |x|

theorem describes_sums (v : List ℝ) : (sums v).Describes (largest / v.length) v :=
  (Sums.describes_empty _).foldl v

theorem large_ne_zero_iff (v : List ℝ) : (sums v).large ≠ 0 ↔ ∃ x ∈ v, IsLarge v.length x := by
  rw [(describes_sums v).large.sum_ne_zero_iff]
  constructor
  · rintro ⟨x, hx, -⟩
    obtain ⟨hmem, hlarge⟩ := mem_ofSize.1 hx
    exact ⟨x, hmem, sizeAt_eq_large.1 hlarge⟩
  · rintro ⟨x, hmem, hlarge⟩
    exact ⟨x, mem_ofSize.2 ⟨hmem, sizeAt_eq_large.2 hlarge⟩,
      abs_pos.1 (smallest_pos.trans hlarge.1)⟩

theorem careful_eq (v : List ℝ) : careful v = (sums v).norm := by
  cases v with
  | nil =>
      rw [(describes_sums []).norm_eq]
      simp [ofSize, careful]
  | cons x v => rfl

theorem careful_of_large (h : ∃ x ∈ v, IsLarge v.length x) :
    careful v = √(squares (v.filter (smallest < |·|))) := by
  rw [careful_eq, (describes_sums v).norm_eq, if_pos ((large_ne_zero_iff v).2 h),
    squares_filter_smallest_lt, add_comm]

theorem careful_of_not_large (h : ¬ ∃ x ∈ v, IsLarge v.length x) : careful v = √(squares v) := by
  have hlarge : ofSize (largest / v.length) .large v = [] := by
    refine List.filter_eq_nil_iff.2 fun x hx hsize => h ⟨x, hx, ?_⟩
    exact sizeAt_eq_large.1 (of_decide_eq_true hsize)
  rw [careful_eq, (describes_sums v).norm_eq, if_neg (mt (large_ne_zero_iff v).1 h),
    squares_eq_add (largest / v.length) v, hlarge, squares_nil, zero_add]

theorem exists_dropped (v : List ℝ) : ∃ dropped : List ℝ, dropped.Sublist v ∧
    (∀ x ∈ dropped, |x| ≤ smallest) ∧ squares v = careful v ^ 2 + squares dropped := by
  by_cases h : ∃ x ∈ v, IsLarge v.length x
  · refine ⟨ofSize (largest / v.length) .small v, List.filter_sublist, fun x hx => ?_, ?_⟩
    · exact sizeAt_eq_small.1 (mem_ofSize.1 hx).2
    · rw [careful_of_large h, Real.sq_sqrt (squares_nonneg _),
        squares_filter_smallest_lt (largest / v.length), ← squares_eq_add]
  · refine ⟨[], List.nil_sublist v, nofun, ?_⟩
    rw [careful_of_not_large h, Real.sq_sqrt (squares_nonneg v), squares_nil, add_zero]

theorem careful_le (v : List ℝ) : careful v ≤ √(squares v) := by
  obtain ⟨dropped, -, -, hsquares⟩ := exists_dropped v
  refine Real.le_sqrt_of_sq_le ?_
  rw [hsquares]
  exact le_add_of_nonneg_right (squares_nonneg dropped)

/-- What is dropped is smaller than a component that is not. -/
theorem abs_le_careful (hx : x ∈ v) : |x| ≤ careful v := by
  have hkept {w : List ℝ} {y : ℝ} (hy : y ∈ w) : |y| ≤ √(squares w) := by
    refine Real.le_sqrt_of_sq_le ?_
    rw [sq_abs]
    exact sq_le_squares hy
  by_cases h : ∃ y ∈ v, IsLarge v.length y
  · obtain ⟨y, hy, hlarge⟩ := h
    rw [careful_of_large ⟨y, hy, hlarge⟩]
    have hkeeps {z : ℝ} (hz : z ∈ v) (hne : smallest < |z|) :
        |z| ≤ √(squares (v.filter (smallest < |·|))) :=
      hkept (List.mem_filter.2 ⟨hz, decide_eq_true hne⟩)
    rcases le_or_gt |x| smallest with hsmall | hsmall
    · exact hsmall.trans (hlarge.1.le.trans (hkeeps hy hlarge.1))
    · exact hkeeps hx hsmall
  · rw [careful_of_not_large h]
    exact hkept hx

theorem careful_perm (h : v.Perm w) : careful v = careful w := by
  have hiff : (∃ x ∈ v, IsLarge v.length x) ↔ ∃ x ∈ w, IsLarge w.length x := by
    simp only [h.mem_iff, h.length_eq]
  by_cases hlarge : ∃ x ∈ v, IsLarge v.length x
  · rw [careful_of_large hlarge, careful_of_large (hiff.1 hlarge), squares_perm (h.filter _)]
  · rw [careful_of_not_large hlarge, careful_of_not_large (mt hiff.2 hlarge), squares_perm h]

/-- In exact arithmetic the careful norm is the norm of all components, unless one of them is large:
then it is the norm of those that are not small. So it never exceeds the Euclidean norm, and the
order of the components does not matter. -/
theorem careful_is_norm (v : List ℝ) :
    0 ≤ careful v ∧
    ((¬ ∃ x ∈ v, IsLarge v.length x) → careful v ^ 2 = squares v) ∧
    ((∃ x ∈ v, IsLarge v.length x) →
      careful v ^ 2 = squares (v.filter (smallest < |·|))) ∧
    careful v ≤ √(squares v) ∧
    squares v - careful v ^ 2 ≤ v.length * smallest ^ 2 ∧
    (careful v < √(squares v) → ∃ x ∈ v, IsLarge v.length x) ∧
    ((¬ ∃ x ∈ v, IsLarge v.length x) → careful v = fast v) ∧
    ∀ w, v.Perm w → careful v = careful w := by
  obtain ⟨dropped, hsublist, hdropped, hsquares⟩ := exists_dropped v
  refine ⟨?_, fun h => ?_, fun h => ?_, careful_le v, ?_, fun h => ?_, fun h => ?_,
    fun w => careful_perm⟩
  · rw [careful_eq, (describes_sums v).norm_eq]
    exact Real.sqrt_nonneg _
  · rw [careful_of_not_large h, Real.sq_sqrt (squares_nonneg v)]
  · rw [careful_of_large h, Real.sq_sqrt (squares_nonneg _)]
  · calc squares v - careful v ^ 2 = squares dropped := by rw [hsquares, add_sub_cancel_left]
      _ ≤ dropped.length * smallest ^ 2 := squares_le_of_abs_le hdropped
      _ ≤ v.length * smallest ^ 2 :=
          mul_le_mul_of_nonneg_right (Nat.cast_le.2 hsublist.length_le) (sq_nonneg _)
  · by_contra hlarge
    exact h.ne (careful_of_not_large hlarge)
  · rw [careful_of_not_large h, fast_eq]

end Norm

end LeastSquares
