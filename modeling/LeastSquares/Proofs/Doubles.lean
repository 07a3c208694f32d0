import LeastSquares.Proofs.Constraints
import Mathlib

/-!
Doubles have the arithmetic that limits need. Two facts carry it. The order of doubles is a
lexicographic order on class, exponent and mantissa, hence transitive, and total away from NaN. And
rounding never passes a double: a product whose exact magnitude does not exceed that of a double
does not exceed it after rounding either, and the same the other way around. The threshold of a
limit is the limit times a number on the right side of one, so it stays on the right side of the
limit.
-/

open Float.Model Float.Model.UnpackedFloat

namespace LeastSquares

namespace Double

/-! ### The order -/

/-- A number whose order is that of doubles: first its class, from minus infinity to infinity, then
the exponent and the mantissa, with the sign. Both zeros are the same; NaN has no place. -/
def key : UnpackedFloat → Option (ℤ ×ₗ ℤ ×ₗ ℤ)
  | .infinity .negative => some (toLex (-2, toLex (0, 0)))
  | .finite .negative m e _ => some (toLex (-1, toLex (-e, -m)))
  | .zero _ => some (toLex (0, toLex (0, 0)))
  | .finite .positive m e _ => some (toLex (1, toLex (e, m)))
  | .infinity .positive => some (toLex (2, toLex (0, 0)))
  | .notANumber => none

theorem isLE_compare_then (e e' : ℤ) (m m' : ℕ) :
    ((compare e e').then (compare m m')).isLE = true ↔ e < e' ∨ e = e' ∧ m ≤ m' := by
  rw [Ordering.isLE_then_iff_or, compare_lt_iff_lt, compare_eq_iff_eq, Nat.isLE_compare]

theorem isGE_compare_then (e e' : ℤ) (m m' : ℕ) :
    ((compare e e').then (compare m m')).isGE = true ↔ e' < e ∨ e = e' ∧ m' ≤ m := by
  rcases lt_trichotomy e e' with h | rfl | h
  · simp [compare_lt_iff_lt.2 h, h.ne, h.le]
  · simp [Nat.isGE_compare]
  · simp [compare_gt_iff_gt.2 h, h]

theorem le_iff_key (a b : UnpackedFloat) :
    a.le b = true ↔ ∃ k l, key a = some k ∧ key b = some l ∧ k ≤ l := by
  rcases a with ⟨⟨⟩⟩ | _ | s | ⟨⟨⟩, m, e, hm⟩ <;> rcases b with ⟨⟨⟩⟩ | _ | s' | ⟨⟨⟩, m', e', hm'⟩ <;>
    simp [UnpackedFloat.le, UnpackedFloat.compare, key, Prod.Lex.le_iff, isLE_compare_then,
      isGE_compare_then]
  all_goals rfl

theorem isLT_compare_then (e e' : ℤ) (m m' : ℕ) :
    (compare e e').then (compare m m') = .lt ↔ e < e' ∨ e = e' ∧ m < m' := by
  rw [Ordering.then_eq_lt, compare_lt_iff_lt, compare_eq_iff_eq, compare_lt_iff_lt]

theorem isGT_compare_then (e e' : ℤ) (m m' : ℕ) :
    (compare e e').then (compare m m') = .gt ↔ e' < e ∨ e = e' ∧ m' < m := by
  rw [Ordering.then_eq_gt, compare_gt_iff_gt, compare_eq_iff_eq, compare_gt_iff_gt]

theorem lt_iff_key (a b : UnpackedFloat) :
    a.lt b = true ↔ ∃ k l, key a = some k ∧ key b = some l ∧ k < l := by
  rcases a with ⟨⟨⟩⟩ | _ | s | ⟨⟨⟩, m, e, hm⟩ <;> rcases b with ⟨⟨⟩⟩ | _ | s' | ⟨⟨⟩, m', e', hm'⟩ <;>
    simp [UnpackedFloat.lt, UnpackedFloat.compare, key, Prod.Lex.lt_iff, isLT_compare_then,
      isGT_compare_then, Ordering.swap_eq_lt]
  all_goals rfl

theorem positive_le {m n : ℕ} {e d : ℤ} {hm : 0 < m} {hn : 0 < n} (h : d < e ∨ d = e ∧ n ≤ m) :
    UnpackedFloat.le (.finite .positive n d hn) (.finite .positive m e hm) = true := by
  rw [UnpackedFloat.le, UnpackedFloat.compare]
  exact (isLE_compare_then d e n m).2 h

theorem negative_le {m n : ℕ} {e d : ℤ} {hm : 0 < m} {hn : 0 < n} (h : d < e ∨ d = e ∧ n ≤ m) :
    UnpackedFloat.le (.finite .negative m e hm) (.finite .negative n d hn) = true := by
  rw [UnpackedFloat.le, UnpackedFloat.compare, Option.any_some, Ordering.isLE_swap,
    isGE_compare_then]
  exact h.imp id fun h => ⟨h.1.symm, h.2⟩

theorem key_eq_none_iff {x : UnpackedFloat} : key x = none ↔ x = .notANumber := by
  rcases x with ⟨⟨⟩⟩ | _ | s | ⟨⟨⟩, m, e, hm⟩ <;> simp [key]

/-! ### Storing -/

/-- The double that a number becomes: the number itself, or infinity when it is too large. -/
def stored (x : UnpackedFloat) : UnpackedFloat := (Float.Model.pack x).unpack

/-- The mantissa and the exponent of a double that is not zero, or of one that is too large. -/
structure IsCanonical (m : ℕ) (e : ℤ) : Prop where
  pos : 0 < m
  lt : m < 2 ^ 53
  le_exponent : -1074 ≤ e
  normal : 2 ^ 52 ≤ m ∨ e = -1074

@[simp] theorem unpackSign_packComponents {spec : Format} {s : Sign}
    {e : BitVec spec.exponentBits} {m : BitVec spec.mantissaBitsWithoutImplicit} :
    unpackSign (packComponents spec s e m) = s.toBitVec := by
  refine BitVec.eq_of_getLsbD_eq fun i hi => ?_
  obtain rfl : i = 0 := by omega
  simp [unpackSign, packComponents, BitVec.getLsbD_append, BitVec.getElem_append]

@[simp] theorem ofBitVec_toBitVec (s : Sign) : Sign.ofBitVec s.toBitVec = s := by
  cases s <;> rfl

@[simp] theorem stored_notANumber : stored .notANumber = .notANumber := by rfl

@[simp] theorem stored_infinity (s : Sign) : stored (.infinity s) = .infinity s := by cases s <;> rfl

@[simp] theorem stored_zero (s : Sign) : stored (.zero s) = .zero s := by cases s <;> rfl

theorem toNat_mantissa {m : ℕ} (hm : m < 2 ^ 53) (hnormal : 2 ^ 52 ≤ m) :
    (1#1 ++ BitVec.ofNat 52 m).toNat = m := by
  rw [BitVec.toNat_append, ← Nat.shiftLeft_add_eq_or_of_lt (BitVec.isLt _), BitVec.toNat_ofNat]
  simp only [BitVec.toNat_ofNat, Nat.shiftLeft_eq]
  omega

theorem pack_finite {s : Sign} {m : ℕ} {e : ℤ} {hm : 0 < m} :
    UnpackedFloat.pack .binary64 (.finite s m e hm) =
      if 2 ^ 11 ≤ (e + (1023 : ℕ) + (52 : ℕ)).toNat + 1 then packedInfinity .binary64 s
      else if m.log2 + 1 = 53 then
        packComponents .binary64 s (BitVec.ofNat 11 (e + (1023 : ℕ) + (52 : ℕ)).toNat)
          (BitVec.ofNat 52 m)
      else packComponents .binary64 s 0#11 (BitVec.ofNat 52 m) :=
  rfl

theorem stored_eq {x : UnpackedFloat} {s : Sign} {e : BitVec 11} {m : BitVec 52}
    (h : UnpackedFloat.pack .binary64 x = packComponents .binary64 s e m) :
    stored x = UnpackedFloat.unpack .binary64 (packComponents .binary64 s e m) := by
  rw [← h]
  rfl

theorem unpack_normal {s : Sign} {e : BitVec 11} {m : BitVec 52} (hinf : e ≠ -1#11)
    (hzero : e ≠ 0#11) :
    UnpackedFloat.unpack .binary64 (packComponents .binary64 s e m) =
      .finite s (1#1 ++ m).toNat (e.toNat - 1075) (by rw [BitVec.toNat_append]; simp) := by
  simp only [UnpackedFloat.unpack, unpackExponent_packComponents, unpackMantissa_packComponents,
    unpackSign_packComponents, ofBitVec_toBitVec]
  rw [if_neg hinf, if_neg hzero]
  rfl

theorem unpack_subnormal {s : Sign} {m : BitVec 52} (hm : 0 < m.toNat) :
    UnpackedFloat.unpack .binary64 (packComponents .binary64 s 0#11 m) =
      .finite s m.toNat (-1074) hm := by
  have hzero : m ≠ 0#52 := by
    rintro rfl
    exact absurd hm (by decide)
  simp only [UnpackedFloat.unpack, unpackExponent_packComponents, unpackMantissa_packComponents,
    unpackSign_packComponents, ofBitVec_toBitVec]
  rw [if_neg (by decide), if_pos trivial, dif_neg hzero]
  rfl

theorem stored_finite {s : Sign} {m : ℕ} {e : ℤ} (h : IsCanonical m e) (he : e ≤ 971) :
    stored (.finite s m e h.pos) = .finite s m e h.pos := by
  obtain ⟨hpos, hlt, hle, hnormal⟩ := h
  have hfits : ¬ 2 ^ 11 ≤ (e + (1023 : ℕ) + (52 : ℕ)).toNat + 1 := by omega
  -- a normal number, whose leading bit is not stored, or a subnormal one
  by_cases hm : 2 ^ 52 ≤ m
  · have hlog : m.log2 + 1 = 53 := by
      have := (Nat.log2_lt hpos.ne').2 hlt
      have := (Nat.le_log2 hpos.ne').2 hm
      omega
    have hpack : UnpackedFloat.pack .binary64 (.finite s m e hpos) = packComponents .binary64 s
        (BitVec.ofNat 11 (e + (1023 : ℕ) + (52 : ℕ)).toNat) (BitVec.ofNat 52 m) := by
      rw [pack_finite, if_neg hfits, if_pos hlog]
    have hexponent : (BitVec.ofNat 11 (e + (1023 : ℕ) + (52 : ℕ)).toNat).toNat =
        (e + (1023 : ℕ) + (52 : ℕ)).toNat := by
      rw [BitVec.toNat_ofNat, Nat.mod_eq_of_lt (by omega)]
    rw [stored_eq hpack, unpack_normal]
    · congr 1
      · exact toNat_mantissa hlt hm
      · omega
    · intro heq
      rw [heq] at hexponent
      change 2047 = _ at hexponent
      omega
    · intro heq
      rw [heq] at hexponent
      change 0 = _ at hexponent
      omega
  · obtain rfl := hnormal.resolve_left hm
    have hlog : ¬ m.log2 + 1 = 53 := by
      have := (Nat.log2_lt hpos.ne').2 (not_le.1 hm)
      omega
    have hpack : UnpackedFloat.pack .binary64 (.finite s m (-1074) hpos) =
        packComponents .binary64 s 0#11 (BitVec.ofNat 52 m) := by
      rw [pack_finite, if_neg hfits, if_neg hlog]
    have hmantissa : (BitVec.ofNat 52 m).toNat = m := by
      rw [BitVec.toNat_ofNat, Nat.mod_eq_of_lt (not_le.1 hm)]
    rw [stored_eq hpack, unpack_subnormal (by omega)]
    congr 1

theorem stored_finite_of_lt {s : Sign} {m : ℕ} {e : ℤ} (hm : 0 < m) (he : 971 < e) :
    stored (.finite s m e hm) = .infinity s := by
  have hpack : UnpackedFloat.pack .binary64 (.finite s m e hm) =
      packComponents .binary64 s (-1#11) 0#52 := by
    rw [pack_finite, if_pos (by omega)]
    rfl
  rw [stored_eq hpack]
  exact stored_infinity s

/-- What is read from a double is canonical and fits. -/
theorem isCanonical_unpack {x : Float.Model} {s : Sign} {m : ℕ} {e : ℤ} {hm : 0 < m}
    (h : x.unpack = .finite s m e hm) : IsCanonical m e ∧ e ≤ 971 := by
  unfold Float.Model.unpack at h
  generalize x.toBits.toBitVec = b at h
  have hmantissa : (@unpackMantissa .binary64 b).toNat < 2 ^ 52 := BitVec.isLt _
  have hexponent : (@unpackExponent .binary64 b).toNat < 2 ^ 11 := BitVec.isLt _
  simp only [UnpackedFloat.unpack] at h
  split at h
  · split at h <;> cases h
  · next hinf =>
    split at h
    · next hzero =>
      split at h
      · cases h
      · next hne =>
        cases h
        rw [hzero]
        exact ⟨⟨hm, by omega, le_rfl, .inr rfl⟩, by decide⟩
    · next hzero =>
      cases h
      have hmax : (@unpackExponent .binary64 b).toNat ≠ 2047 :=
        fun heq => hinf (BitVec.eq_of_toNat_eq heq)
      have hmin : (@unpackExponent .binary64 b).toNat ≠ 0 :=
        fun heq => hzero (BitVec.eq_of_toNat_eq heq)
      have hbias : (Format.binary64.exponentBias : ℤ) = 1023 := rfl
      have hvalue : (1#1 ++ @unpackMantissa .binary64 b).toNat =
          2 ^ 52 + (@unpackMantissa .binary64 b).toNat := by
        rw [BitVec.toNat_append, ← Nat.shiftLeft_add_eq_or_of_lt (BitVec.isLt _)]
        rfl
      rw [hbias]
      exact ⟨⟨hm, by omega, by omega, .inl (by omega)⟩, by omega⟩

/-! ### Rounding -/

/-- Shifting drops digits and remembers whether one of them was not zero. -/
theorem shiftRight_spec (m k : ℕ) :
    (ExtendedMantissa.ofMantissaAndAccuracy m .exact >>> k).mantissa = m / 2 ^ k ∧
      ((ExtendedMantissa.ofMantissaAndAccuracy m .exact >>> k).roundBit = true ∨
        (ExtendedMantissa.ofMantissaAndAccuracy m .exact >>> k).stickyBit = true →
        m % 2 ^ k ≠ 0) := by
  induction k with
  | zero => exact ⟨by simp; rfl, by rintro (h | h) <;> cases h⟩
  | succ k ih =>
      obtain ⟨hmantissa, hdropped⟩ := ih
      have hstep : ExtendedMantissa.ofMantissaAndAccuracy m .exact >>> (k + 1) =
        (ExtendedMantissa.ofMantissaAndAccuracy m .exact >>> k).shiftRightOne := rfl
      rw [hstep, Nat.mod_pow_succ]
      refine ⟨?_, ?_⟩
      · rw [ExtendedMantissa.shiftRightOne, hmantissa, Nat.div_div_eq_div_mul, pow_succ]
      · simp only [ExtendedMantissa.shiftRightOne, hmantissa, bne_iff_ne, Bool.or_eq_true]
        rintro (h | h)
        · have := Nat.mul_pos (Nat.two_pow_pos k) (Nat.pos_of_ne_zero h)
          omega
        · have := hdropped h
          omega

/-- The mantissa that is left of `m` when `k` binary digits are rounded away. -/
def roundedTo (m k : ℕ) : ℕ :=
  (ExtendedMantissa.ofMantissaAndAccuracy m .exact >>> k).roundedMantissa

theorem div_le_roundedTo (m k : ℕ) : m / 2 ^ k ≤ roundedTo m k := by
  rw [← (shiftRight_spec m k).1, roundedTo]
  generalize ExtendedMantissa.ofMantissaAndAccuracy m .exact >>> k = x
  rcases x with ⟨_, _ | _, _ | _⟩ <;>
    simp [ExtendedMantissa.roundedMantissa, ExtendedMantissa.accuracy,
      Accuracy.roundToNearestEven]

/-- Rounding does not pass a mantissa that the number does not exceed. -/
theorem roundedTo_le {m k n : ℕ} (h : m ≤ n * 2 ^ k) : roundedTo m k ≤ n := by
  have hdiv : m / 2 ^ k ≤ n := Nat.div_le_of_le_mul (by rwa [mul_comm])
  have hlt : m % 2 ^ k ≠ 0 → m / 2 ^ k + 1 ≤ n := by
    intro hmod
    have hsplit := Nat.div_add_mod m (2 ^ k)
    refine Nat.lt_of_mul_lt_mul_left (a := 2 ^ k) ?_
    rw [mul_comm n] at h
    omega
  obtain ⟨hmantissa, hdropped⟩ := shiftRight_spec m k
  rw [← hmantissa] at hdiv hlt
  rw [roundedTo]
  generalize ExtendedMantissa.ofMantissaAndAccuracy m .exact >>> k = x at *
  rcases x with ⟨r, _ | _, _ | _⟩
  · exact hdiv
  · exact hdiv
  · have := hlt (hdropped (.inl rfl))
    change r + r % 2 ≤ n
    simp only at this
    omega
  · exact hlt (hdropped (.inl rfl))

def keptExponent (m : ℕ) (e : ℤ) : ℤ := max (m.log2 + 1 + e - 53) (-1074)

theorem shiftToTargetExponent_eq (m : ℕ) (e : ℤ) :
    shiftToTargetExponent .binary64 m e .exact =
      (ExtendedMantissa.ofMantissaAndAccuracy m .exact >>> (keptExponent m e - e).toNat,
        e + (keptExponent m e - e).toNat) :=
  rfl

theorem shiftToTargetExponent_of_lt {m : ℕ} {e : ℤ} (hm : m < 2 ^ 53) (he : -1074 ≤ e) :
    shiftToTargetExponent .binary64 m e .exact = (⟨m, false, false⟩, e) := by
  have hlog : m.log2 ≤ 52 := by
    rcases Nat.eq_zero_or_pos m with rfl | hpos
    · decide
    · exact Nat.lt_succ_iff.1 ((Nat.log2_lt hpos.ne').2 hm)
  have hshift : (keptExponent m e - e).toNat = 0 := by
    unfold keptExponent
    omega
  rw [shiftToTargetExponent_eq, hshift]
  simp
  rfl

theorem shiftToTargetExponent_two_pow {e : ℤ} (he : -1074 ≤ e) :
    shiftToTargetExponent .binary64 (2 ^ 53) e .exact = (⟨2 ^ 52, false, false⟩, e + 1) := by
  have hshift : (keptExponent (2 ^ 53) e - e).toNat = 1 := by
    unfold keptExponent
    rw [Nat.log2_two_pow]
    omega
  rw [shiftToTargetExponent_eq, hshift]
  rfl

def number (s : Sign) (m : ℕ) (e : ℤ) : UnpackedFloat :=
  if h : m = 0 then .zero s else .finite s m e (Nat.pos_of_ne_zero h)

theorem number_of_pos {s : Sign} {m : ℕ} {e : ℤ} (hm : 0 < m) :
    number s m e = .finite s m e hm := by
  rw [number, dif_neg hm.ne']

/-- A rounded mantissa and its exponent as a number; the mantissa may have grown by a digit. -/
def settle (s : Sign) (m : ℕ) (e : ℤ) : UnpackedFloat :=
  let p := shiftToTargetExponent .binary64 m e .exact
  number s p.1.mantissa p.2

theorem settle_of_lt {s : Sign} {m : ℕ} {e : ℤ} (hm : m < 2 ^ 53) (he : -1074 ≤ e) :
    settle s m e = number s m e := by
  rw [settle, shiftToTargetExponent_of_lt hm he]

theorem settle_two_pow {s : Sign} {e : ℤ} (he : -1074 ≤ e) :
    settle s (2 ^ 53) e = number s (2 ^ 52) (e + 1) := by
  rw [settle, shiftToTargetExponent_two_pow he]

theorem roundWithAccuracy_eq {s : Sign} {m : ℕ} {e : ℤ} (he : e ≤ keptExponent m e) :
    roundWithAccuracy .binary64 s m e .exact =
      settle s (roundedTo m (keptExponent m e - e).toNat) (keptExponent m e) := by
  have hround : roundWithAccuracy .binary64 s m e .exact =
      settle s (roundedTo m (keptExponent m e - e).toNat)
        (e + (keptExponent m e - e).toNat) := rfl
  rw [hround, Int.toNat_of_nonneg (by omega)]
  congr 1
  omega

theorem le_keptExponent {m : ℕ} (e : ℤ) (hm : 2 ^ 52 ≤ m) : e ≤ keptExponent m e := by
  have := (Nat.le_log2 (by omega)).2 hm
  unfold keptExponent
  omega

theorem roundedTo_le_two_pow (m : ℕ) (e : ℤ) :
    roundedTo m (keptExponent m e - e).toNat ≤ 2 ^ 53 := by
  apply roundedTo_le
  rw [← pow_add]
  have hle : m.log2 + 1 ≤ 53 + (keptExponent m e - e).toNat := by
    unfold keptExponent
    omega
  exact Nat.lt_log2_self.le.trans (Nat.pow_le_pow_right (by decide) hle)

/-- Only the smallest exponent leaves room for mantissas that are not normal. -/
theorem two_pow_le_roundedTo {m : ℕ} {d : ℤ} (hm : d ≤ keptExponent m d)
    (h : -1074 < keptExponent m d) : 2 ^ 52 ≤ roundedTo m (keptExponent m d - d).toNat := by
  have hlog : m.log2 = 52 + (keptExponent m d - d).toNat := by
    unfold keptExponent at *
    omega
  have hne : m ≠ 0 := by
    rintro rfl
    exact absurd hlog (by rw [Nat.log2_zero]; omega)
  have hle : 2 ^ 52 * 2 ^ (keptExponent m d - d).toNat ≤ m := by
    rw [← pow_add, ← hlog]
    exact Nat.log2_self_le hne
  exact ((Nat.le_div_iff_mul_le (Nat.two_pow_pos _)).2 hle).trans (div_le_roundedTo m _)

/-- The three things that rounding can give: zero, the rounded mantissa, or the next power of two. -/
theorem round_cases (s : Sign) {m : ℕ} {d : ℤ} (hm : d ≤ keptExponent m d) :
    roundedTo m (keptExponent m d - d).toNat = 0 ∧
      roundWithAccuracy .binary64 s m d .exact = .zero s ∨
    (∃ h : IsCanonical (roundedTo m (keptExponent m d - d).toNat) (keptExponent m d),
      roundWithAccuracy .binary64 s m d .exact = .finite s _ (keptExponent m d) h.pos) ∨
    roundedTo m (keptExponent m d - d).toNat = 2 ^ 53 ∧
      ∃ h : IsCanonical (2 ^ 52) (keptExponent m d + 1),
        roundWithAccuracy .binary64 s m d .exact =
          .finite s _ (keptExponent m d + 1) h.pos := by
  have hmin : -1074 ≤ keptExponent m d := le_max_right _ _
  have hnormal := two_pow_le_roundedTo (d := d) hm
  have hmax := roundedTo_le_two_pow m d
  rw [roundWithAccuracy_eq hm]
  generalize roundedTo m (keptExponent m d - d).toNat = r at *
  rcases hmax.lt_or_eq with hlt | rfl
  · rw [settle_of_lt hlt hmin]
    rcases Nat.eq_zero_or_pos r with rfl | hpos
    · exact .inl ⟨rfl, rfl⟩
    · refine .inr (.inl ⟨⟨hpos, hlt, hmin, ?_⟩, number_of_pos hpos⟩)
      rcases hmin.eq_or_lt with heq | hlt
      · exact .inr heq.symm
      · exact .inl (hnormal hlt)
  · rw [settle_two_pow hmin]
    exact .inr (.inr ⟨rfl, ⟨by decide, by decide, by omega, .inl le_rfl⟩, number_of_pos _⟩)

/-- A number rounds to none of greater magnitude than a double that it does not exceed. -/
theorem round_le (s : Sign) {m n : ℕ} {d e : ℤ} (h : IsCanonical n e) (hpos : 0 < m)
    (hm : d ≤ keptExponent m d) (hd : d ≤ e) (hle : m ≤ n * 2 ^ (e - d).toNat) :
    roundWithAccuracy .binary64 s m d .exact = .zero s ∨
      ∃ n' e', ∃ h' : IsCanonical n' e', (e' < e ∨ e' = e ∧ n' ≤ n) ∧
        roundWithAccuracy .binary64 s m d .exact = .finite s n' e' h'.pos := by
  -- the last digit that is kept is none above the last digit of the double
  have hlog : m.log2 < 53 + (e - d).toNat := by
    refine (Nat.log2_lt hpos.ne').2 (hle.trans_lt ?_)
    rw [pow_add]
    exact Nat.mul_lt_mul_of_pos_right h.lt (Nat.two_pow_pos _)
  have hkept : keptExponent m d ≤ e := by
    have := h.le_exponent
    unfold keptExponent
    omega
  have hrounded : keptExponent m d = e → roundedTo m (keptExponent m d - d).toNat ≤ n := by
    rintro rfl
    exact roundedTo_le hle
  have hnormal := h.normal
  have hlt := h.lt
  have hmin : -1074 ≤ keptExponent m d := le_max_right _ _
  rcases round_cases s (d := d) hm with ⟨-, heq⟩ | ⟨h', heq⟩ | ⟨hr, h', heq⟩
  · exact .inl heq
  · exact .inr ⟨_, _, h', by omega, heq⟩
  · exact .inr ⟨_, _, h', by omega, heq⟩

theorem le_round (s : Sign) {m n : ℕ} {d e : ℤ} (h : IsCanonical n e)
    (hm : d ≤ keptExponent m d) (hd : d ≤ e) (hle : n * 2 ^ (e - d).toNat ≤ m) :
    ∃ n' e', ∃ h' : IsCanonical n' e', (e < e' ∨ e = e' ∧ n ≤ n') ∧
      roundWithAccuracy .binary64 s m d .exact = .finite s n' e' h'.pos := by
  have hmin : -1074 ≤ keptExponent m d := le_max_right _ _
  have hpositive : 0 < m := (Nat.mul_pos h.pos (Nat.two_pow_pos _)).trans_le hle
  have hkept : e ≤ keptExponent m d := by
    rcases h.normal with hnormal | rfl
    · have hlog : 52 + (e - d).toNat ≤ m.log2 := by
        refine (Nat.le_log2 hpositive.ne').2 (le_trans ?_ hle)
        rw [pow_add]
        exact Nat.mul_le_mul_right _ hnormal
      unfold keptExponent
      omega
    · exact hmin
  have hrounded : keptExponent m d = e → n ≤ roundedTo m (keptExponent m d - d).toNat := by
    rintro rfl
    exact ((Nat.le_div_iff_mul_le (Nat.two_pow_pos _)).2 hle).trans (div_le_roundedTo m _)
  have hnormal := two_pow_le_roundedTo (d := d) hm
  have hpos := h.pos
  have hge := h.le_exponent
  rcases round_cases s (d := d) hm with ⟨hr, -⟩ | ⟨h', heq⟩ | ⟨hr, h', heq⟩
  · rw [hr] at hrounded hnormal
    omega
  · exact ⟨_, _, h', by omega, heq⟩
  · exact ⟨_, _, h', by omega, heq⟩

theorem stored_sub_zero {s : Sign} {m : ℕ} {e : ℤ} (h : IsCanonical m e) (he : e ≤ 971) :
    stored (UnpackedFloat.sub .binary64 (.finite s m e h.pos) (.zero .positive)) =
      .finite s m e h.pos :=
  stored_finite h he

theorem stored_add_zero {s : Sign} {m : ℕ} {e : ℤ} (h : IsCanonical m e) (he : e ≤ 971) :
    stored (UnpackedFloat.add .binary64 (.finite s m e h.pos) (.zero .positive)) =
      .finite s m e h.pos :=
  stored_finite h he

/-! ### Thresholds -/

/-- The numbers that limits are multiplied with: one, less a unit in the last place, and one more. -/
def below : UnpackedFloat := .finite .positive (2 ^ 53 - 2) (-53) (by decide)

def above : UnpackedFloat := .finite .positive (2 ^ 52 + 1) (-52) (by decide)

theorem sign_mul_positive (s : Sign) : s * .positive = s := by cases s <;> rfl

theorem mul_below {m : ℕ} {e : ℤ} (s : Sign) (h : IsCanonical m e) (he : e ≤ 971) :
    stored (UnpackedFloat.mul .binary64 (.finite s m e h.pos) below) = .zero s ∨
      ∃ n d, ∃ h' : IsCanonical n d, d ≤ 971 ∧ (d < e ∨ d = e ∧ n ≤ m) ∧
        stored (UnpackedFloat.mul .binary64 (.finite s m e h.pos) below) = .finite s n d h'.pos := by
  have hround : UnpackedFloat.mul .binary64 (.finite s m e h.pos) below =
      roundWithAccuracy .binary64 s (m * (2 ^ 53 - 2)) (e + -53) .exact := by
    rw [← sign_mul_positive s]
    cases s <;> rfl
  have hpos := h.pos
  have hshift : (e - (e + -53)).toNat = 53 := by omega
  rw [hround]
  rcases round_le s h (d := e + -53) (m := m * (2 ^ 53 - 2)) (by omega)
    (le_keptExponent _ (by omega)) (by omega) (by rw [hshift]; omega) with heq | ⟨n, d, h', hle, heq⟩
  · rw [heq, stored_zero]
    exact .inl rfl
  · rw [heq]
    exact .inr ⟨n, d, h', by omega, hle, stored_finite h' (by omega)⟩

theorem mul_above {m : ℕ} {e : ℤ} (s : Sign) (h : IsCanonical m e) :
    stored (UnpackedFloat.mul .binary64 (.finite s m e h.pos) above) = .infinity s ∨
      ∃ n d, ∃ h' : IsCanonical n d, d ≤ 971 ∧ (e < d ∨ e = d ∧ m ≤ n) ∧
        stored (UnpackedFloat.mul .binary64 (.finite s m e h.pos) above) = .finite s n d h'.pos := by
  have hround : UnpackedFloat.mul .binary64 (.finite s m e h.pos) above =
      roundWithAccuracy .binary64 s (m * (2 ^ 52 + 1)) (e + -52) .exact := by
    rw [← sign_mul_positive s]
    cases s <;> rfl
  have hpos := h.pos
  have hshift : (e - (e + -52)).toNat = 52 := by omega
  rw [hround]
  obtain ⟨n, d, h', hle, heq⟩ := le_round s h (d := e + -52) (m := m * (2 ^ 52 + 1))
    (le_keptExponent _ (by omega)) (by omega) (by rw [hshift]; omega)
  rw [heq]
  by_cases hd : d ≤ 971
  · exact .inr ⟨n, d, h', hd, hle, stored_finite h' hd⟩
  · exact .inl (stored_finite_of_lt h'.pos (not_le.1 hd))

def unpacked (x : Float) : UnpackedFloat := x.toModel.unpack

theorem le_iff (a b : Float) : a ≤ b ↔ (unpacked a).le (unpacked b) = true := decide_eq_true_iff

/-- The factor of an upper limit, which is what its threshold is but for the limit zero. -/
def upperFactor : Sign → UnpackedFloat
  | .positive => below
  | .negative => above

def lowerFactor : Sign → UnpackedFloat
  | .positive => above
  | .negative => below

section Thresholds

variable {u : Float} {s : Sign} {m : ℕ} {e : ℤ} {hm : 0 < m}

theorem zero_le (h : unpacked u = .finite .positive m e hm) : (0 : Float) ≤ u := by
  rw [le_iff, h]
  rfl

theorem not_zero_le (h : unpacked u = .finite .negative m e hm) : ¬ (0 : Float) ≤ u := by
  rw [le_iff, h]
  exact Bool.false_ne_true

theorem beq_zero_ne_true (h : unpacked u = .finite s m e hm) : ¬ (u == 0) = true := by
  have hfalse : (u == 0) = false := by
    change (unpacked u).beq (.zero .positive) = false
    rw [h]
    cases s <;> rfl
  rw [hfalse]
  decide

theorem unpacked_upperThreshold (h : unpacked u = .finite s m e hm) :
    unpacked (StepLimits.upperThreshold u) = stored (UnpackedFloat.sub .binary64
      (stored (UnpackedFloat.mul .binary64 (.finite s m e hm) (upperFactor s)))
      (.zero .positive)) := by
  unfold StepLimits.upperThreshold
  rw [if_neg (beq_zero_ne_true h), ← h]
  cases s with
  | positive =>
      rw [if_pos (zero_le h)]
      rfl
  | negative =>
      rw [if_neg (not_zero_le h)]
      rfl

theorem unpacked_lowerThreshold (h : unpacked u = .finite s m e hm) :
    unpacked (StepLimits.lowerThreshold u) = stored (UnpackedFloat.add .binary64
      (stored (UnpackedFloat.mul .binary64 (.finite s m e hm) (lowerFactor s)))
      (.zero .positive)) := by
  unfold StepLimits.lowerThreshold
  rw [if_neg (beq_zero_ne_true h), ← h]
  cases s with
  | positive =>
      rw [if_pos (zero_le h)]
      rfl
  | negative =>
      rw [if_neg (not_zero_le h)]
      rfl

/-- The threshold of the upper limit zero is a unit in the last place of one below it. -/
theorem upperThreshold_le_of_zero (h : unpacked u = .zero s) : StepLimits.upperThreshold u ≤ u := by
  have hsign : (0 : Float) ≤ u := by
    rw [le_iff, h]
    rfl
  have hzero : (u == 0) = true := by
    change (unpacked u).beq (.zero .positive) = true
    rw [h]
    rfl
  have hvalue : unpacked (StepLimits.upperThreshold u) =
      .finite .negative (2 ^ 52) (-104) (by decide) := by
    unfold StepLimits.upperThreshold
    rw [if_pos hsign, if_pos hzero]
    change stored (UnpackedFloat.sub .binary64
      (stored (UnpackedFloat.mul .binary64 (unpacked u) below)) _) = _
    rw [h]
    cases s <;> rfl
  rw [le_iff, hvalue, h]
  rfl

theorem le_lowerThreshold_of_zero (h : unpacked u = .zero s) : u ≤ StepLimits.lowerThreshold u := by
  have hsign : (0 : Float) ≤ u := by
    rw [le_iff, h]
    rfl
  have hzero : (u == 0) = true := by
    change (unpacked u).beq (.zero .positive) = true
    rw [h]
    rfl
  have hvalue : unpacked (StepLimits.lowerThreshold u) =
      .finite .positive (2 ^ 52) (-104) (by decide) := by
    unfold StepLimits.lowerThreshold
    rw [if_pos hsign, if_pos hzero]
    change stored (UnpackedFloat.add .binary64
      (stored (UnpackedFloat.mul .binary64 (unpacked u) above)) _) = _
    rw [h]
    cases s <;> rfl
  rw [le_iff, hvalue, h]
  rfl

theorem isFinite_iff (x : Float) : Scalar.isFinite x = (unpacked x).isFinite := rfl

theorem upperThreshold_le (hu : Scalar.isFinite u = true) : StepLimits.upperThreshold u ≤ u := by
  rw [isFinite_iff] at hu
  cases h : unpacked u with
  | infinity s => simp [h, UnpackedFloat.isFinite] at hu
  | notANumber => simp [h, UnpackedFloat.isFinite] at hu
  | zero s => exact upperThreshold_le_of_zero h
  | finite s m e hm =>
      obtain ⟨hcanonical, he⟩ := isCanonical_unpack h
      rw [le_iff, unpacked_upperThreshold h, h]
      cases s with
      | positive =>
          rcases mul_below .positive hcanonical he with heq | ⟨n, d, h', hd, hle, heq⟩
          · rw [upperFactor, heq]
            rfl
          · rw [upperFactor, heq, stored_sub_zero h' hd]
            exact positive_le hle
      | negative =>
          rcases mul_above .negative hcanonical with heq | ⟨n, d, h', hd, hle, heq⟩
          · rw [upperFactor, heq]
            rfl
          · rw [upperFactor, heq, stored_sub_zero h' hd]
            exact negative_le hle

theorem le_lowerThreshold (hu : Scalar.isFinite u = true) : u ≤ StepLimits.lowerThreshold u := by
  rw [isFinite_iff] at hu
  cases h : unpacked u with
  | infinity s => simp [h, UnpackedFloat.isFinite] at hu
  | notANumber => simp [h, UnpackedFloat.isFinite] at hu
  | zero s => exact le_lowerThreshold_of_zero h
  | finite s m e hm =>
      obtain ⟨hcanonical, he⟩ := isCanonical_unpack h
      rw [le_iff, unpacked_lowerThreshold h, h]
      cases s with
      | positive =>
          rcases mul_above .positive hcanonical with heq | ⟨n, d, h', hd, hle, heq⟩
          · rw [lowerFactor, heq]
            rfl
          · rw [lowerFactor, heq, stored_add_zero h' hd]
            exact positive_le hle
      | negative =>
          rcases mul_below .negative hcanonical he with heq | ⟨n, d, h', hd, hle, heq⟩
          · rw [lowerFactor, heq]
            rfl
          · rw [lowerFactor, heq, stored_add_zero h' hd]
            exact negative_le hle

end Thresholds

/-! ### The laws -/

theorem isNumber_iff (x : Float) : Scalar.isNumber x = true ↔ unpacked x ≠ .notANumber := by
  change (unpacked x).beq (unpacked x) = true ↔ _
  rcases unpacked x with ⟨⟨⟩⟩ | _ | s | ⟨⟨⟩, m, e, hm⟩ <;>
    simp [UnpackedFloat.beq, UnpackedFloat.compare]
  all_goals rfl

theorem isNumber_of_isFinite {x : Float} (h : Scalar.isFinite x = true) :
    Scalar.isNumber x = true := by
  rw [isNumber_iff]
  rw [isFinite_iff] at h
  intro heq
  rw [heq] at h
  cases h

theorem eq_negative_infinity {x y : UnpackedFloat} (hx : x.isFinite = false)
    (hle : x.le y = true) (hy : y.isFinite = true) : x = .infinity .negative := by
  rcases x with ⟨⟨⟩⟩ | _ | s | ⟨⟨⟩, m, e, hm⟩ <;> rcases y with ⟨⟨⟩⟩ | _ | s' | ⟨⟨⟩, m', e', hm'⟩ <;>
    simp_all [UnpackedFloat.isFinite, UnpackedFloat.le, UnpackedFloat.compare]

theorem eq_positive_infinity {x y : UnpackedFloat} (hx : x.isFinite = false)
    (hle : y.le x = true) (hy : y.isFinite = true) : x = .infinity .positive := by
  rcases x with ⟨⟨⟩⟩ | _ | s | ⟨⟨⟩, m, e, hm⟩ <;> rcases y with ⟨⟨⟩⟩ | _ | s' | ⟨⟨⟩, m', e', hm'⟩ <;>
    simp_all [UnpackedFloat.isFinite, UnpackedFloat.le, UnpackedFloat.compare]

theorem negative_infinity_le {x : UnpackedFloat} (hx : x.isFinite = true) :
    UnpackedFloat.le (.infinity .negative) x = true := by
  rcases x with ⟨⟨⟩⟩ | _ | s | ⟨⟨⟩, m, e, hm⟩
  all_goals first | rfl | cases hx

theorem le_positive_infinity {x : UnpackedFloat} (hx : x.isFinite = true) :
    x.le (.infinity .positive) = true := by
  rcases x with ⟨⟨⟩⟩ | _ | s | ⟨⟨⟩, m, e, hm⟩
  all_goals first | rfl | cases hx

end Double

open Double in
instance : LimitArithmetic Float where
  le_trans {a b c} hab hbc := by
    obtain ⟨k, l, hk, hl, hkl⟩ := (le_iff_key _ _).1 ((le_iff a b).1 hab)
    obtain ⟨l', j, hl', hj, hlj⟩ := (le_iff_key _ _).1 ((le_iff b c).1 hbc)
    cases hl.symm.trans hl'
    exact (le_iff a c).2 ((le_iff_key _ _).2 ⟨k, j, hk, hj, hkl.trans hlj⟩)
  le_total {a b} ha hb := by
    obtain ⟨k, hk⟩ := Option.ne_none_iff_exists'.1 (mt key_eq_none_iff.1 ((isNumber_iff a).1 ha))
    obtain ⟨l, hl⟩ := Option.ne_none_iff_exists'.1 (mt key_eq_none_iff.1 ((isNumber_iff b).1 hb))
    refine (le_total k l).imp (fun h => ?_) fun h => ?_
    · exact (le_iff a b).2 ((le_iff_key _ _).2 ⟨k, l, hk, hl, h⟩)
    · exact (le_iff b a).2 ((le_iff_key _ _).2 ⟨l, k, hl, hk, h⟩)
  isNumber_of_isFinite := isNumber_of_isFinite
  isNumber_of_le {a b} h := by
    obtain ⟨k, l, hk, hl, -⟩ := (le_iff_key _ _).1 ((le_iff a b).1 h)
    rw [isNumber_iff, isNumber_iff]
    refine ⟨fun heq => ?_, fun heq => ?_⟩
    · rw [heq] at hk
      cases hk
    · rw [heq] at hl
      cases hl
  le_of_infinite {a b c} ha hab hb hc := by
    rw [isFinite_iff] at ha hb hc
    rw [le_iff] at hab ⊢
    rw [eq_negative_infinity ha hab hb]
    exact negative_infinity_le hc
  infinite_le {a b c} ha hba hb hc := by
    rw [isFinite_iff] at ha hb hc
    rw [le_iff] at hba ⊢
    rw [eq_positive_infinity ha hba hb]
    exact le_positive_infinity hc
  upperThreshold_le := upperThreshold_le
  le_lowerThreshold := le_lowerThreshold

/-! ### Fits in doubles -/

/-- Constraints hold at every call of a fit in doubles, whatever its loops do, and in what it
returns. Untied parameters are finite and within their limits wherever residuals are not probed,
fixed ones keep their starting values, and tied ones have the values of their ties when each tie
reads untied parameters and earlier ties alone. -/
theorem minimize_keeps_constraints {store : Store Float} {function : ResidualFunction Float}
    {options : Options Float} {initial : Option (Array Float)} {start : Vector Float store.size}
    (hstart : store.startingVector initial = .ok start) (trials : ℕ) :
    (∀ call ∈ (minimizeWithin trials store function options initial).2.calls,
      store.AdmitsCall start call) ∧
    ∀ solution, (minimizeWithin trials store function options initial).1 = .ok solution →
      store.Holds start solution.parameters ∧ store.Within solution.parameters :=
  admitsCall_minimizeWithin hstart trials

/-- A free parameter between limits, a fixed one, and one tied to their sum. -/
def mixedStore : Store Float :=
  ⟨#[{ value := some 1, bounds := ⟨some 0, some 4⟩ }, { value := some 2, fixed := true },
    { tie := some ⟨fun x => Scalar.sum (x.toList.take 2)⟩ }]⟩

def lessNine : ResidualFunction Float := .ofEval 1 fun x => .ok #v[Scalar.sum x.toList - 9]

theorem minimize_keeps_constraints_mixed :
    mixedStore.startingVector (some #[1, 2, 0]) = .ok #v[1, 2, 0] ∧
    (∀ call ∈ (minimizeWithin 10 mixedStore lessNine .default (some #[1, 2, 0])).2.calls,
      mixedStore.AdmitsCall #v[1, 2, 0] call) ∧
    ∀ solution, (minimizeWithin 10 mixedStore lessNine .default (some #[1, 2, 0])).1 = .ok solution →
      mixedStore.Holds #v[1, 2, 0] solution.parameters ∧ mixedStore.Within solution.parameters :=
  ⟨rfl, minimize_keeps_constraints rfl 10⟩

end LeastSquares
