import LeastSquares.Proofs.DoubleSigns

/-!
Quotients of doubles. A quotient is rounded from as many digits as a double has, and two more that
say on which side of the middle the rest lies, so rounding it is rounding a whole number, which does
not pass a double that the exact quotient does not pass. What is used of this is the double one:
dividing by a number above one takes nothing above one, and twice the inverse of a number up to one
is one at least.
-/

open Float.Model Float.Model.UnpackedFloat

namespace LeastSquares

namespace Double

/-- The two binary digits that a mantissa of the given accuracy goes on with. -/
def digits : Accuracy → ℕ
  | .exact => 0
  | .inexact .lt => 1
  | .inexact .eq => 2
  | .inexact .gt => 3

theorem digits_le (acc : Accuracy) : digits acc ≤ 3 := by
  rcases acc with _ | ⟨⟨⟩⟩ <;> decide

theorem digits_accuracyOfFraction_eq_zero {r n : ℕ} :
    digits (accuracyOfFraction r n) = 0 ↔ r = 0 := by
  unfold accuracyOfFraction
  split
  · next h => exact ⟨fun _ => h, fun _ => rfl⟩
  · next h =>
    refine ⟨fun hdigits => ?_, fun hr => absurd hr h⟩
    generalize compare (2 * r) n = o at hdigits
    cases o <;> cases hdigits

/-- Rounding with an accuracy is rounding the mantissa with two more digits. -/
theorem shiftRight_digits (m : ℕ) (acc : Accuracy) (k : ℕ) :
    ExtendedMantissa.ofMantissaAndAccuracy m acc >>> k =
      ExtendedMantissa.ofMantissaAndAccuracy (4 * m + digits acc) .exact >>> (k + 2) := by
  induction k with
  | zero =>
      change ExtendedMantissa.ofMantissaAndAccuracy m acc =
        (ExtendedMantissa.ofMantissaAndAccuracy (4 * m + digits acc)
          .exact).shiftRightOne.shiftRightOne
      rcases acc with _ | ⟨⟨⟩⟩ <;>
        simp [ExtendedMantissa.ofMantissaAndAccuracy, ExtendedMantissa.shiftRightOne, digits] <;>
        omega
  | succ k ih =>
      change (ExtendedMantissa.ofMantissaAndAccuracy m acc >>> k).shiftRightOne =
        (ExtendedMantissa.ofMantissaAndAccuracy (4 * m + digits acc) .exact >>>
          (k + 2)).shiftRightOne
      rw [ih]

theorem log2_digits {m : ℕ} (hm : 0 < m) (acc : Accuracy) :
    (4 * m + digits acc).log2 = m.log2 + 2 := by
  have hdigits := digits_le acc
  have hle := Nat.log2_self_le hm.ne'
  have hlt := Nat.lt_log2_self (n := m)
  rw [Nat.log2_eq_iff (by omega), pow_add, pow_add, pow_add]
  rw [pow_succ] at hlt
  omega

/-- A mantissa that holds enough digits, or that ends below the last digit of a double. -/
structure IsReady (m : ℕ) (e : ℤ) : Prop where
  le : e ≤ keptExponent m e
  zero : m = 0 → e ≤ -1074

theorem keptExponent_digits {m : ℕ} {e : ℤ} (h : IsReady m e) (acc : Accuracy) :
    keptExponent (4 * m + digits acc) (e - 2) = keptExponent m e := by
  rcases Nat.eq_zero_or_pos m with rfl | hm
  · have hzero := h.zero rfl
    have hlog : (4 * 0 + digits acc).log2 ≤ 1 := by rcases acc with _ | ⟨⟨⟩⟩ <;> decide
    unfold keptExponent
    rw [Nat.log2_zero]
    omega
  · unfold keptExponent
    rw [log2_digits hm]
    omega

theorem roundWithAccuracy_digits (s : Sign) {m : ℕ} {e : ℤ} (h : IsReady m e) (acc : Accuracy) :
    roundWithAccuracy .binary64 s m e acc =
      roundWithAccuracy .binary64 s (4 * m + digits acc) (e - 2) .exact := by
  have hround : roundWithAccuracy .binary64 s m e acc =
      settle s (ExtendedMantissa.ofMantissaAndAccuracy m acc >>>
        (keptExponent m e - e).toNat).roundedMantissa (e + (keptExponent m e - e).toNat) := rfl
  have hle := h.le
  have hkept := keptExponent_digits h acc
  have hshift : (keptExponent m e - (e - 2)).toNat = (keptExponent m e - e).toNat + 2 := by omega
  rw [roundWithAccuracy_eq (by omega), hround, shiftRight_digits, roundedTo, hkept, hshift]
  congr 1
  omega

def quotientExponent (m : ℕ) (e : ℤ) (n : ℕ) (d : ℤ) : ℤ :=
  min (e - d) (max ((m.log2 + 1 + e) - (n.log2 + 1 + d) - 53) (-1074))

def dividend (m : ℕ) (e : ℤ) (n : ℕ) (d : ℤ) : ℕ := m * 2 ^ (e - d - quotientExponent m e n d).toNat

theorem div_finite {s t : Sign} {m n : ℕ} {e d : ℤ} {hm : 0 < m} {hn : 0 < n} :
    UnpackedFloat.div .binary64 (.finite s m e hm) (.finite t n d hn) =
      roundWithAccuracy .binary64 (s / t) (dividend m e n d / n) (quotientExponent m e n d)
        (accuracyOfFraction (dividend m e n d % n) n) := by
  rw [dividend, ← Nat.shiftLeft_eq]
  rfl

section Quotient

variable {m n : ℕ} {e d : ℤ}

theorem two_pow_le_quotient (hm : 0 < m) (hn : 0 < n) (h : -1074 < quotientExponent m e n d) :
    2 ^ 52 ≤ dividend m e n d / n := by
  rw [Nat.le_div_iff_mul_le hn, dividend]
  have hshift : n.log2 + 53 ≤ m.log2 + (e - d - quotientExponent m e n d).toNat := by
    unfold quotientExponent at *
    omega
  calc 2 ^ 52 * n ≤ 2 ^ 52 * 2 ^ (n.log2 + 1) := Nat.mul_le_mul_left _ Nat.lt_log2_self.le
    _ = 2 ^ (n.log2 + 53) := by rw [← pow_add]; congr 1; omega
    _ ≤ 2 ^ (m.log2 + (e - d - quotientExponent m e n d).toNat) :=
      Nat.pow_le_pow_right (by decide) hshift
    _ ≤ m * 2 ^ (e - d - quotientExponent m e n d).toNat := by
      rw [pow_add]
      exact Nat.mul_le_mul_right _ (Nat.log2_self_le hm.ne')

theorem isReady_quotient (hm : 0 < m) (hn : 0 < n) :
    IsReady (dividend m e n d / n) (quotientExponent m e n d) := by
  have hlarge := two_pow_le_quotient (e := e) (d := d) hm hn
  generalize dividend m e n d / n = q at *
  generalize quotientExponent m e n d = t at *
  rcases le_or_gt t (-1074) with hle | hlt
  · exact ⟨hle.trans (le_max_right _ _), fun _ => hle⟩
  · exact ⟨le_keptExponent t (hlarge hlt), fun hq => absurd (hlarge hlt) (by omega)⟩

/-- The order of doubles is that of their values, in units of a digit that both have. -/
theorem mul_two_pow_le {b : ℤ} (hm : IsCanonical m e) (hn : IsCanonical n d)
    (h : e < d ∨ e = d ∧ m ≤ n) (hb : b ≤ e) : m * 2 ^ (e - b).toNat ≤ n * 2 ^ (d - b).toNat := by
  rcases h with hlt | ⟨rfl, hle⟩
  · have hnormal : 2 ^ 52 ≤ n := hn.normal.resolve_right (by have := hm.le_exponent; omega)
    have hm' := hm.lt
    calc m * 2 ^ (e - b).toNat ≤ (n * 2) * 2 ^ (e - b).toNat :=
          Nat.mul_le_mul_right _ (by omega)
      _ = n * 2 ^ ((e - b).toNat + 1) := by rw [mul_assoc, ← pow_succ']
      _ ≤ n * 2 ^ (d - b).toNat :=
        Nat.mul_le_mul_left _ (Nat.pow_le_pow_right (by decide) (by omega))
  · exact Nat.mul_le_mul_right _ hle

theorem log2_add_le (hm : IsCanonical m e) (hn : IsCanonical n d) (h : e < d ∨ e = d ∧ m ≤ n) :
    m.log2 + e ≤ n.log2 + d := by
  rcases h with hlt | ⟨rfl, hle⟩
  · have hnormal : 2 ^ 52 ≤ n := hn.normal.resolve_right (by have := hm.le_exponent; omega)
    have := (Nat.le_log2 hn.pos.ne').2 hnormal
    have := (Nat.log2_lt hm.pos.ne').2 hm.lt
    omega
  · have hlog : 2 ^ m.log2 ≤ n := (Nat.log2_self_le hm.pos.ne').trans hle
    have := (Nat.le_log2 hn.pos.ne').2 hlog
    omega

theorem isCanonical_one : IsCanonical (2 ^ 52) (-52) :=
  ⟨by decide, by decide, by decide, .inl le_rfl⟩

theorem quotient_le {M P : ℕ} (h : M ≤ P * n) :
    4 * (M / n) + digits (accuracyOfFraction (M % n) n) ≤ 4 * P := by
  have hdigits := digits_le (accuracyOfFraction (M % n) n)
  have hdiv : M / n ≤ P := Nat.div_le_of_le_mul (by rwa [mul_comm])
  rcases hdiv.lt_or_eq with hlt | heq
  · omega
  · have hmod : M % n = 0 := by
      have := Nat.div_add_mod M n
      rw [heq, mul_comm] at this
      omega
    rw [digits_accuracyOfFraction_eq_zero.2 hmod]
    omega

theorem quotient_pos {M : ℕ} (hM : 0 < M) :
    0 < 4 * (M / n) + digits (accuracyOfFraction (M % n) n) := by
  rcases Nat.eq_zero_or_pos (M / n) with hdiv | hdiv
  · -- all of the dividend is in the remainder, which leaves its trace in the digits
    have hmod : M % n ≠ 0 := by
      have := Nat.div_add_mod M n
      rw [hdiv] at this
      omega
    have := mt (digits_accuracyOfFraction_eq_zero (n := n)).1 hmod
    omega
  · omega

/-- The quotient by a number that is no smaller rounds to one at most. -/
theorem div_le_one {s t : Sign} (hm : IsCanonical m e) (hn : IsCanonical n d)
    (h : e < d ∨ e = d ∧ m ≤ n) :
    UnpackedFloat.div .binary64 (.finite s m e hm.pos) (.finite t n d hn.pos) = .zero (s / t) ∨
      ∃ q b, ∃ hq : IsCanonical q b, (b < -52 ∨ b = -52 ∧ q ≤ 2 ^ 52) ∧
        UnpackedFloat.div .binary64 (.finite s m e hm.pos) (.finite t n d hn.pos) =
          .finite (s / t) q b hq.pos := by
  have hready := isReady_quotient (e := e) (d := d) hm.pos hn.pos
  have hkept := hready.le
  have hexponent : quotientExponent m e n d ≤ -53 := by
    have := log2_add_le hm hn h
    unfold quotientExponent
    omega
  have hdifference : quotientExponent m e n d ≤ e - d := min_le_left _ _
  have hscaled : dividend m e n d ≤ 2 ^ (-quotientExponent m e n d).toNat * n := by
    have := mul_two_pow_le (b := d + quotientExponent m e n d) hm hn h (by omega)
    rwa [← sub_sub, sub_add_cancel_left, mul_comm n] at this
  have hpower : 2 ^ 52 * 2 ^ (-52 - (quotientExponent m e n d - 2)).toNat =
      4 * 2 ^ (-quotientExponent m e n d).toNat := by
    rw [← pow_add, show (4 : ℕ) = 2 ^ 2 from rfl, ← pow_add]
    congr 1
    omega
  have hpos : 0 < dividend m e n d := Nat.mul_pos hm.pos (Nat.two_pow_pos _)
  -- with its digits the quotient is at most one, which is a double, so rounding keeps it there
  rw [div_finite, roundWithAccuracy_digits _ hready]
  refine round_le _ isCanonical_one (quotient_pos hpos) ?_ (by omega) ?_
  · rw [keptExponent_digits hready]
    omega
  · rw [hpower]
    exact quotient_le hscaled

theorem one_le_div {s t : Sign} (hm : IsCanonical m e) (hn : IsCanonical n d)
    (h : d < e ∨ d = e ∧ n ≤ m) :
    ∃ q b, ∃ hq : IsCanonical q b, (-52 < b ∨ -52 = b ∧ 2 ^ 52 ≤ q) ∧
      UnpackedFloat.div .binary64 (.finite s m e hm.pos) (.finite t n d hn.pos) =
        .finite (s / t) q b hq.pos := by
  have hready := isReady_quotient (e := e) (d := d) hm.pos hn.pos
  have hkept := hready.le
  have hnormal := two_pow_le_quotient (e := e) (d := d) hm.pos hn.pos
  have hdifference : quotientExponent m e n d ≤ e - d := min_le_left _ _
  -- one itself, or the least number with the exponent of the quotient if that is more
  have hbound : IsCanonical (2 ^ 52) (max (quotientExponent m e n d) (-52)) :=
    ⟨by decide, by decide, by omega, .inl le_rfl⟩
  have hle : 2 ^ 52 * 2 ^ (max (quotientExponent m e n d) (-52) -
      (quotientExponent m e n d - 2)).toNat ≤ 4 * (dividend m e n d / n) := by
    rcases le_or_gt (-52) (quotientExponent m e n d) with hlarge | hsmall
    · rw [max_eq_left hlarge, sub_sub_cancel]
      have := hnormal (by omega)
      rw [show (2 : ℤ).toNat = 2 from rfl]
      omega
    · have hpower : 2 ^ 52 * 2 ^ (-52 - (quotientExponent m e n d - 2)).toNat =
          4 * 2 ^ (-quotientExponent m e n d).toNat := by
        rw [← pow_add, show (4 : ℕ) = 2 ^ 2 from rfl, ← pow_add]
        congr 1
        omega
      have hscaled : 2 ^ (-quotientExponent m e n d).toNat ≤ dividend m e n d / n := by
        have := mul_two_pow_le (b := d + quotientExponent m e n d) hn hm h (by omega)
        rw [sub_add_cancel_left, ← sub_sub, mul_comm] at this
        exact (Nat.le_div_iff_mul_le hn.pos).2 this
      rw [max_eq_right hsmall.le, hpower]
      omega
  rw [div_finite, roundWithAccuracy_digits _ hready]
  obtain ⟨q, b, hq, hlex, heq⟩ := le_round (s / t) hbound (m := 4 * (dividend m e n d / n) +
    digits (accuracyOfFraction (dividend m e n d % n) n)) (d := quotientExponent m e n d - 2)
    (by rw [keptExponent_digits hready]; omega) (by omega) (by omega)
  exact ⟨q, b, hq, by omega, heq⟩

end Quotient

/-- A number that is at most one is no more when it is divided by a number above one. -/
theorem not_one_lt_div {a b : Float} (ha : a ≤ 1) (hb : 1 < b) : ¬ 1 < a / b := by
  have hone : HasSign .positive (unpacked 1) := hasSign_of_pos (by decide)
  have hbpos : 0 < b := pos_of_one_lt hb
  by_cases hapos : 0 < a
  · rcases cases_of_pos hapos with haval | ⟨m, e, hm, haval⟩
    · rw [le_iff, haval] at ha
      cases ha
    · rcases cases_of_pos hbpos with hbval | ⟨n, d, hn, hbval⟩
      · refine not_lt_of_hasSign hone (Vanishes.hasSign (vanishes_div_of_infinite a ?_) _)
        rw [isFinite_iff, hbval]
        rfl
      · have hle := (le_one_iff haval).1 ha
        have hlt := (one_lt_iff hbval).1 hb
        have hdiv := unpacked_div a b
        rw [haval, hbval] at hdiv
        rcases div_le_one (s := .positive) (t := .positive) hm hn (by omega) with
          hq | ⟨q, c, hq, hlex, heq⟩
        · rw [hq, stored_zero] at hdiv
          refine not_lt_of_hasSign hone ?_
          rw [hdiv]
          trivial
        · rw [heq, stored_finite hq (by omega)] at hdiv
          rw [one_lt_iff hdiv]
          omega
  · have hsign := hasSign_div (hasSign_of_not_pos hapos) (hasSign_of_pos hbpos)
      (bne_zero_of_pos hbpos)
    exact not_lt_of_hasSign hone hsign

/-- Twice the inverse of a number that is at most one is more than one, which can be subtracted. -/
theorem hasSign_two_div_sub_one {a : Float} (hpos : 0 < a) (hle : a ≤ 1) :
    HasSign .positive (unpacked (2.0 / a - 1)) := by
  rcases cases_of_pos hpos with ha | ⟨m, e, hm, ha⟩
  · rw [le_iff, ha] at hle
    cases hle
  · have hle := (le_one_iff ha).1 hle
    have htwo : IsCanonical (2 ^ 52) (-51) := ⟨by decide, by decide, by decide, .inl le_rfl⟩
    obtain ⟨q, b, hq, hlex, heq⟩ := one_le_div (s := .positive) (t := .positive) htwo hm (by omega)
    rw [unpacked_sub, unpacked_div, unpacked_two, unpacked_one, ha, heq]
    refine hasSign_stored ?_
    -- the quotient may be too large to be stored, and is an infinity then
    by_cases hb : b ≤ 971
    · rw [stored_finite hq hb]
      refine hasSign_normalize (sub_nonneg.2 (Int.ofNat_le.2 ?_)) _
      simp only [Nat.shiftLeft_eq]
      exact mul_two_pow_le isCanonical_one hq hlex (min_le_right _ _)
    · rw [stored_finite_of_lt hq.pos (not_le.1 hb)]
      rfl

end Double

end LeastSquares
