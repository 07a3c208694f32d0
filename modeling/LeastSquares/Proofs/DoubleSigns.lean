import LeastSquares.Proofs.Doubles

/-!
What the arithmetic of doubles says without its digits. A double is an infinity, NaN, a zero or a
number with a sign, and rounding changes no sign, so the class of a result follows from the classes
of its operands: products and quotients multiply signs, what is divided by an infinity or by NaN is
zero or NaN, and neither a sum nor a square is finite unless its parts are. Comparisons with NaN are
false, which is how NaN gets lost on the way to a maximum. The digits matter in one place: rounding
does not carry a quotient across one.
-/

open Float.Model Float.Model.UnpackedFloat

namespace LeastSquares

namespace Double

/-! ### Operations -/

section Operations

variable (a b : Float)

theorem unpacked_add :
    unpacked (a + b) = stored (UnpackedFloat.add .binary64 (unpacked a) (unpacked b)) := rfl

theorem unpacked_sub :
    unpacked (a - b) = stored (UnpackedFloat.sub .binary64 (unpacked a) (unpacked b)) := rfl

theorem unpacked_mul :
    unpacked (a * b) = stored (UnpackedFloat.mul .binary64 (unpacked a) (unpacked b)) := rfl

theorem unpacked_div :
    unpacked (a / b) = stored (UnpackedFloat.div .binary64 (unpacked a) (unpacked b)) := rfl

theorem unpacked_sqrt :
    unpacked (Scalar.sqrt a) = stored (UnpackedFloat.sqrt .binary64 (unpacked a)) := rfl

theorem unpacked_abs : unpacked (Scalar.abs a) = stored (UnpackedFloat.abs (unpacked a)) := rfl

theorem lt_iff : a < b ↔ (unpacked a).lt (unpacked b) = true := decide_eq_true_iff

theorem beq_eq : (a == b) = (unpacked a).beq (unpacked b) := rfl

end Operations

theorem unpacked_one : unpacked 1 = .finite .positive (2 ^ 52) (-52) (by decide) := by rfl

theorem unpacked_two : unpacked 2.0 = .finite .positive (2 ^ 52) (-51) (by decide) := by rfl

/-! ### Order -/

section Order

variable {a b c : Float}

protected theorem not_lt_of_le (h : a ≤ b) : ¬ b < a := by
  intro hlt
  obtain ⟨k, l, hk, hl, hkl⟩ := (le_iff_key _ _).1 ((le_iff a b).1 h)
  obtain ⟨l', k', hl', hk', hlk⟩ := (lt_iff_key _ _).1 ((lt_iff b a).1 hlt)
  cases hk.symm.trans hk'
  cases hl.symm.trans hl'
  exact absurd hkl (not_le.2 hlk)

protected theorem le_of_lt (h : a < b) : a ≤ b := by
  obtain ⟨k, l, hk, hl, hkl⟩ := (lt_iff_key _ _).1 ((lt_iff a b).1 h)
  exact (le_iff a b).2 ((le_iff_key _ _).2 ⟨k, l, hk, hl, hkl.le⟩)

protected theorem lt_of_lt_of_le (hab : a < b) (hbc : b ≤ c) : a < c := by
  obtain ⟨k, l, hk, hl, hkl⟩ := (lt_iff_key _ _).1 ((lt_iff a b).1 hab)
  obtain ⟨l', j, hl', hj, hlj⟩ := (le_iff_key _ _).1 ((le_iff b c).1 hbc)
  cases hl.symm.trans hl'
  exact (lt_iff a c).2 ((lt_iff_key _ _).2 ⟨k, j, hk, hj, hkl.trans_le hlj⟩)

protected theorem le_of_not_lt (ha : Scalar.isNumber a = true) (hb : Scalar.isNumber b = true)
    (h : ¬ a < b) : b ≤ a := by
  obtain ⟨k, hk⟩ := Option.ne_none_iff_exists'.1 (mt key_eq_none_iff.1 ((isNumber_iff a).1 ha))
  obtain ⟨l, hl⟩ := Option.ne_none_iff_exists'.1 (mt key_eq_none_iff.1 ((isNumber_iff b).1 hb))
  refine (le_iff b a).2 ((le_iff_key _ _).2 ⟨l, k, hl, hk, not_lt.1 fun hkl => h ?_⟩)
  exact (lt_iff a b).2 ((lt_iff_key _ _).2 ⟨k, l, hk, hl, hkl⟩)

theorem pos_of_one_lt (h : 1 < a) : 0 < a :=
  Double.lt_of_lt_of_le (by decide) (Double.le_of_lt h)

end Order

theorem cases_of_pos {a : Float} (h : 0 < a) :
    unpacked a = .infinity .positive ∨
      ∃ m e, ∃ hm : IsCanonical m e, unpacked a = .finite .positive m e hm.pos := by
  rw [lt_iff] at h
  cases ha : unpacked a with
  | infinity s =>
      rw [ha] at h
      cases s
      · cases h
      · exact .inl rfl
  | notANumber => rw [ha] at h; cases h
  | zero s => rw [ha] at h; cases h
  | finite s m e hm =>
      rw [ha] at h
      cases s
      · cases h
      · exact .inr ⟨m, e, (isCanonical_unpack ha).1, rfl⟩

theorem le_one_iff {a : Float} {m : ℕ} {e : ℤ} {hm : 0 < m}
    (h : unpacked a = .finite .positive m e hm) : a ≤ 1 ↔ e < -52 ∨ e = -52 ∧ m ≤ 2 ^ 52 := by
  rw [le_iff, h, unpacked_one]
  exact isLE_compare_then e (-52) m (2 ^ 52)

theorem one_lt_iff {a : Float} {m : ℕ} {e : ℤ} {hm : 0 < m}
    (h : unpacked a = .finite .positive m e hm) : 1 < a ↔ -52 < e ∨ -52 = e ∧ 2 ^ 52 < m := by
  rw [lt_iff, h, unpacked_one, UnpackedFloat.lt, UnpackedFloat.compare, beq_iff_eq,
    Option.some.injEq]
  exact isLT_compare_then (-52) e (2 ^ 52) m

/-! ### Signs -/

/-- A number is of the sign `s`, which zero and NaN always are. -/
def HasSign (s : Sign) : UnpackedFloat → Prop
  | .infinity t => t = s
  | .finite t _ _ _ => t = s
  | .zero _ => True
  | .notANumber => True

theorem exists_hasSign (x : UnpackedFloat) : ∃ s, HasSign s x := by
  rcases x with s | _ | s | ⟨s, m, e, hm⟩
  · exact ⟨s, rfl⟩
  · exact ⟨.positive, trivial⟩
  · exact ⟨.positive, trivial⟩
  · exact ⟨s, rfl⟩

theorem hasSign_number (s : Sign) (m : ℕ) (e : ℤ) : HasSign s (number s m e) := by
  unfold number
  split
  · trivial
  · rfl

theorem hasSign_round {s : Sign} {m : ℕ} {e : ℤ} {acc : Accuracy} :
    HasSign s (roundWithAccuracy .binary64 s m e acc) :=
  hasSign_number s _ _

theorem hasSign_unpack {s : Sign} {e : BitVec 11} {m : BitVec 52} :
    HasSign s (UnpackedFloat.unpack .binary64 (packComponents .binary64 s e m)) := by
  simp only [UnpackedFloat.unpack, unpackExponent_packComponents, unpackMantissa_packComponents,
    unpackSign_packComponents, ofBitVec_toBitVec]
  repeat' split
  all_goals first | rfl | trivial

theorem hasSign_stored {s : Sign} {x : UnpackedFloat} (h : HasSign s x) : HasSign s (stored x) := by
  rcases x with t | _ | t | ⟨t, m, e, hm⟩
  · rwa [stored_infinity]
  · trivial
  · rw [stored_zero]
    trivial
  · obtain rfl : t = s := h
    have hpack := @pack_finite t m e hm
    split at hpack
    · rw [stored_eq hpack]
      exact hasSign_unpack
    · split at hpack
      · rw [stored_eq hpack]
        exact hasSign_unpack
      · rw [stored_eq hpack]
        exact hasSign_unpack

theorem sign_div (s t : Sign) : s / t = s * t := by cases s <;> cases t <;> rfl

theorem positive_mul_sign (s : Sign) : .positive * s = s := by cases s <;> rfl

theorem sign_mul_self (s : Sign) : s * s = .positive := by cases s <;> rfl

theorem hasSign_normalize {m : ℤ} (hm : 0 ≤ m) (e : ℤ) :
    HasSign .positive (UnpackedFloat.normalize .binary64 m e .positive) := by
  unfold UnpackedFloat.normalize
  split
  · next h => exact absurd (compare_lt_iff_lt.1 h) (not_lt.2 hm)
  · trivial
  · exact hasSign_round

section Signs

variable {a b : Float} {s t : Sign}

theorem bne_zero_iff : (a != 0) = true ↔ ∀ s, unpacked a ≠ .zero s := by
  have hzero : unpacked 0 = .zero .positive := rfl
  rw [bne, beq_eq, hzero]
  rcases unpacked a with ⟨⟨⟩⟩ | _ | s | ⟨⟨⟩, m, e, hm⟩ <;>
    simp [UnpackedFloat.beq, UnpackedFloat.compare]

theorem hasSign_mul (ha : HasSign s (unpacked a)) (hb : HasSign t (unpacked b)) :
    HasSign (s * t) (unpacked (a * b)) := by
  rw [unpacked_mul]
  refine hasSign_stored ?_
  generalize unpacked a = x at *
  generalize unpacked b = y at *
  rcases x with u | _ | u | ⟨u, m, e, hm⟩ <;> rcases y with v | _ | v | ⟨v, m', e', hm'⟩
  all_goals first
    | exact True.intro
    | cases ha; cases hb; first | rfl | exact hasSign_round

theorem hasSign_mul_self (a : Float) : HasSign .positive (unpacked (a * a)) := by
  obtain ⟨s, hs⟩ := exists_hasSign (unpacked a)
  rw [← sign_mul_self s]
  exact hasSign_mul hs hs

theorem hasSign_div (ha : HasSign s (unpacked a)) (hb : HasSign t (unpacked b))
    (hne : (b != 0) = true) : HasSign (s * t) (unpacked (a / b)) := by
  rw [unpacked_div, ← sign_div]
  rw [bne_zero_iff] at hne
  refine hasSign_stored ?_
  generalize unpacked a = x at *
  generalize unpacked b = y at *
  rcases x with u | _ | u | ⟨u, m, e, hm⟩ <;> rcases y with v | _ | v | ⟨v, m', e', hm'⟩
  all_goals first
    | exact absurd rfl (hne _)
    | exact True.intro
    | cases ha; cases hb; first | rfl | exact hasSign_round

theorem hasSign_add (ha : HasSign .positive (unpacked a)) (hb : HasSign .positive (unpacked b)) :
    HasSign .positive (unpacked (a + b)) := by
  rw [unpacked_add]
  refine hasSign_stored ?_
  generalize unpacked a = x at *
  generalize unpacked b = y at *
  rcases x with u | _ | u | ⟨u, m, e, hm⟩ <;> rcases y with v | _ | v | ⟨v, m', e', hm'⟩
  case finite.finite =>
    cases ha
    cases hb
    exact hasSign_normalize (add_nonneg (Int.natCast_nonneg _) (Int.natCast_nonneg _)) _
  case zero.zero =>
    rw [UnpackedFloat.add]
    split <;> trivial
  all_goals first
    | exact True.intro
    | exact ha
    | exact hb
    | cases ha; cases hb; rfl

/-- No number of positive sign is below one of negative sign; zero is of both signs. -/
theorem not_lt_of_hasSign (ha : HasSign .positive (unpacked a))
    (hb : HasSign .negative (unpacked b)) : ¬ a < b := by
  rw [lt_iff]
  generalize unpacked a = x at *
  generalize unpacked b = y at *
  rcases x with u | _ | u | ⟨u, m, e, hm⟩ <;> rcases y with v | _ | v | ⟨v, m', e', hm'⟩
  all_goals
    try cases ha
    try cases hb
    exact Bool.false_ne_true

theorem not_le_of_hasSign (ha : HasSign .positive (unpacked a))
    (hb : HasSign .negative (unpacked b)) (hne : (a != 0) = true) : ¬ a ≤ b := by
  rw [le_iff]
  rw [bne_zero_iff] at hne
  generalize unpacked a = x at *
  generalize unpacked b = y at *
  rcases x with u | _ | u | ⟨u, m, e, hm⟩ <;> rcases y with v | _ | v | ⟨v, m', e', hm'⟩
  all_goals first
    | exact absurd rfl (hne _)
    | try cases ha
      try cases hb
      exact Bool.false_ne_true

end Signs

theorem hasSign_of_pos {a : Float} (h : 0 < a) : HasSign .positive (unpacked a) := by
  rcases cases_of_pos h with ha | ⟨m, e, hm, ha⟩
  · rw [ha]
    rfl
  · rw [ha]
    rfl

theorem bne_zero_of_pos {a : Float} (h : 0 < a) : (a != 0) = true := by
  rw [bne_zero_iff]
  rcases cases_of_pos h with ha | ⟨m, e, hm, ha⟩
  · rw [ha]
    simp
  · rw [ha]
    simp

theorem hasSign_of_not_pos {a : Float} (h : ¬ 0 < a) : HasSign .negative (unpacked a) := by
  rw [lt_iff] at h
  generalize unpacked a = x at *
  rcases x with ⟨⟨⟩⟩ | _ | s | ⟨⟨⟩, m, e, hm⟩
  all_goals first
    | exact True.intro
    | rfl
    | exact absurd rfl h

/-! ### Zeros and NaN -/

/-- What becomes of a number that is divided by an infinity or by NaN. -/
def Vanishes : UnpackedFloat → Prop
  | .zero _ => True
  | .notANumber => True
  | .infinity _ => False
  | .finite _ _ _ _ => False

theorem Vanishes.hasSign {x : UnpackedFloat} (h : Vanishes x) (s : Sign) : HasSign s x := by
  rcases x with _ | _ | _ | _
  · cases h
  · trivial
  · trivial
  · cases h

theorem Vanishes.stored {x : UnpackedFloat} (h : Vanishes x) : Vanishes (stored x) := by
  rcases x with _ | _ | _ | _
  · cases h
  · trivial
  · rw [stored_zero]
    trivial
  · cases h

section Vanishing

variable {a b : Float}

theorem vanishes_add (ha : Vanishes (unpacked a)) (hb : Vanishes (unpacked b)) :
    Vanishes (unpacked (a + b)) := by
  rw [unpacked_add]
  refine Vanishes.stored ?_
  generalize unpacked a = x at *
  generalize unpacked b = y at *
  rcases x with _ | _ | _ | _ <;> rcases y with _ | _ | _ | _
  case zero.zero =>
    rw [UnpackedFloat.add]
    split <;> trivial
  all_goals first
    | exact True.intro
    | exact False.elim ha
    | exact False.elim hb

theorem vanishes_mul (a : Float) (hb : Vanishes (unpacked b)) : Vanishes (unpacked (a * b)) := by
  rw [unpacked_mul]
  refine Vanishes.stored ?_
  generalize unpacked a = x at *
  generalize unpacked b = y at *
  rcases x with _ | _ | _ | _ <;> rcases y with _ | _ | _ | _
  all_goals first
    | exact True.intro
    | exact False.elim hb

theorem vanishes_div (ha : Vanishes (unpacked a)) (b : Float) : Vanishes (unpacked (a / b)) := by
  rw [unpacked_div]
  refine Vanishes.stored ?_
  generalize unpacked a = x at *
  generalize unpacked b = y at *
  rcases x with _ | _ | _ | _ <;> rcases y with _ | _ | _ | _
  all_goals first
    | exact True.intro
    | exact False.elim ha

theorem vanishes_abs (ha : Vanishes (unpacked a)) : Vanishes (unpacked (Scalar.abs a)) := by
  rw [unpacked_abs]
  refine Vanishes.stored ?_
  generalize unpacked a = x at *
  rcases x with _ | _ | _ | _
  all_goals first
    | exact True.intro
    | exact False.elim ha

theorem vanishes_div_of_infinite (a : Float) (hb : Scalar.isFinite b = false) :
    Vanishes (unpacked (a / b)) := by
  rw [isFinite_iff] at hb
  rw [unpacked_div]
  refine Vanishes.stored ?_
  generalize unpacked a = x at *
  generalize unpacked b = y at *
  rcases x with _ | _ | _ | _ <;> rcases y with _ | _ | _ | _
  all_goals first
    | exact True.intro
    | cases hb

end Vanishing

/-! ### Infinities -/

section Infinities

variable {a b : Float}

theorem isFinite_stored_eq_false {x : UnpackedFloat} (h : x.isFinite = false) :
    (stored x).isFinite = false := by
  rcases x with _ | _ | _ | _
  · rwa [stored_infinity]
  · exact h
  · cases h
  · cases h

theorem isFinite_add_eq_false (h : Scalar.isFinite a = false ∨ Scalar.isFinite b = false) :
    Scalar.isFinite (a + b) = false := by
  rw [isFinite_iff, isFinite_iff] at h
  rw [isFinite_iff, unpacked_add]
  refine isFinite_stored_eq_false ?_
  generalize unpacked a = x at *
  generalize unpacked b = y at *
  rcases x with _ | _ | _ | _ <;> rcases y with _ | _ | _ | _
  case infinity.infinity =>
    rw [UnpackedFloat.add]
    split <;> rfl
  all_goals first
    | rfl
    | rcases h with h | h <;> cases h

theorem isFinite_mul_eq_false (h : Scalar.isFinite a = false ∨ Scalar.isFinite b = false) :
    Scalar.isFinite (a * b) = false := by
  rw [isFinite_iff, isFinite_iff] at h
  rw [isFinite_iff, unpacked_mul]
  refine isFinite_stored_eq_false ?_
  generalize unpacked a = x at *
  generalize unpacked b = y at *
  rcases x with _ | _ | _ | _ <;> rcases y with _ | _ | _ | _
  all_goals first
    | rfl
    | rcases h with h | h <;> cases h

theorem isFinite_div_eq_false (h : Scalar.isFinite a = false) (b : Float) :
    Scalar.isFinite (a / b) = false := by
  rw [isFinite_iff] at h
  rw [isFinite_iff, unpacked_div]
  refine isFinite_stored_eq_false ?_
  generalize unpacked a = x at *
  generalize unpacked b = y at *
  rcases x with _ | _ | _ | _ <;> rcases y with _ | _ | _ | _
  all_goals first
    | rfl
    | cases h

theorem isFinite_sqrt_eq_false (h : Scalar.isFinite a = false) :
    Scalar.isFinite (Scalar.sqrt a) = false := by
  rw [isFinite_iff] at h
  rw [isFinite_iff, unpacked_sqrt]
  refine isFinite_stored_eq_false ?_
  generalize unpacked a = x at *
  rcases x with ⟨⟨⟩⟩ | _ | _ | _
  all_goals first
    | rfl
    | cases h

theorem unpacked_abs_of_infinite (h : Scalar.isFinite a = false) :
    unpacked (Scalar.abs a) = .infinity .positive ∨ unpacked (Scalar.abs a) = .notANumber := by
  rw [isFinite_iff] at h
  rw [unpacked_abs]
  generalize unpacked a = x at *
  rcases x with _ | _ | _ | _
  · exact .inl (stored_infinity _)
  · exact .inr rfl
  · cases h
  · cases h

theorem isFinite_abs_eq_false (h : Scalar.isFinite a = false) :
    Scalar.isFinite (Scalar.abs a) = false := by
  rw [isFinite_iff]
  rcases unpacked_abs_of_infinite h with habs | habs
  · rw [habs]
    rfl
  · rw [habs]
    rfl

theorem not_lt_of_infinity (ha : unpacked a = .infinity .positive) (b : Float) : ¬ a < b := by
  rw [lt_iff, ha]
  rcases unpacked b with ⟨⟨⟩⟩ | _ | _ | _
  all_goals exact Bool.false_ne_true

theorem not_lt_of_notANumber (b : Float) (ha : unpacked a = .notANumber) : ¬ b < a := by
  rw [lt_iff, ha]
  rcases unpacked b with ⟨⟨⟩⟩ | _ | _ | ⟨⟨⟩, _⟩
  all_goals exact Bool.false_ne_true

theorem not_abs_le (ha : Scalar.isFinite a = false) (hb : Scalar.isFinite b = true) :
    ¬ Scalar.abs a ≤ b := by
  rw [isFinite_iff] at hb
  rw [le_iff]
  generalize unpacked b = y at *
  rcases unpacked_abs_of_infinite ha with habs | habs
  all_goals
    rw [habs]
    rcases y with _ | _ | _ | _
    all_goals first
      | exact Bool.false_ne_true
      | cases hb

theorem not_abs_lt (ha : Scalar.isFinite a = false) (b : Float) : ¬ Scalar.abs a < b := by
  rcases unpacked_abs_of_infinite ha with habs | habs
  · exact not_lt_of_infinity habs b
  · rw [lt_iff, habs]
    exact Bool.false_ne_true

theorem bne_zero_of_infinite (h : Scalar.isFinite a = false) : (a != 0) = true := by
  rw [bne_zero_iff]
  intro s hs
  rw [isFinite_iff, hs] at h
  cases h

theorem hasSign_one_sub (ha : HasSign .positive (unpacked a)) (h : Scalar.isFinite a = false) :
    HasSign .negative (unpacked (1 - a)) := by
  rw [isFinite_iff] at h
  rw [unpacked_sub, unpacked_one]
  refine hasSign_stored ?_
  generalize unpacked a = x at *
  rcases x with _ | _ | _ | _
  · cases ha
    rfl
  · trivial
  · cases h
  · cases h

/-- What vanishes does not change a one, unless it is NaN. -/
theorem one_add_of_vanishes (ha : unpacked a = unpacked 1) (hb : Vanishes (unpacked b)) :
    unpacked (a + b) = unpacked 1 ∨ Scalar.isFinite (a + b) = false := by
  rw [isFinite_iff, unpacked_add, ha, unpacked_one]
  generalize unpacked b = y at *
  rcases y with _ | _ | ⟨⟨⟩⟩ | _
  · cases hb
  · exact .inr rfl
  · exact .inl rfl
  · exact .inl rfl
  · cases hb

end Infinities

end Double

end LeastSquares
