import LeastSquares.Proofs.Reals

/-!
Exact arithmetic with infinities. The real numbers are not the whole of what a program computes with
that divides by zero on purpose, as an infinite start of a search for the least number. Here sums,
products and quotients of numbers are those of the reals, and the other results are the ones that
arithmetic with infinities has, down to the undefined one that compares with nothing. Zero has no
sign, so a quotient by zero has the sign of its numerator.
-/

namespace LeastSquares

/-- A real number, an infinity, or the result of an operation that has none. -/
inductive Extended where
  | real (x : ℝ)
  | top
  | bottom
  | undefined

namespace Extended

noncomputable section

/-- The infinity with the sign of a number; zero gives none. -/
def infinity (sign : ℝ) : Extended :=
  if 0 < sign then top else if sign < 0 then bottom else undefined

/-- A number with the sign of an operand; an undefined one counts as zero. -/
def signum : Extended → ℝ
  | real x => x
  | top => 1
  | bottom => -1
  | undefined => 0

def neg : Extended → Extended
  | real x => real (-x)
  | top => bottom
  | bottom => top
  | undefined => undefined

def add : Extended → Extended → Extended
  | real x, real y => real (x + y)
  | real _, b => b
  | a, real _ => a
  | top, top => top
  | bottom, bottom => bottom
  | _, _ => undefined

def mul : Extended → Extended → Extended
  | real x, real y => real (x * y)
  | a, b => infinity (a.signum * b.signum)

def div : Extended → Extended → Extended
  | real x, real y => if y = 0 then infinity x else real (x / y)
  | real _, top | real _, bottom => real 0
  | a, real y => if y < 0 then a.neg else a
  | _, _ => undefined

def Less : Extended → Extended → Prop
  | real x, real y => x < y
  | real _, top | bottom, real _ | bottom, top => True
  | _, _ => False

def Same : Extended → Extended → Prop
  | real x, real y => x = y
  | top, top | bottom, bottom => True
  | _, _ => False

def sqrt : Extended → Extended
  | real x => if x < 0 then undefined else real √x
  | top => top
  | _ => undefined

def abs : Extended → Extended
  | real x => real |x|
  | undefined => undefined
  | _ => top

def exp : Extended → Extended
  | real x => real (Real.exp x)
  | top => top
  | bottom => real 0
  | undefined => undefined

def tanh : Extended → Extended
  | real x => real (Real.tanh x)
  | top => real 1
  | bottom => real (-1)
  | undefined => undefined

def isFinite : Extended → Bool
  | real _ => true
  | _ => false

instance (a b : Extended) : Decidable (Less a b) := Classical.propDecidable _

instance (a b : Extended) : Decidable (Same a b) := Classical.propDecidable _

instance : Scalar Extended where
  zero := real 0
  one := real 1
  add := add
  sub a b := add a b.neg
  mul := mul
  div := div
  neg := neg
  lt := Less
  le a b := Less a b ∨ Same a b
  beq a b := decide (Same a b)
  ofScientific mantissa sign exponent := real (OfScientific.ofScientific mantissa sign exponent)
  decidableLT a b := inferInstanceAs (Decidable (Less a b))
  decidableLE a b := inferInstanceAs (Decidable (Less a b ∨ Same a b))
  sqrt := sqrt
  abs := abs
  exp := exp
  tanh := tanh
  max a b := if Less a b ∨ ¬ Same a a then b else a
  min a b := if Less b a ∨ ¬ Same a a then b else a
  isFinite := isFinite
  ofNat n := real n
  epsilon := real Scalar.epsilon
  minNormal := real Scalar.minNormal

end

/-! ### Numbers among themselves -/

variable {x y : ℝ}

@[simp] theorem real_add (x y : ℝ) : real x + real y = real (x + y) := rfl

@[simp] theorem real_mul (x y : ℝ) : real x * real y = real (x * y) := rfl

@[simp] theorem real_sub (x y : ℝ) : real x - real y = real (x - y) :=
  congrArg real (sub_eq_add_neg x y).symm

theorem real_div (h : y ≠ 0) : real x / real y = real (x / y) := if_neg h

theorem one_div_zero : (1 / 0 : Extended) = top :=
  (if_pos rfl).trans (if_pos one_pos)

theorem neg_one_div_zero : (-1 / 0 : Extended) = bottom :=
  (if_pos rfl).trans ((if_neg (by norm_num)).trans (if_pos (by norm_num)))

@[simp] theorem real_lt : real x < real y ↔ x < y := Iff.rfl

@[simp] theorem real_le : real x ≤ real y ↔ x ≤ y := le_iff_lt_or_eq.symm

@[simp] theorem isNumber_real (x : ℝ) : Scalar.isNumber (real x) = true :=
  decide_eq_true (p := Same (real x) (real x)) rfl

@[simp] theorem max_real (x y : ℝ) : Scalar.max (real x) (real y) = real (max x y) := by
  change (if x < y ∨ ¬ x = x then real y else real x) = _
  split_ifs with h
  · rw [max_eq_right (h.resolve_right (not_not.2 rfl)).le]
  · rw [max_eq_left (not_lt.1 fun hlt => h (.inl hlt))]

@[simp] theorem min_real (x y : ℝ) : Scalar.min (real x) (real y) = real (min x y) := by
  change (if y < x ∨ ¬ x = x then real y else real x) = _
  split_ifs with h
  · rw [min_eq_right (h.resolve_right (not_not.2 rfl)).le]
  · rw [min_eq_left (not_lt.1 fun hlt => h (.inl hlt))]

theorem maximum_map_real (x : ℝ) (xs : List ℝ) :
    Scalar.maximum (real x) (xs.map real) = real (Scalar.maximum x xs) := by
  induction xs generalizing x with
  | nil => rfl
  | cons y xs ih =>
      change Scalar.maximum (Scalar.max (real x) (real y)) (xs.map real) = _
      rw [max_real, ih]
      rfl

theorem minimum_map_real (x : ℝ) (xs : List ℝ) :
    Scalar.minimum (real x) (xs.map real) = real (Scalar.minimum x xs) := by
  induction xs generalizing x with
  | nil => rfl
  | cons y xs ih =>
      change Scalar.minimum (Scalar.min (real x) (real y)) (xs.map real) = _
      rw [min_real, ih]
      rfl

end Extended

end LeastSquares
