/-!
The numbers a fit computes with. Every numerical definition of the library is written once,
over a type with the operations of `Scalar`; running a fit uses `Float`, and statements about
exact arithmetic read the same definitions over the reals.

Comparisons are the type's own: with `Float` a comparison with NaN is false, and only `!=` can
tell that a number differs from itself.
-/

namespace LeastSquares

class Scalar (α : Type) extends Zero α, One α, Add α, Sub α, Mul α, Div α, Neg α, LT α, LE α,
    BEq α, OfScientific α where
  [decidableLT : DecidableLT α]
  [decidableLE : DecidableLE α]
  sqrt : α → α
  abs : α → α
  exp : α → α
  tanh : α → α
  /-- The larger operand, the first of two equal ones; NaN gives way to the other operand. -/
  max : α → α → α
  /-- The smaller operand, the first of two equal ones; NaN gives way to the other operand. -/
  min : α → α → α
  isFinite : α → Bool
  ofNat : Nat → α
  /-- The distance from one to the next larger double, `2 ^ -52`. -/
  epsilon : α
  /-- The smallest positive normal double, `2 ^ -1022`. -/
  minNormal : α

attribute [reducible] Scalar.decidableLT Scalar.decidableLE
attribute [instance] Scalar.decidableLT Scalar.decidableLE
-- A type that divides or reads decimals by itself, as the reals do, keeps its own way.
attribute [instance (100)] Scalar.toDiv Scalar.toOfScientific

instance : Scalar Float where
  sqrt := Float.sqrt
  abs := Float.abs
  exp := Float.exp
  tanh := Float.tanh
  max a b := if a < b || a != a then b else a
  min a b := if b < a || a != a then b else a
  isFinite := Float.isFinite
  ofNat := Float.ofNat
  epsilon := 2.220446049250313e-16
  minNormal := 2.2250738585072014e-308

namespace Scalar

variable {α : Type} [Scalar α]

/-- Whether `x` is a number: only NaN differs from itself. -/
def isNumber (x : α) : Bool := x == x

/-- The sum from left to right that starts with the first term. It differs from `sumFromZero`
only in keeping the sign of a sum of negative zeros. -/
def sum : List α → α
  | [] => 0
  | x :: xs => xs.foldl (· + ·) x

/-- The sum from left to right that starts with zero. -/
def sumFromZero (xs : List α) : α := xs.foldl (· + ·) 0

def maximum (init : α) (xs : List α) : α := xs.foldl max init

def minimum (init : α) (xs : List α) : α := xs.foldl min init

end Scalar

end LeastSquares
