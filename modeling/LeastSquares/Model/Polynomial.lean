import LeastSquares.Model.Basic

/-!
Polynomials `c₀ + c₁ x + ⋯ + c_d x^d`, fitted by their coefficients.
-/

namespace LeastSquares

structure Polynomial where
  degree : Nat
  deriving DecidableEq, Repr

namespace Polynomial

variable {α : Type} (poly : Polynomial)

def coefficientCount : Nat := poly.degree + 1

/-- The value at `x`, by Horner's rule from the highest coefficient down. -/
def value [Zero α] [Add α] [Mul α] (coefficients : List α) (x : α) : α :=
  coefficients.foldr (fun c acc => acc * x + c) 0

def powers [One α] [Mul α] (x : α) : (n : Nat) → Vector α n
  | 0 => #v[]
  | n + 1 => (powers x n).push ((powers x n).back?.elim 1 (· * x))

def checkCount (n : Nat) : Except (FitError α) Unit :=
  if n = poly.coefficientCount then .ok () else .error (.sizes (.coefficients poly.degree n))

def model [Zero α] [One α] [Add α] [Mul α] : Model α where
  eval {n _} p xs := do
    poly.checkCount n
    return xs.map (value p.toList)
  hasJacobian := true
  jacobian {n _} _ xs := do
    poly.checkCount n
    return xs.map (powers · n)

/-- The problem of fitting the polynomial, with coefficients named `c0`, `c1`, … that start at
zero. -/
def problem? [Scalar α] (x y invSigma : Array α) : Except (FitError α) (Problem α) := do
  let problem ← Problem.ofModel? poly.coefficientCount poly.model x y invSigma
  let parameters := (Array.range poly.coefficientCount).map fun k =>
    ((Parameter.ofValue 0).setName s!"c{k}" : Parameter α)
  return { problem with parameters := ⟨parameters⟩ }

end Polynomial

end LeastSquares
