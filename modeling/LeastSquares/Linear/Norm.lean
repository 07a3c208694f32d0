import LeastSquares.Linear.Basic

/-!
Euclidean norms. The careful norm neither overflows nor underflows: it sorts the components
into small, intermediate and large magnitudes and sums each group on its own scale, so that the
norm is accurate even where the sum of squares is not representable. The fast norm is the square
root of that sum.
-/

namespace LeastSquares

inductive NormMethod where
  | careful
  | fast
  deriving DecidableEq, Repr

namespace Norm

variable {α : Type} [Scalar α] {n : Nat}

def smallest : α := 3.834e-20

/-- Components of at least this magnitude, divided by their number, are large. -/
def largest : α := 1.304e19

/-- The sums of squares of the three groups: `large` in units of `largeMax²`, `small` in units of
`smallMax²`, the intermediate one in units of one. -/
structure Sums (α : Type) where
  large : α
  middle : α
  small : α
  largeMax : α
  smallMax : α
  deriving Repr

namespace Sums

def empty : Sums α := ⟨0, 0, 0, 0, 0⟩

/-- Accounts for one more component; a new maximum of its group becomes the group's unit. -/
def add (limit : α) (s : Sums α) (v : α) : Sums α :=
  let x := Scalar.abs v
  if smallest < x ∧ x < limit then { s with middle := s.middle + x * x }
  else if x ≤ smallest then
    if s.smallMax < x then
      { s with small := 1 + s.small * (s.smallMax / x) * (s.smallMax / x), smallMax := x }
    else if x != 0 then
      { s with small := s.small + (x / s.smallMax) * (x / s.smallMax) }
    else s
  else if s.largeMax < x then
    { s with large := 1 + s.large * (s.largeMax / x) * (s.largeMax / x), largeMax := x }
  else { s with large := s.large + (x / s.largeMax) * (x / s.largeMax) }

/-- The norm of the components accounted for. Small components are dropped beside a large one. -/
def norm (s : Sums α) : α :=
  if s.large != 0 then
    s.largeMax * Scalar.sqrt (s.large + (s.middle / s.largeMax) / s.largeMax)
  else if s.middle != 0 then
    if s.smallMax ≤ s.middle then
      Scalar.sqrt (s.middle * (1 + (s.smallMax / s.middle) * (s.smallMax * s.small)))
    else Scalar.sqrt (s.smallMax * ((s.middle / s.smallMax) + (s.smallMax * s.small)))
  else s.smallMax * Scalar.sqrt s.small

end Sums

def sums (v : List α) : Sums α := v.foldl (Sums.add (largest / Scalar.ofNat v.length)) Sums.empty

def careful (v : List α) : α := if v.isEmpty then 0 else (sums v).norm

def fast (v : List α) : α := Scalar.sqrt (Scalar.sum (v.map fun x => x * x))

end Norm

/-- An arithmetic together with the norm that columns and steps are measured with. Doubles are
measured with the careful norm; exact arithmetic has the Euclidean norm itself. -/
class NormedScalar (α : Type) extends Scalar α where
  norm : List α → α

instance : NormedScalar Float where norm := Norm.careful

def NormMethod.norm {α : Type} [NormedScalar α] : NormMethod → List α → α
  | .careful => NormedScalar.norm
  | .fast => Norm.fast

end LeastSquares
