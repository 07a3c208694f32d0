import LeastSquares.Scalar

/-!
The closed interval a parameter must stay in. An open side has no limit, which is the same as an
infinite one; a limit that is there is a number of the scalar type, finite or not.
-/

namespace LeastSquares

structure Bounds (α : Type) where
  lower : Option α
  upper : Option α
  deriving Repr

inductive BoundsError (α : Type) where
  | reversed (lower upper : Option α)
  | notANumber
  | outside (value : α) (lower upper : Option α)
  deriving Repr

namespace Bounds

variable {α : Type} [Scalar α]

def unbounded : Bounds α := ⟨none, none⟩

/-- The lower limit an end of an interval stands for: none for minus infinity. -/
def lowerLimit (x : α) : Option α := if !Scalar.isFinite x ∧ x < 0 then none else some x

def upperLimit (x : α) : Option α := if !Scalar.isFinite x ∧ 0 < x then none else some x

/-- The interval above `lower`, which is not checked. -/
def above (lower : α) : Bounds α := ⟨lowerLimit lower, none⟩

def make (lower upper : Option α) : Except (BoundsError α) (Bounds α) :=
  if !(lower.all Scalar.isNumber && upper.all Scalar.isNumber) then .error .notANumber
  else
    match lower, upper with
    | some l, some u => if u < l then .error (.reversed lower upper) else .ok ⟨lower, upper⟩
    | _, _ => .ok ⟨lower, upper⟩

def between (lower upper : α) : Except (BoundsError α) (Bounds α) :=
  make (lowerLimit lower) (upperLimit upper)

variable (b : Bounds α)

def finiteLower : Option α := b.lower.filter Scalar.isFinite

def finiteUpper : Option α := b.upper.filter Scalar.isFinite

def contains (value : α) : Bool :=
  Scalar.isNumber value && b.lower.all (fun l => l ≤ value) && b.upper.all (fun u => value ≤ u)

def check (value : α) : Except (BoundsError α) Unit :=
  if b.contains value then .ok () else .error (.outside value b.lower b.upper)

def isDegenerate : Bool :=
  match b.lower, b.upper with
  | some l, some u => l == u
  | some l, none => !Scalar.isFinite l && 0 < l
  | none, some u => !Scalar.isFinite u && u < 0
  | none, none => false

end Bounds

end LeastSquares
