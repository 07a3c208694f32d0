import LeastSquares.Parameter.Bounds

/-!
One unknown of a fit: its starting value, its limits, whether it is fixed or tied to the others, and
how derivatives are taken in its direction.
-/

namespace LeastSquares

inductive Side where
  /-- Ahead of the point, but behind it next to an upper limit. -/
  | auto
  | positive
  | negative
  | both
  deriving DecidableEq, Repr

/-- A function that gives a parameter its value from the vector of all parameters. -/
structure Tie (α : Type) where
  value : {n : Nat} → Vector α n → α

structure Parameter (α : Type) where
  name : Option String := none
  value : Option α := none
  /-- Whether the value is held; limits that leave only one value hold it as well. -/
  fixed : Bool := false
  bounds : Bounds α := ⟨none, none⟩
  tie : Option (Tie α) := none
  /-- The length of difference steps; chosen from the value when absent. -/
  step : Option α := none
  /-- The largest change in one iteration. -/
  maxStep : Option α := none
  /-- Whether `step` is a fraction of the value. -/
  relativeStep : Bool := false
  side : Side := .auto

inductive ParameterError (α : Type) where
  | bounds (cause : BoundsError α)
  | outsideBounds (index : Nat) (cause : BoundsError α)
  | noFiniteValue (index : Nat) (value : Option α)
  | invalidStep (step : α)
  | invalidMaxStep (maxStep : α)
  | notFound (name : String)
  deriving Repr

namespace Parameter

variable {α : Type} [Scalar α]

def ofValue (value : α) : Parameter α := { value := some value }

variable (p : Parameter α)

def isFixed : Bool := p.fixed || p.bounds.isDegenerate

def isTied : Bool := p.tie.isSome

def isFree : Bool := !p.isFixed && !p.isTied

def setValue (value : α) (fixed : Bool) : Parameter α := { p with value := some value, fixed }

def setLimits (lower upper : α) : Except (BoundsError α) (Parameter α) :=
  (Bounds.between lower upper).map fun bounds => { p with bounds }

/-- Sets the difference step and the largest change in one iteration. A step of zero asks for one
chosen from the value, and an infinite change is no restriction. -/
def setStep (step maxStep : α) (relative : Bool) : Except (ParameterError α) (Parameter α) :=
  if !Scalar.isFinite step || step < 0 then .error (.invalidStep step)
  else if !Scalar.isNumber maxStep || maxStep ≤ 0 then .error (.invalidMaxStep maxStep)
  else .ok { p with
    step := if 0 < step then some step else none
    maxStep := if Scalar.isFinite maxStep then some maxStep else none
    relativeStep := relative }

def setSide (side : Side) : Parameter α := { p with side }

def setTie (tie : Tie α) : Parameter α := { p with tie := some tie }

def clearTie : Parameter α := { p with tie := none }

def setName (name : String) : Parameter α := { p with name := some name }

end Parameter

end LeastSquares
