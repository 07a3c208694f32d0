import LeastSquares.Error
import LeastSquares.Linear.Basic

/-!
The parameters of a fit, by index. The store knows which of them are free, checks starting vectors,
and recomputes the tied ones.
-/

namespace LeastSquares

structure Store (α : Type) where
  parameters : Array (Parameter α)

namespace Store

variable {α : Type} [Scalar α]

def ofSize (n : Nat) : Store α := ⟨Array.replicate n {}⟩

variable (s : Store α)

abbrev size : Nat := s.parameters.size

def get? (index : Nat) : Except (FitError α) (Parameter α) :=
  match s.parameters[index]? with
  | some p => .ok p
  | none => .error (.parameterIndex index s.size)

def get (i : Fin s.size) : Parameter α := s.parameters[i]

/-- Replaces a parameter; an index out of range changes nothing. -/
def put (index : Nat) (p : Parameter α) : Store α := ⟨s.parameters.setIfInBounds index p⟩

def modify? (index : Nat) (change : Parameter α → Except (FitError α) (Parameter α)) :
    Except (FitError α) (Store α) := do
  return s.put index (← change (← s.get? index))

def indexOf? (name : String) : Except (FitError α) Nat :=
  match s.parameters.findIdx? (·.name == some name) with
  | some index => .ok index
  | none => .error (.parameter (.notFound name))

def names : Vector (Option String) s.size := Vector.ofFn fun i => (s.get i).name

def free : Array (Fin s.size) := (Array.finRange s.size).filter fun i => (s.get i).isFree

/-- The starting value of a parameter. A tied one may lack a value, as it gets one from its tie
before the first evaluation. -/
def startingValue (i : Fin s.size) : Except (FitError α) α :=
  match (s.get i).value with
  | some v => .ok v
  | none => if (s.get i).isTied then .ok 0 else .error (.parameter (.noFiniteValue i none))

def values : Except (FitError α) (Vector α s.size) := Vector.ofFnM s.startingValue

/-- Recomputes the tied components in the order of their indices, so that a tie sees the new values
of the ties before it. -/
def applyTies {n : Nat} (x : Vector α n) : Vector α n :=
  s.parameters.zipIdx.foldl (fun x (p, i) =>
    match p.tie with
    | some tie => x.setIfInBounds i (tie.value x)
    | none => x) x

/-- Checks one starting value: unless it is tied it has to be finite and within the limits. -/
def checkValue (i : Fin s.size) (value : α) : Except (FitError α) Unit :=
  let p := s.get i
  if p.isTied then .ok ()
  else if !Scalar.isFinite value then .error (.parameter (.noFiniteValue i (some value)))
  else
    match p.bounds.check value with
    | .ok () => .ok ()
    | .error cause => .error (.parameter (.outsideBounds i cause))

def check (x : Vector α s.size) : Except (FitError α) Unit :=
  (List.finRange s.size).forM fun i => s.checkValue i x[i]

def validate (values : Array α) : Except (FitError α) Unit :=
  if h : values.size = s.size then s.check ⟨values, h⟩
  else .error (.sizes (.parameterValues s.size values.size))

end Store

end LeastSquares
