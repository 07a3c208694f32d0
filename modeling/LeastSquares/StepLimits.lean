import LeastSquares.Linear.Basic

/-!
Keeping steps inside the limits. Limits are never transformed away: a step that would cross one is
shortened as a whole, components that push a parameter further into a limit it sits on are dropped,
and a trial value within rounding of a limit is put onto it.
-/

namespace LeastSquares

structure StepLimits (α : Type) (k : Nat) where
  lower : Vector (Option α) k
  upper : Vector (Option α) k
  maxStep : Vector (Option α) k

namespace StepLimits

variable {α : Type} [Scalar α] {k : Nat} (limits : StepLimits α k)

def atLower (c : Fin k) (x : α) : Bool := limits.lower[c].any (x ≤ ·)

def atUpper (c : Fin k) (x : α) : Bool := limits.upper[c].any (· ≤ x)

/-- A component of a step, zero where it leads out of the interval from a limit the parameter is
on. -/
def dropOutward (x step : Vector α k) (c : Fin k) : α :=
  let s := if limits.atLower c x[c] ∧ step[c] < 0 then 0 else step[c]
  if limits.atUpper c x[c] ∧ 0 < s then 0 else s

/-- The part of a step, at most `part`, that does not take the value `x` below a limit. -/
def partAbove (lower : Option α) (x step part : α) : α :=
  match lower with
  | some l => if x + step < l then Scalar.min part ((l - x) / step) else part
  | none => part

def partBelow (upper : Option α) (x step part : α) : α :=
  match upper with
  | some u => if u < x + step then Scalar.min part ((u - x) / step) else part
  | none => part

/-- The part of a step, at most `part`, that keeps component `c` inside its limits. Components that
were negligible to begin with do not count. -/
def partWithin (x step dropped : Vector α k) (part : α) (c : Fin k) : α :=
  if Scalar.epsilon < Scalar.abs step[c] then
    partBelow limits.upper[c] x[c] dropped[c] (partAbove limits.lower[c] x[c] dropped[c] part)
  else part

def capExcess (dropped : Vector α k) (part excess : α) (c : Fin k) : α :=
  match limits.maxStep[c] with
  | some m =>
    if dropped[c] != 0 then Scalar.max excess (Scalar.abs (part * dropped[c] / m)) else excess
  | none => excess

/-- Shortens a step from `x` so that it respects limits and caps. The first result is the factor by
which the components that were not dropped are scaled. -/
def restrict (x step : Vector α k) : α × Vector α k :=
  let dropped := Vector.ofFn (limits.dropOutward x step)
  let part := (List.finRange k).foldl (limits.partWithin x step dropped) 1
  let excess := (List.finRange k).foldl (limits.capExcess dropped part) 1
  let part := if 1 < excess then part / excess else part
  (part, dropped.map (· * part))

/-- The least value within rounding of the upper limit `u`. -/
def upperThreshold (u : α) : α :=
  let sign : α := if 0 ≤ u then 1 else -1
  u * (1 - sign * Scalar.epsilon) - (if u == 0 then Scalar.epsilon else 0)

def lowerThreshold (l : α) : α :=
  let sign : α := if 0 ≤ l then 1 else -1
  l * (1 + sign * Scalar.epsilon) + (if l == 0 then Scalar.epsilon else 0)

/-- Puts a value that has reached the upper limit `u`, or is within rounding of it, onto it. -/
def snapToUpper (u value : α) : α := if upperThreshold u ≤ value then u else value

def snapToLower (l value : α) : α := if value ≤ lowerThreshold l then l else value

/-- Puts a value that is within rounding of a limit onto it; the lower limit comes last. -/
def snapValue (lower upper : Option α) (value : α) : α :=
  let value := upper.elim value (snapToUpper · value)
  lower.elim value (snapToLower · value)

def snap (trial : Vector α k) : Vector α k :=
  Vector.ofFn fun c => snapValue limits.lower[c] limits.upper[c] trial[c]

end StepLimits

end LeastSquares
