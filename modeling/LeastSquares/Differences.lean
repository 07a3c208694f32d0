import LeastSquares.Linear.Basic
import LeastSquares.Parameter.Basic

/-!
Jacobians by finite differences, one column for each free parameter. The function that is
differentiated runs in any monad, so that evaluations can be counted and can fail.
-/

namespace LeastSquares

structure DifferenceRule (α : Type) where
  step : Option α
  relative : Bool
  maxStep : Option α
  side : Side
  /-- The finite upper limit of the parameter. -/
  upper : Option α

variable {α : Type} [Scalar α]

def Parameter.differenceRule (p : Parameter α) : DifferenceRule α where
  step := p.step
  relative := p.relativeStep
  maxStep := p.maxStep
  side := p.side
  upper := p.bounds.finiteUpper

namespace DifferenceRule

variable (rule : DifferenceRule α)

/-- The length of the step at `x`: the one configured, or the part `scale` of `x`; `scale` itself
where this vanishes; and at most the cap. -/
def stepLength (x scale : α) : α :=
  let h :=
    match rule.step with
    | some s => if rule.relative then Scalar.abs (s * x) else s
    | none => scale * Scalar.abs x
  let h := if h == 0 then scale else h
  match rule.maxStep with
  | some m => Scalar.min h m
  | none => h

/-- The step at `x`. It leads back on the negative side, and where a step ahead would pass the upper
limit. -/
def signedStep (x scale : α) : α :=
  let h := rule.stepLength x scale
  if rule.side = .negative ∨ rule.upper.any (fun u => u - h < x) then -h else h

end DifferenceRule

variable {M : Type → Type} [Monad M] {n m k : Nat}

/-- The column of the Jacobian of `eval` at `x` that belongs to parameter `j`; `fx` is the value of
`eval` at `x`. The points of evaluation are written into a scratch vector, which holds `x` before and
after. -/
def probeColumn (eval : Vector α n → M (Vector α m)) (x : Vector α n) (fx : Vector α m)
    (j : Fin n) (rule : DifferenceRule α) (scale : α) : StateT (Vector α n) M (Vector α m) := do
  let h := rule.signedStep x[j] scale
  modify (put · j (x[j] + h))
  let ahead ← eval (← get)
  if rule.side = .both then
    modify (put · j (x[j] - h))
    let behind ← eval (← get)
    modify (put · j x[j])
    return Vector.zipWith (fun a b => (a - b) / (2.0 * h)) ahead behind
  else
    modify (put · j x[j])
    return Vector.zipWith (fun a f => (a - f) / h) ahead fx

def differenceJacobian (eval : Vector α n → M (Vector α m)) (x : Vector α n) (fx : Vector α m)
    (free : Vector (Fin n) k) (rules : Vector (DifferenceRule α) k) (scale : α) :
    M (Mat α m k) := do
  let probes : StateT (Vector α n) M (Vector (Vector α m) k) :=
    Vector.ofFnM fun c => probeColumn eval x fx free[c] rules[c] scale
  let (columns, _) ← probes.run x
  return Mat.ofColumns columns

end LeastSquares
