import LeastSquares.Linear.Norm
import LeastSquares.Linear.DampedSolve

/-!
The damped step. For the factorization `J·P = Q·R` and a positive diagonal `D`, the step with
damping `c` minimizes `‖J·x - f‖² + c ‖D·x‖²`. `dampedStep` returns the undamped step when that lies
in the trust region, and otherwise looks for the damping whose step has a scaled length `‖D·x‖`
within a tenth of the radius: it keeps a bracket around that damping and corrects it by Newton's
rule, at most nine times.
-/

namespace LeastSquares

/-- A step and the damping that produced it. `workspace` is the matrix the step was computed in,
which still has `R` in its upper triangle. -/
structure DampedStep (α : Type) (n : Nat) where
  damping : α
  x : Vector α n
  workspace : Mat α n n

/-- The linear model a step is computed for, `R` apart: the column exchange, the scaling diagonal
`D` in the order of the parameters, and the head of `Qᵗ·f`. -/
structure StepModel (α : Type) (n : Nat) where
  pivot : Vector (Fin n) n
  scale : Vector α n
  qtf : Vector α n

namespace StepModel

variable {α : Type} [NormedScalar α] {n : Nat} (model : StepModel α n)

def scaledNorm (x : Vector α n) : α := NormedScalar.norm (scaleBy model.scale x).toList

def rank (r : Mat α n n) : Nat := r.diagonal.toList.findIdx (· == 0)

/-- The solution of `R·z = Qᵗf`, with zeros from the first zero on the diagonal on. -/
def solveTriangle (r : Mat α n n) : Vector α n :=
  let start : Vector α n := Vector.ofFn fun j => if j.val < rank r then model.qtf[j] else 0
  ((List.finRange n).filter (·.val < rank r)).reverse.foldl (fun z j =>
    let t := z[j] / r[j][j]
    Vector.ofFn fun i => if i < j then z[i] - r[i][j] * t else if i = j then t else z[i]) start

def undamped (r : Mat α n n) : Vector α n := unpermute model.pivot (model.solveTriangle r)

/-- The vector `Pᵗ D (D·x / ‖D·x‖)`. -/
def direction (x : Vector α n) : Vector α n :=
  let y := scaleBy model.scale x
  let norm := Scalar.max (NormedScalar.norm y.toList) Scalar.minNormal
  Vector.ofFn fun j =>
    let l := model.pivot[j]
    model.scale[l] * (y[l] / norm)

def solveTransposed (r : Mat α n n) (z : Vector α n) : Vector α n :=
  (List.finRange n).foldl (fun w j =>
    let sum := Scalar.sumFromZero ((before j).map fun i => r[i][j] * w[i])
    put w j ((w[j] - sum) / r[j][j])) z

/-- The Newton correction of the damping for a step that is `excess` too long, from the solution `w`
of the transposed triangular system for the step's direction. -/
def correction (excess radius : α) (w : Vector α n) : α :=
  let norm := NormedScalar.norm w.toList
  ((excess / radius) / norm) / norm

/-- A lower bound on the damping, from the step without damping. There is one only at full rank. -/
def lowerBound (r : Mat α n n) (radius excess : α) : α :=
  if rank r = n then
    correction excess radius (solveTransposed r (model.direction (model.undamped r)))
  else 0

def gradientNorm (r : Mat α n n) : α :=
  NormedScalar.norm <| (List.finRange n).map fun j =>
    Scalar.sum ((upTo j).map fun i => r[i][j] * model.qtf[i]) / model.scale[model.pivot[j]]

/-- An upper bound on the damping, positive also where the gradient vanishes. -/
def upperBound (r : Mat α n n) (radius : α) : α :=
  let bound := model.gradientNorm r / radius
  if bound == 0 then Scalar.minNormal / Scalar.min radius 0.1 else bound

structure Search (α : Type) (n : Nat) where
  damping : α
  lower : α
  upper : α
  excess : α
  workspace : Mat α n n

structure Attempt (α : Type) (n : Nat) where
  damping : α
  solution : DampedSolution α n
  excess : α

namespace Attempt

variable {model}

def step (a : Attempt α n) : DampedStep α n := ⟨a.damping, a.solution.x, a.solution.workspace⟩

/-- Whether the step is close enough to the radius, or the damping has come down to a lower bound of
zero with ever shorter steps. -/
def isAcceptable (a : Attempt α n) (s : Search α n) (radius : α) : Bool :=
  Scalar.abs a.excess ≤ 0.1 * radius ∨
    (s.lower == 0 ∧ a.excess ≤ s.excess ∧ s.excess < 0)

/-- The solution of `Sᵗ·w = z` for the `S` that the solve left; a zero on its diagonal counts as the
smallest normal number. -/
def solveTranspose (a : Attempt α n) (z : Vector α n) : Vector α n :=
  (List.finRange n).foldl (fun w j =>
    let d := a.solution.diagonal[j]
    let t := w[j] / (if d == 0 then Scalar.minNormal else d)
    Vector.ofFn fun i =>
      if j < i then w[i] - a.solution.workspace[i][j] * t else if i = j then t else w[i]) z

end Attempt

namespace Search

/-- The damping that is tried: zero is replaced by a small part of the upper bound. -/
def candidate (s : Search α n) : α :=
  if s.damping == 0 then Scalar.max Scalar.minNormal (0.001 * s.upper) else s.damping

def attempt (s : Search α n) (radius : α) : Attempt α n :=
  let root := Scalar.sqrt s.candidate
  let solution := dampedSolve s.workspace model.pivot (model.scale.map fun d => root * d) model.qtf
  ⟨s.candidate, solution, model.scaledNorm solution.x - radius⟩

def advance (s : Search α n) (a : Attempt α n) (radius : α) : Search α n :=
  let shift := correction a.excess radius (a.solveTranspose (model.direction a.solution.x))
  let lower := if 0 < a.excess then Scalar.max s.lower a.damping else s.lower
  { damping := Scalar.max lower (a.damping + shift)
    lower
    upper := if a.excess < 0 then Scalar.min s.upper a.damping else s.upper
    excess := a.excess
    workspace := a.solution.workspace }

def run (radius : α) : (corrections : Nat) → Search α n → DampedStep α n
  | 0, s => (s.attempt model radius).step
  | corrections + 1, s =>
    let a := s.attempt model radius
    if a.isAcceptable s radius then a.step
    else run radius corrections (s.advance model a radius)

end Search

def startSearch (r : Mat α n n) (radius damping excess : α) : Search α n :=
  let lower := model.lowerBound r radius excess
  let upper := model.upperBound r radius
  let clamped := Scalar.min (Scalar.max damping lower) upper
  { damping :=
      if clamped == 0 then model.gradientNorm r / model.scaledNorm (model.undamped r) else clamped
    lower, upper, excess
    workspace := r }

def maxCorrections : Nat := 9

/-- The step for a trust region: `r` holds `R` in its upper triangle, and `damping` is a first guess
at the damping. -/
def dampedStep (r : Mat α n n) (radius damping : α) : DampedStep α n :=
  let x := model.undamped r
  let excess := model.scaledNorm x - radius
  if excess ≤ 0.1 * radius then ⟨0, x, r⟩
  else (model.startSearch r radius damping excess).run model radius maxCorrections

end StepModel

end LeastSquares
