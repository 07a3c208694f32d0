import LeastSquares.Search.Linearization

/-!
One trial step: from the damped step of the linear model, kept inside the limits, to its acceptance
or rejection.
-/

namespace LeastSquares

/-- Where the trial steps of an iteration stand. A rejected step changes the region and the matrix
the steps are computed in, and nothing else. -/
structure Progress (α : Type) (n m k : Nat) where
  point : Iterate α n m k
  region : TrustRegion α
  workspace : Mat α k k

structure Move (α : Type) (k : Nat) where
  /-- The factor by which the damped step was shortened. -/
  part : α
  step : Vector α k
  target : Vector α k

/-- A move to try: the damped step it comes from, its scaled length, and the trust region it is
judged in. -/
structure Proposal (α : Type) (k : Nat) where
  damped : DampedStep α k
  move : Move α k
  length : α
  region : TrustRegion α

/-- What a linear model says about a move, relative to the sum of squares. -/
structure Prediction (α : Type) where
  reduction : α
  slope : α

structure Verdict (α : Type) where
  norm : α
  /-- The factor by which the step was shortened, as the prediction takes it. -/
  part : α
  actual : α
  predicted : Prediction α
  ratio : α
  region : TrustRegion α

structure TrialResult (α : Type) (n m k : Nat) where
  progress : Progress α n m k
  accepted : Bool
  status : Status

/-- The trust region a trial step is judged in: its damping is that of the step, and in the first
iteration the radius is no more than the length of the step. -/
def Progress.regionFor {α : Type} [Scalar α] {n m k : Nat} (p : Progress α n m k)
    (damping length : α) : TrustRegion α :=
  let region := { p.region with damping }
  if p.point.iterations = 0 then region.limitTo length else region

namespace Verdict

variable {α : Type} [Scalar α] (v : Verdict α)

def acceptRatio : α := 1e-4

def accepted : Bool := acceptRatio ≤ v.ratio

def statistics (norm cosine : α) : StepStatistics α :=
  ⟨v.actual, v.predicted.reduction, v.ratio, v.region.radius, norm, cosine⟩

/-- Logs the step, and the iteration that it ends if it is accepted. -/
def logTrial {n m k : Nat} (next : Iterate α n m k) (cosine : α) : Run α n Unit := do
  Run.log (.trial v.norm v.ratio v.part v.region.radius v.region.damping)
  if v.accepted then
    Run.log (.accepted next.iterations (next.norm * next.norm) cosine (← Run.evaluations))

end Verdict

namespace Setting

variable {α : Type} [NormedScalar α] {n m k : Nat} (s : Setting α n m k)

def normOf {l : Nat} (v : Vector α l) : α := s.options.norm.norm v.toList

def scaledNorm (scale v : Vector α k) : α := s.normOf (scaleBy scale v)

/-- The move that a step `-x` of the linear model becomes within the limits. -/
def move (free x : Vector α k) : Move α k :=
  let (part, step) := s.limits.restrict free (x.map (- ·))
  { part, step, target := s.limits.snap (Vector.zipWith (· + ·) free step) }

def propose (l : Linearization α m k) (scale : Vector α k) (p : Progress α n m k) :
    Proposal α k :=
  let damped := (l.stepModel scale).dampedStep p.workspace p.region.radius p.region.damping
  let move := s.move p.point.free damped.x
  let length := s.scaledNorm scale move.step
  { damped, move, length, region := p.regionFor damped.damping length }

/-- What the model predicts for the part `part` of its damped step, which has the scaled length
`length` and the image `image` under the Jacobian. -/
def predict (norm damping part length : α) (image : Vector α k) : Prediction α :=
  let a := s.normOf image / norm
  let b := Scalar.sqrt damping * length / norm
  { reduction := a * a * (2.0 / part - 1) + 2.0 * b * b / part
    slope := -(a * a + b * b) / part }

def judge (l : Linearization α m k) (point : Iterate α n m k) (t : Proposal α k)
    (residuals : Vector α m) : Verdict α :=
  let norm := s.normOf residuals
  let part := Scalar.max t.move.part Scalar.minNormal
  let actual := TrustRegion.actualReduction point.norm norm
  let predicted :=
    s.predict point.norm t.region.damping part t.length (l.image t.damped.workspace t.move.step)
  let ratio := TrustRegion.gainRatio actual predicted.reduction
  { norm, part, actual, predicted, ratio
    region := t.region.update ⟨ratio, actual, predicted.slope, point.norm, norm, t.length⟩ }

def accept (p : Iterate α n m k) (scale target : Vector α k) (residuals : Vector α m) :
    Iterate α n m k :=
  { x := s.applyTies (s.withFree p.x target)
    free := target
    residuals
    norm := s.normOf residuals
    scaledNorm := s.scaledNorm scale target
    iterations := p.iterations + 1 }

/-- The point after a step, which moved only if the step was accepted. -/
def pointAfter (p : Iterate α n m k) (scale : Vector α k) (t : Proposal α k)
    (residuals : Vector α m) (v : Verdict α) : Iterate α n m k :=
  if v.accepted then s.accept p scale t.move.target residuals else p

def tryStep (l : Linearization α m k) (scale : Vector α k) (cosine : α) (p : Progress α n m k) :
    Run α n (TrialResult α n m k) := do
  let t := s.propose l scale p
  Run.require (t.move.target.all Scalar.isFinite)
    (.nonFiniteParameters p.point.free.toList t.move.target.toList)
  let residuals ← s.residualsAt .trial (s.withFree p.point.x t.move.target)
  let v := s.judge l p.point t residuals
  let next := s.pointAfter p.point scale t residuals v
  v.logTrial next cosine
  return {
    progress := ⟨next, v.region, t.damped.workspace⟩
    accepted := v.accepted
    status :=
      s.options.stepStatus (v.statistics next.scaledNorm cosine) next.iterations
        (← Run.evaluations) }

end Setting

end LeastSquares
