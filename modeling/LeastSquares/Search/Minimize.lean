import LeastSquares.Search.Trial
import LeastSquares.Solution

/-!
The search for a minimum of the sum of squares. Each iteration linearizes the residuals at the
current point, tests the gradient, and tries steps until one is accepted; the search ends with the
first status that is not empty.
-/

namespace LeastSquares

/-- Where an iteration starts: the point, and the scale and the trust region of the iteration
before. -/
structure Checkpoint (α : Type) (n m k : Nat) where
  scale : Vector α k
  region : TrustRegion α
  point : Iterate α n m k

/-- How an iteration, or the search, ends: with the last linear model, the matrix that its steps
left, and the reasons to stop. -/
structure Finish (α : Type) (n m k : Nat) where
  point : Iterate α n m k
  model : Linearization α m k
  workspace : Mat α k k
  status : Status

namespace Setting

variable {α : Type} [NormedScalar α] {n m k : Nat} (s : Setting α n m k)

def chosenScale : Option (Vector α k) :=
  s.options.scale.map fun d => s.free.map fun j => d.getD j.val 1

/-- Tries steps until one is accepted or there is a reason to stop. The search does not bound the
number of rejected steps, so a bound `trials` is given. -/
def tryUntilAccepted (l : Linearization α m k) (scale : Vector α k) (cosine : α) :
    (trials : Nat) → Progress α n m k → Run α n (TrialResult α n m k)
  | 0, _ => throw .outOfTrials
  | trials + 1, p => do
    let result ← s.tryStep l scale cosine p
    if result.accepted || !result.status.isEmpty then return result
    else tryUntilAccepted l scale cosine trials result.progress

/-- The scale, the scaled norm and the trust region of the first iteration; later ones keep what they
have. -/
def rescale (l : Linearization α m k) (c : Checkpoint α n m k) : Checkpoint α n m k :=
  if c.point.iterations = 0 then
    let scale := s.chosenScale.getD l.initialScale
    let scaledNorm := s.scaledNorm scale c.point.free
    ⟨scale, .initial s.options.factor scaledNorm, { c.point with scaledNorm }⟩
  else c

/-- The scale for the steps of an iteration: one that was not chosen never falls. -/
def stepScale (l : Linearization α m k) (scale : Vector α k) : Vector α k :=
  if s.options.scale.isNone then l.raiseScale scale else scale

/-- An iteration whose linear model is known: the search ends here, or there is a next iteration. -/
def advance (l : Linearization α m k) (trials : Nat) (c : Checkpoint α n m k) :
    Run α n (Finish α n m k ⊕ Checkpoint α n m k) := do
  let cosine := l.gradientCosine c.point.norm
  let status := s.options.gradientStatus cosine
  if !status.isEmpty then return .inl ⟨c.point, l, l.r, status⟩
  if s.options.maxIterations = 0 then return .inl ⟨c.point, l, l.r, .ofReason .maxIterations⟩
  let scale := s.stepScale l c.scale
  let result ← s.tryUntilAccepted l scale cosine trials ⟨c.point, c.region, l.r⟩
  let q := result.progress
  if !result.status.isEmpty then return .inl ⟨q.point, l, q.workspace, result.status⟩
  return .inr ⟨scale, q.region, q.point⟩

def iteration (tall : k ≤ m) (trials : Nat) (c : Checkpoint α n m k) :
    Run α n (Finish α n m k ⊕ Checkpoint α n m k) := do
  let jacobian ← s.jacobianAt c.point.x c.point.residuals
  let l := Linearization.ofJacobian s.limits c.point jacobian tall
  s.advance l trials (s.rescale l c)

def iterate (tall : k ≤ m) (trials : Nat) :
    (iterations : Nat) → Checkpoint α n m k → Run α n (Finish α n m k)
  | 0, _ => throw .outOfTrials
  | iterations + 1, c => do
    match ← s.iteration tall trials c with
    | .inl finish => return finish
    | .inr next => iterate tall trials iterations next

def startAt (x : Vector α n) : Run α n (Iterate α n m k) := do
  Run.log (.started n k m s.mode)
  let x := s.applyTies x
  let residuals ← s.residualsAt .start x
  return ⟨x, s.freePart x, residuals, s.normOf residuals, 0, 0⟩

def firstCheckpoint (p : Iterate α n m k) : Checkpoint α n m k :=
  ⟨Vector.replicate k 0, .initial s.options.factor 0, p⟩

def covarianceAt (f : Finish α n m k) : Mat α n n × Nat :=
  let (covar, rank) := covariance f.workspace f.model.pivot s.options.rankTolerance
  (embedCovariance covar s.free, rank)

/-- Places the columns of the free parameters among those of all, which are zero. -/
def fullJacobian (jacobian : Mat α m k) : Mat α m n :=
  Mat.ofFn fun i p => ((lastIndex? s.free p).map (jacobian[i][·])).getD 0

def solutionOf (names : Vector (Option String) n) (startNorm : α) (f : Finish α n m k)
    (evaluations jacobians : Nat) : Solution α n m :=
  let covar := (s.covarianceAt f).1
  let p := f.point
  { parameters := p.x
    errors := standardErrors covar
    covariance := covar
    status := f.status
    iterations := p.iterations
    evaluations, jacobians
    chiSquare := Scalar.sum (p.residuals.map fun r => r * r).toList
    startChiSquare := startNorm * startNorm
    residuals := p.residuals
    jacobian := s.fullJacobian f.model.jacobian
    free := k
    pegged := f.model.pegged
    names }

def logFinish (startNorm : α) (f : Finish α n m k) : Run α n Unit := do
  let rank := (s.covarianceAt f).2
  if rank < k then Run.log (.rankDeficient rank k)
  let p := f.point
  Run.log (.finished p.iterations (← Run.evaluations) f.status (startNorm * startNorm)
    (p.norm * p.norm))

def conclude (names : Vector (Option String) n) (startNorm : α) (f : Finish α n m k) :
    Run α n (Solution α n m) := do
  s.logFinish startNorm f
  return s.solutionOf names startNorm f (← Run.evaluations) (← Run.jacobians)

def search (tall : k ≤ m) (trials : Nat) (names : Vector (Option String) n) (x : Vector α n) :
    Run α n (Solution α n m) := do
  let p ← s.startAt x
  let finish ← s.iterate tall trials (s.options.maxIterations + 1) (s.firstCheckpoint p)
  s.conclude names p.norm finish

end Setting

end LeastSquares
