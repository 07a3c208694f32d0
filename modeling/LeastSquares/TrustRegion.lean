import LeastSquares.Scalar

/-!
The trust region of a search: the radius that bounds the scaled length `‖D·p‖` of a step, and the
damping that goes with it. The radius shrinks where the residual norm falls short of the reduction
that the linear model predicted, and grows where the two agree.
-/

namespace LeastSquares

structure TrustRegion (α : Type) where
  radius : α
  damping : α
  deriving Repr

namespace TrustRegion

variable {α : Type} [Scalar α]

/-- The region around a start whose scaled norm is given; `factor` itself is the radius when that
norm is zero. -/
def initial (factor scaledNorm : α) : TrustRegion α :=
  ⟨if scaledNorm == 0 then factor else factor * scaledNorm, 0⟩

def limitTo (t : TrustRegion α) (length : α) : TrustRegion α :=
  { t with radius := Scalar.min t.radius length }

/-- What a trial step showed: the actual over the predicted reduction, the actual reduction, the
directional derivative, the residual norms before and after, and the scaled step length. -/
structure Trial (α : Type) where
  ratio : α
  actual : α
  slope : α
  norm : α
  trialNorm : α
  length : α

/-- The factor by which a step that disappointed shrinks the radius, between a tenth and a half. -/
def shrinkage (s : Trial α) : α :=
  let t := if 0 ≤ s.actual then 0.5 else 0.5 * s.slope / (s.slope + 0.5 * s.actual)
  if s.norm ≤ 0.1 * s.trialNorm ∨ t < 0.1 then 0.1 else t

def update (t : TrustRegion α) (s : Trial α) : TrustRegion α :=
  if s.ratio ≤ 0.25 then
    let c := shrinkage s
    ⟨c * Scalar.min t.radius (s.length / 0.1), t.damping / c⟩
  else if t.damping == 0 ∨ 0.75 ≤ s.ratio then ⟨s.length / 0.5, t.damping * 0.5⟩
  else t

/-- The relative reduction `1 - (after / before)²` of the sum of squares, or `-1` where the norm
grew tenfold. -/
def actualReduction (before after : α) : α :=
  if 0.1 * after < before then
    let r := after / before
    1 - r * r
  else -1

/-- The actual over the predicted reduction, zero when none was predicted. -/
def gainRatio (actual predicted : α) : α := if predicted != 0 then actual / predicted else 0

end TrustRegion

end LeastSquares
