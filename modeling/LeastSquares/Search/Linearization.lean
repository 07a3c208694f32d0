import LeastSquares.DampedStep
import LeastSquares.Linear.PivotedQR
import LeastSquares.Search.Evaluation
import LeastSquares.TrustRegion

/-!
The linear model around the current point. A parameter that sits on a limit is pegged; when the sum
of squares would decrease only beyond the limit, its column of the Jacobian is cleared, so that no
step moves it. The model is the factorization of what is left.
-/

namespace LeastSquares

structure Iterate (α : Type) (n m k : Nat) where
  x : Vector α n
  /-- The free components of `x`. -/
  free : Vector α k
  residuals : Vector α m
  norm : α
  /-- The scaled norm of `free`. -/
  scaledNorm : α
  /-- The steps accepted so far. -/
  iterations : Nat

structure Linearization (α : Type) (m k : Nat) where
  /-- The Jacobian as it was evaluated. -/
  jacobian : Mat α m k
  pegged : Nat
  r : Mat α k k
  pivot : Vector (Fin k) k
  columnNorms : Vector α k
  /-- The head of `Qᵗ·f` for the residuals `f`. -/
  qtf : Vector α k

variable {α : Type} {n m k : Nat}

/-- The inner product from left to right. -/
def dot [Scalar α] (a b : Vector α m) : α := Scalar.sumFromZero (Vector.zipWith (· * ·) a b).toList

/-- Adds the `i`-th term to the sum that it belongs to, of eight. -/
def addInterleaved [Scalar α] (sums : Vector α 8) (term : α × Nat) : Vector α 8 :=
  let i := Fin.ofNat 8 term.2
  put sums i (sums[i] + term.1)

/-- The inner product in eight interleaved sums of equal length, which are added up in pairs, and
then with what is left over. -/
def dotInterleaved [Scalar α] (a b : Vector α m) : α :=
  let terms := (Vector.zipWith (· * ·) a b).toList
  let whole := m / 8 * 8
  let sums := (terms.take whole).zipIdx.foldl addInterleaved (Vector.replicate 8 0)
  let pairs := [sums[0] + sums[4], sums[1] + sums[5], sums[2] + sums[6], sums[3] + sums[7]]
  Scalar.sumFromZero (pairs ++ terms.drop whole)

/-- The inner product of the residuals with a column of the Jacobian. The numbers of a column lie
side by side only if it has no neighbours, and are interleaved then. -/
def columnSlope [Scalar α] (jacobian : Mat α m k) (residuals : Vector α m) (c : Fin k) : α :=
  if k = 1 then dotInterleaved residuals (jacobian.column c) else dot residuals (jacobian.column c)

namespace StepLimits

variable [Scalar α] (limits : StepLimits α k)

def isPegged (x : Vector α k) (c : Fin k) : Bool := limits.atLower c x[c] || limits.atUpper c x[c]

/-- Whether the residuals decrease only beyond a limit that parameter `c` is on. -/
def pointsOutward (x : Vector α k) (jacobian : Mat α m k) (residuals : Vector α m) (c : Fin k) :
    Bool :=
  let slope := columnSlope jacobian residuals c
  (limits.atLower c x[c] && 0 < slope) || (limits.atUpper c x[c] && slope < 0)

def maskJacobian (x : Vector α k) (jacobian : Mat α m k) (residuals : Vector α m) : Mat α m k :=
  let outward := Vector.ofFn (limits.pointsOutward x jacobian residuals)
  Mat.ofFn fun i c => if outward[c] then 0 else jacobian[i][c]

end StepLimits

namespace Linearization

def ofJacobian [NormedScalar α] (limits : StepLimits α k) (p : Iterate α n m k) (jacobian : Mat α m k)
    (tall : k ≤ m) : Linearization α m k :=
  let qr := PivotedQR.factor (limits.maskJacobian p.free jacobian p.residuals) tall
  { jacobian
    pegged := (List.finRange k).countP (limits.isPegged p.free)
    r := qr.workspace
    pivot := qr.pivot
    columnNorms := qr.columnNorms
    qtf := qr.project p.residuals }

variable [Scalar α] (l : Linearization α m k)

def stepModel (scale : Vector α k) : StepModel α k := ⟨l.pivot, scale, l.qtf⟩

def cosineAt (norm : α) (j : Fin k) : α :=
  let sum := Scalar.sum ((upTo j).map fun i => l.r[i][j] * (l.qtf[i] / norm))
  Scalar.abs (sum / l.columnNorms[l.pivot[j]])

def gradientCosine (norm : α) : α :=
  if norm == 0 then 0
  else
    (List.finRange k).foldl (fun largest j =>
      if l.columnNorms[l.pivot[j]] != 0 then Scalar.max largest (l.cosineAt norm j) else largest) 0

/-- The scale of each parameter at the first point: the norm of its column, or one. -/
def initialScale : Vector α k := l.columnNorms.map fun d => if d == 0 then 1 else d

/-- The scale at a later point: it never falls. -/
def raiseScale (scale : Vector α k) : Vector α k := Vector.zipWith Scalar.max scale l.columnNorms

/-- The product `R·Pᵗ·step`, which has the norm of the Jacobian's product with the step. -/
def image (r : Mat α k k) (step : Vector α k) : Vector α k :=
  Vector.ofFn fun i => Scalar.sumFromZero ((starting i).map fun j => r[i][j] * step[l.pivot[j]])

end Linearization

end LeastSquares
