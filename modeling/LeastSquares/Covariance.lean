import LeastSquares.Linear.Norm

/-!
Uncertainties of the fitted parameters. The covariance `(JᵗJ)⁻¹` is recovered from the triangular
factor of `J·P = Q·R`, without forming `JᵗJ`, as `P·R⁻¹·R⁻ᵗ·Pᵗ`. Rows and columns that belong to
diagonal entries of `R` too small to invert are zero, as are those of parameters that are not free.
-/

namespace LeastSquares

variable {α : Type} [Scalar α] {n k : Nat}

namespace Covariance

/-- The number of diagonal entries of `R` before the first that is negligible beside the first of
all. -/
def rank (r : Mat α n n) (tolerance : α) : Nat :=
  let diagonal := r.diagonal.toList
  let threshold := tolerance * Scalar.abs (diagonal.headD 0)
  diagonal.findIdx fun d => Scalar.abs d ≤ threshold

def invertColumn (a : Mat α n n) (c : Fin n) : Mat α n n :=
  let d := 1 / a[c][c]
  let column := (before c).foldl (fun (v : Vector α n) j =>
    let t := d * v[j]
    Vector.ofFn fun i =>
      if i < j then v[i] - t * a[i][j] else if i = j then 0 - t * a[j][j] else v[i])
    (put (a.column c) c d)
  Mat.ofFn fun i j => if j = c then column[i] else a[i][j]

/-- Adds the product of column `c` with itself to the upper triangle of the earlier columns, and
multiplies column `c` by its last entry. -/
def multiplyColumn (a : Mat α n n) (c : Fin n) : Mat α n n :=
  Mat.ofFn fun i j =>
    if j < c ∧ i ≤ j then a[i][j] + a[j][c] * a[i][c]
    else if j = c ∧ i ≤ c then a[i][c] * a[c][c]
    else a[i][j]

/-- The upper triangle of `R⁻¹·R⁻ᵗ`, with `R` cut off at `rank`. -/
def triangle (r : Mat α n n) (rank : Nat) : Mat α n n :=
  let columns := (List.finRange n).filter (·.val < rank)
  columns.foldl multiplyColumn (columns.foldl invertColumn r)

def upperTriangle (a : Mat α n n) : Mat α n n := Mat.ofFn fun i j => if i ≤ j then a[i][j] else 0

/-- Undoing the column exchange in place. The entries off the diagonal go below it, and the diagonal
is kept apart until all of them are there. -/
structure Placement (α : Type) (n : Nat) where
  a : Mat α n n
  diagonal : Vector α n

/-- Sends the entry at row `i` of column `j`, which counts as zero from `rank` on, to where `pivot`
says. -/
def placeEntry (pivot : Vector (Fin n) n) (rank : Nat) (j : Fin n) (a : Mat α n n) (i : Fin n) :
    Mat α n n :=
  let a := if rank ≤ j.val then a.setEntry i j 0 else a
  if pivot[j] < pivot[i] then a.setEntry pivot[i] pivot[j] a[i][j]
  else if pivot[i] < pivot[j] then a.setEntry pivot[j] pivot[i] a[i][j]
  else a

def Placement.placeColumn (pivot : Vector (Fin n) n) (rank : Nat) (s : Placement α n) (j : Fin n) :
    Placement α n :=
  let a := (upTo j).foldl (placeEntry pivot rank j) s.a
  ⟨a, put s.diagonal pivot[j] a[j][j]⟩

def reflectColumn (diagonal : Vector α n) (a : Mat α n n) (j : Fin n) : Mat α n n :=
  ((before j).foldl (fun a i => a.setEntry i j a[j][i]) a).setEntry j j diagonal[j]

/-- The symmetric matrix whose upper triangle, cut off at `rank` and with rows and columns sent to
where `pivot` says, is given. -/
def unpermute (upper : Mat α n n) (pivot : Vector (Fin n) n) (rank : Nat) : Mat α n n :=
  let start : Placement α n := ⟨upperTriangle upper, Vector.replicate n 0⟩
  let s := (List.finRange n).foldl (Placement.placeColumn pivot rank) start
  (List.finRange n).foldl (reflectColumn s.diagonal) s.a

end Covariance

/-- The covariance of the free parameters, and the rank it was computed with. Only the upper
triangle of `r` is read. -/
def covariance (r : Mat α n n) (pivot : Vector (Fin n) n) (tolerance : α) : Mat α n n × Nat :=
  let rank := Covariance.rank r tolerance
  (Covariance.unpermute (Covariance.triangle r rank) pivot rank, rank)

def embedCovariance (covar : Mat α k k) (free : Vector (Fin n) k) : Mat α n n :=
  Mat.ofFn fun p q =>
    match lastIndex? free p, lastIndex? free q with
    | some a, some b => covar[a][b]
    | _, _ => 0

/-- The correlations `covar[i][j] / √(covar[i][i] · covar[j][j])`; zero where a variance is. -/
def correlation (covar : Mat α n n) : Mat α n n :=
  Mat.ofFn fun i j =>
    let root := Scalar.sqrt (covar[i][i] * covar[j][j])
    if 0 < covar[i][i] ∧ 0 < covar[j][j] ∧ 0 < root then
      if i = j then 1 else covar[i][j] / root
    else 0

/-- The square roots of the variances; one that rounding made negative counts as zero. -/
def standardErrors (covar : Mat α n n) : Vector α n :=
  covar.diagonal.map fun v => Scalar.sqrt (Scalar.max 0 v)

end LeastSquares
