import LeastSquares.Linear.Norm
import LeastSquares.SizeMismatch

/-!
Column-pivoted Householder factorization `A·P = Q·R` of a matrix with at least as many rows as
columns. The factorization is kept packed: column `j` holds, from its diagonal entry down, the
vector `v` of the `j`-th reflection `b ↦ b - (v·b / v_j) v`, and above the diagonal a column of `R`,
whose own diagonal is kept apart. At every step the remaining column of largest norm comes next,
the first of equal ones, so that the diagonal of `R` falls in magnitude.
-/

namespace LeastSquares

variable {α : Type} {m n : Nat}

/-- The reflection of `b` by the part of `v` from index `j` on; none when `v[j]` is zero. -/
def reflect [Scalar α] (v : Vector α m) (j : Fin m) (b : Vector α m) : Vector α m :=
  if v[j] == 0 then b
  else
    let t := -Scalar.sumFromZero ((starting j).map fun i => v[i] * b[i]) / v[j]
    Vector.ofFn fun i => if j ≤ i then b[i] + t * v[i] else b[i]

structure PivotedQR (α : Type) (m n : Nat) where
  packed : Mat α m n
  /-- Column `j` of `A·P` is column `pivot[j]` of `A`. -/
  pivot : Vector (Fin n) n
  diagonal : Vector α n
  columnNorms : Vector α n
  tall : n ≤ m

/-- What is left of a factorization once its reflections have been given up. -/
structure Triangle (α : Type) (m n : Nat) where
  /-- `R` above a strict lower trapezoid of no meaning. -/
  packed : Mat α m n
  pivot : Vector (Fin n) n
  columnNorms : Vector α n
  tall : n ≤ m

/-- The first `n` rows, in which `R` is the upper triangle. -/
def Triangle.r (t : Triangle α m n) : Mat α n n := Mat.ofFn fun i j => t.packed[i.castLE t.tall][j]

namespace PivotedQR

/-- A factorization under way. `norms` holds the diagonal of `R` for the columns done and the norms
of what is left of the others, `reference` the norms when they were last computed afresh. -/
structure Stage (α : Type) (m n : Nat) where
  a : Mat α m n
  pivot : Vector (Fin n) n
  norms : Vector α n
  reference : Vector α n

namespace Stage

variable [NormedScalar α]

def start (a : Mat α m n) : Stage α m n :=
  let norms := Vector.ofFn fun j => NormedScalar.norm (a.column j).toList
  ⟨a, Vector.finRange n, norms, norms⟩

def largestFrom (norms : Vector α n) (j : Fin n) : Fin n :=
  (after j).foldl (fun best k => if norms[best] < norms[k] then k else best) j

/-- Exchanges columns `j` and `k`; the norm at `j` is about to be replaced. -/
def exchange (s : Stage α m n) (j k : Fin n) : Stage α m n where
  a := s.a.map fun row => LeastSquares.exchange row j k
  pivot := LeastSquares.exchange s.pivot j k
  norms := put s.norms k s.norms[j]
  reference := put s.reference k s.reference[j]

/-- The norm of a column without its entry `top`, and its reference, computed afresh from the
entries `below` once the update has lost too many digits. -/
def downdate (norm reference top : α) (below : List α) : α × α :=
  if norm != 0 then
    let t := top / norm
    let norm := norm * Scalar.sqrt (Scalar.max (1 - t * t) 0)
    let ratio := norm / reference
    if 0.05 * ratio * ratio ≤ Scalar.epsilon then
      let norm := NormedScalar.norm below
      (norm, norm)
    else (norm, reference)
  else (norm, reference)

/-- The reflection vector that clears column `j` below row `row`, over the unchanged entries above;
`norm` is the norm of what it clears, with the sign of its first entry. -/
def reflector (a : Mat α m n) (row : Fin m) (j : Fin n) (norm : α) : Vector α m :=
  Vector.ofFn fun i =>
    if i < row then a[i][j]
    else if i = row then a[i][j] / norm + 1
    else a[i][j] / norm

def reflectColumns (tall : n ≤ m) (s : Stage α m n) (j : Fin n) (norm : α) : Stage α m n :=
  let row := j.castLE tall
  let v := reflector s.a row j norm
  let a := Mat.ofColumns <| Vector.ofFn fun k =>
    if j < k then reflect v row (s.a.column k) else if k = j then v else s.a.column k
  let updated := Vector.ofFn fun k =>
    if j < k then
      downdate s.norms[k] s.reference[k] a[row][k] ((after row).map fun i => a[i][k])
    else (s.norms[k], s.reference[k])
  { s with
    a
    norms := put (updated.map (·.1)) j (-norm)
    reference := updated.map (·.2) }

/-- Clears column `j` below the diagonal unless nothing is left of it. -/
def clear (tall : n ≤ m) (s : Stage α m n) (j : Fin n) : Stage α m n :=
  let row := j.castLE tall
  let norm := NormedScalar.norm ((starting row).map fun i => s.a[i][j])
  if norm != 0 then s.reflectColumns tall j (if s.a[row][j] < 0 then -norm else norm)
  else { s with norms := put s.norms j (-norm) }

def eliminate (tall : n ≤ m) (s : Stage α m n) (j : Fin n) : Stage α m n :=
  (s.exchange j (largestFrom s.norms j)).clear tall j

end Stage

def factor [NormedScalar α] (a : Mat α m n) (tall : n ≤ m) : PivotedQR α m n :=
  let s := (List.finRange n).foldl (Stage.eliminate tall) (Stage.start a)
  ⟨s.a, s.pivot, s.norms, (Stage.start a).norms, tall⟩

def factor? [NormedScalar α] (a : Mat α m n) : Except SizeMismatch (PivotedQR α m n) :=
  if tall : n ≤ m then .ok (factor a tall) else .error (.wideMatrix m n)

variable [Scalar α] (qr : PivotedQR α m n)

def r : Mat α n n :=
  Mat.ofFn fun i j =>
    if i < j then qr.packed[i.castLE qr.tall][j] else if i = j then qr.diagonal[j] else 0

def reflectAt (j : Fin n) (b : Vector α m) : Vector α m :=
  reflect (qr.packed.column j) (j.castLE qr.tall) b

/-- The product `Qᵗ·b` with the square orthogonal factor. -/
def applyQt (b : Vector α m) : Vector α m :=
  (List.finRange n).foldl (fun b j => qr.reflectAt j b) b

def applyQt? (b : Array α) : Except SizeMismatch (Vector α m) :=
  if h : b.size = m then .ok (qr.applyQt ⟨b, h⟩) else .error (.vector m b.size)

/-- The first `n` components of `Qᵗ·b`. -/
def project (b : Vector α m) : Vector α n :=
  let image := qr.applyQt b
  Vector.ofFn fun j => image[j.castLE qr.tall]

/-- The thin orthogonal factor, whose product with `r` is `A·P`. -/
def q : Mat α m n :=
  Mat.ofColumns <| Vector.ofFn fun k =>
    (List.finRange n).reverse.foldl (fun b j => qr.reflectAt j b)
      (Vector.ofFn fun i => if i = k.castLE qr.tall then 1 else 0)

/-- The packed matrix with the diagonal of `R` in place: `R` above the strict lower trapezoid. -/
def triangular : Mat α m n :=
  Mat.ofFn fun i j => if i = j.castLE qr.tall then qr.diagonal[j] else qr.packed[i][j]

/-- The first `n` rows of `triangular`: `R`, over a strict lower triangle of no meaning. -/
def workspace : Mat α n n :=
  let a := qr.triangular
  Mat.ofFn fun i j => a[i.castLE qr.tall][j]

def toTriangle? (b : Array α) : Except SizeMismatch (Triangle α m n × Vector α n) := do
  let image ← qr.applyQt? b
  return (⟨qr.triangular, qr.pivot, qr.columnNorms, qr.tall⟩,
    Vector.ofFn fun j => image[j.castLE qr.tall])

end PivotedQR

end LeastSquares
