import LeastSquares.Linear.Basic

/-!
Least-squares solution of `R·(Pᵗx) = Qᵗb`, `D·x = 0` for a triangular `R` and a diagonal `D`. The
rows of `D` are rotated into `R` one by one, which gives an upper triangular `S` with
`SᵗS = RᵗR + PᵗD²P` and a triangular system for `Pᵗx`.

The rotations work in the lower triangle of `R`'s own matrix: it is first overwritten with the
transpose of the upper triangle, ends up holding the transpose of `S` off the diagonal, and the
diagonal of `R` is put back entry by entry. The upper triangle is never written.
-/

namespace LeastSquares

variable {α : Type} [Scalar α] {n : Nat}

structure Rotation (α : Type) where
  cos : α
  sin : α

namespace Rotation

/-- The rotation that takes the pair `(a, b)` to `(c, 0)`, for `b` not zero. The quotient it starts
from is at most one in magnitude. -/
def clearing (a b : α) : Rotation α :=
  if Scalar.abs a < Scalar.abs b then
    let cotan := a / b
    let sin := 0.5 / Scalar.sqrt (0.25 + 0.25 * cotan * cotan)
    ⟨sin * cotan, sin⟩
  else
    let tan := b / a
    let cos := 0.5 / Scalar.sqrt (0.25 + 0.25 * tan * tan)
    ⟨cos, cos * tan⟩

def first (g : Rotation α) (a b : α) : α := g.cos * a + g.sin * b

def second (g : Rotation α) (a b : α) : α := -g.sin * a + g.cos * b

end Rotation

/-- What the solve returns: `x`, the diagonal of `S`, and the matrix that was worked in. -/
structure DampedSolution (α : Type) (n : Nat) where
  x : Vector α n
  diagonal : Vector α n
  workspace : Mat α n n

namespace DampedSolve

/-- The elimination under way. `row` holds the diagonal of `S` as far as it is known, and from there
on the row of `D` being rotated away; `extra` is the right-hand side of that row. -/
structure Stage (α : Type) (n : Nat) where
  r : Mat α n n
  rhs : Vector α n
  row : Vector α n
  extra : α

namespace Stage

/-- Rotates entry `k` of the row away, into row `k` of the triangle. -/
def rotate (s : Stage α n) (k : Fin n) : Stage α n :=
  if s.row[k] == 0 then s
  else
    let g := Rotation.clearing s.r[k][k] s.row[k]
    { r := Mat.ofFn fun i j =>
        if j = k ∧ k ≤ i then g.first s.r[i][k] s.row[i] else s.r[i][j]
      rhs := put s.rhs k (g.first s.rhs[k] s.extra)
      row := Vector.ofFn fun i => if k < i then g.second s.r[i][k] s.row[i] else s.row[i]
      extra := g.second s.rhs[k] s.extra }

def load (s : Stage α n) (j : Fin n) (d : α) : Stage α n :=
  { s with
    row := Vector.ofFn fun k => if k < j then s.row[k] else if k = j then d else 0
    extra := 0 }

/-- Eliminates the entry `d` of `D` that belongs to column `j`, keeps the diagonal entry of `S` this
gives, and puts `entry`, the diagonal entry of `R`, back. -/
def eliminate (s : Stage α n) (j : Fin n) (d entry : α) : Stage α n :=
  let s := if d != 0 then (starting j).foldl rotate (s.load j d) else s
  { s with row := put s.row j s.r[j][j], r := s.r.setEntry j j entry }

end Stage

def mirror (r : Mat α n n) : Mat α n n := Mat.ofFn fun i j => if j ≤ i then r[j][i] else r[i][j]

/-- The solution of `S·z = rhs` for the `S` whose transpose is below the diagonal of `r`. From the
first zero on the diagonal on, the components are zero. -/
def backSubstitute (r : Mat α n n) (diagonal rhs : Vector α n) : Vector α n :=
  let rank := diagonal.toList.findIdx (· == 0)
  let start : Vector α n := Vector.ofFn fun j => if j.val < rank then rhs[j] else 0
  ((List.finRange n).filter (·.val < rank)).reverse.foldl (fun z j =>
    let sum := Scalar.sumFromZero
      (((after j).filter (·.val < rank)).map fun i => r[i][j] * z[i])
    put z j ((z[j] - sum) / diagonal[j])) start

end DampedSolve

open DampedSolve in
/-- Solves for the `R` in the upper triangle of `r`, with `damping` the diagonal of `D` and `qtb`
the product `Qᵗb`. Where `S` is singular the trailing components of `Pᵗx` are zero. -/
def dampedSolve (r : Mat α n n) (pivot : Vector (Fin n) n) (damping qtb : Vector α n) :
    DampedSolution α n :=
  let start : Stage α n := ⟨mirror r, qtb, Vector.replicate n 0, 0⟩
  let s := (List.finRange n).foldl (fun s j => s.eliminate j damping[pivot[j]] r[j][j]) start
  ⟨unpermute pivot (backSubstitute s.r s.row s.rhs), s.row, s.r⟩

def DampedSolution.s (solution : DampedSolution α n) : Mat α n n :=
  Mat.ofFn fun i j =>
    if i < j then solution.workspace[j][i] else if i = j then solution.diagonal[j] else 0

end LeastSquares
