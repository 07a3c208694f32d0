import LeastSquares.Proofs.NormalEquations

/-!
What the damped solve makes of a triangle `R` and a diagonal `D`, in exact arithmetic and for every
pattern of zeros in both. The rotations divide by nothing that vanishes, and leave a triangle `S`
that is a factor of the matrix of the normal equations. Where the diagonal of `S` has no zero that
matrix is invertible, and the solution that is returned is the only one.
-/

namespace LeastSquares

open Matrix

variable {n : ℕ}

noncomputable def columnGram (r : Mat ℝ n n) (pivot : Vector (Fin n) n) (damping : Vector ℝ n) :
    Matrix (Fin n) (Fin n) ℝ :=
  (upperMatrix r)ᵀ * upperMatrix r + Matrix.diagonal fun j => damping[pivot[j]] ^ 2

/-- What makes a solution one of the upper triangle of `r` and the diagonal `damping`, for the head
`qtb` of `Qᵗ·b`. -/
structure DampedSolution.Solves (solution : DampedSolution ℝ n) (r : Mat ℝ n n)
    (pivot : Vector (Fin n) n) (damping qtb : Vector ℝ n) : Prop where
  triangular : solution.s.toMatrix.IsUpperTriangular
  factor : solution.s.toMatrixᵀ * solution.s.toMatrix = columnGram r pivot damping
  regular : (∀ e : Fin n, damping[e] ≠ 0) → ∀ j : Fin n, solution.diagonal[j] ≠ 0
  unique : (∀ j : Fin n, solution.diagonal[j] ≠ 0) → ∀ x : Vector ℝ n,
    columnGram r pivot damping *ᵥ (fun j => x[pivot[j]]) = (upperMatrix r)ᵀ *ᵥ coords qtb ↔
      x = solution.x

section Solve

variable (r : Mat ℝ n n) {pivot : Vector (Fin n) n} (damping qtb : Vector ℝ n)

theorem columnGram_mulVec (pivot : Vector (Fin n) n) (z : Fin n → ℝ) (j : Fin n) :
    (columnGram r pivot damping *ᵥ z) j =
      ∑ i, (∑ l, upperPart r l j * upperPart r l i) * z i + damping[pivot[j]] ^ 2 * z j := by
  rw [columnGram, Matrix.add_mulVec, Pi.add_apply, Matrix.mulVec_diagonal]
  rfl

theorem isUnit_columnGram (h : ∀ j : Fin n, (dampedSolve r pivot damping qtb).diagonal[j] ≠ 0) :
    IsUnit (columnGram r pivot damping) := by
  rw [columnGram, ← transpose_s_mul_s r pivot damping qtb]
  exact ((Matrix.isUnit_transpose _).2 (isUnit_s h)).mul (isUnit_s h)

theorem columnGram_mulVec_eq_iff (hpivot : Distinct pivot)
    (h : ∀ j : Fin n, (dampedSolve r pivot damping qtb).diagonal[j] ≠ 0) (x : Vector ℝ n) :
    columnGram r pivot damping *ᵥ (fun j => x[pivot[j]]) = (upperMatrix r)ᵀ *ᵥ coords qtb ↔
      x = (dampedSolve r pivot damping qtb).x := by
  have hsolved : columnGram r pivot damping *ᵥ
      (fun j => (dampedSolve r pivot damping qtb).x[pivot[j]]) =
        (upperMatrix r)ᵀ *ᵥ coords qtb := by
    ext j
    rw [columnGram_mulVec]
    exact dampedSolve_normal_of_reaches r damping qtb hpivot fun i _ => h i
  constructor
  · intro hx
    have hinjective := Matrix.mulVec_injective_of_isUnit (isUnit_columnGram r damping qtb h)
    exact eq_of_pivot hpivot fun j => congrFun (hinjective (hx.trans hsolved.symm)) j
  · rintro rfl
    exact hsolved

end Solve

/-- The damped solve, for every triangle `R`, singular or not, whatever stands below it, and every
diagonal `D`, zeros included. It does not divide by zero, so that it does not matter what becomes of
a quotient by zero. The `S` it returns is an upper triangle with `SᵗS = RᵗR + PᵗD²P`, and has no zero
on its diagonal if `D` has none. If it has none, the vector that is returned is the only one that
solves the normal equations of `R` and `D`. -/
theorem dampedSolve_eliminates (r : Mat ℝ n n) {pivot : Vector (Fin n) n} (hpivot : Distinct pivot)
    (damping qtb : Vector ℝ n) :
    0 ∉ dampedSolveDivisors r pivot damping qtb ∧
      (∀ q, IsQuotient q → @dampedSolve ℝ (dividing q).toScalar n r pivot damping qtb =
        dampedSolve r pivot damping qtb) ∧
      (dampedSolve r pivot damping qtb).Solves r pivot damping qtb := by
  have hdivisors := zero_notMem_dampedSolveDivisors r pivot damping qtb
  refine ⟨hdivisors, fun q hq => dampedSolve_dividing hq hdivisors, ?_⟩
  exact
    { triangular := isUpperTriangular_s _
      factor := transpose_s_mul_s r pivot damping qtb
      regular := fun hdamping j => diagonal_dampedSolve_ne_zero r damping qtb (hdamping _)
      unique := columnGram_mulVec_eq_iff r damping qtb hpivot }

def exchanged : Vector (Fin 2) 2 := #v[1, 0]

/-- A singular triangle, over an entry of no meaning. -/
noncomputable def singularTriangle : Mat ℝ 2 2 := #v[#v[1, 2], #v[5, 0]]

theorem dampedSolve_eliminates_singular :
    Distinct exchanged ∧
      0 ∉ dampedSolveDivisors singularTriangle exchanged #v[3, 0] #v[1, 4] ∧
      (∀ q, IsQuotient q →
        @dampedSolve ℝ (dividing q).toScalar 2 singularTriangle exchanged #v[3, 0] #v[1, 4] =
          dampedSolve singularTriangle exchanged #v[3, 0] #v[1, 4]) ∧
      (dampedSolve singularTriangle exchanged #v[3, 0] #v[1, 4]).Solves singularTriangle exchanged
        #v[3, 0] #v[1, 4] := by
  have hpivot : Distinct exchanged := by
    unfold Distinct
    decide
  exact ⟨hpivot, dampedSolve_eliminates singularTriangle hpivot _ _⟩

end LeastSquares
