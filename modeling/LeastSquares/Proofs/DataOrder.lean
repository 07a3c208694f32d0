import LeastSquares.Proofs.TransformedResiduals

/-!
The order of the data. Residuals in another order, with the rows of the Jacobian in the same other
order, have the same inner products: the fit calls the residual function at the same points, and
ends with the same solution, but for the order of its residuals and of the rows of its Jacobian.
-/

namespace LeastSquares

section Reorder

variable {α : Type} {n m : ℕ} (σ : Equiv.Perm (Fin m))

/-- Takes component `σ i` to place `i`. -/
def reorder (x : Vector α m) : Vector α m := Vector.ofFn fun i => x[σ i]

@[simp] theorem getElem_reorder (x : Vector α m) (i : Fin m) : (reorder σ x)[i] = x[σ i] := by
  rw [reorder, getElem_ofFn]

theorem mapColumns_reorder (a : Mat α m n) : a.mapColumns (reorder σ) = reorder σ a := by
  refine ext_getElem fun i => ext_getElem fun j => ?_
  rw [← Mat.getElem_column (a.mapColumns (reorder σ)), Mat.column_mapColumns, getElem_reorder,
    getElem_reorder, Mat.getElem_column]

theorem map_reorder {β : Type} (f : α → β) (x : Vector α m) :
    reorder σ (x.map f) = (reorder σ x).map f := by
  refine ext_getElem fun i => ?_
  simp only [getElem_reorder, getElem_map]

def ResidualFunction.permute (f : ResidualFunction α) (σ : Equiv.Perm (Fin f.count)) :
    ResidualFunction α where
  count := f.count
  eval x := (f.eval x).map (reorder σ)
  hasJacobian := f.hasJacobian
  jacobian x := (f.jacobian x).map (reorder σ)

def Solution.permute (solution : Solution α n m) : Solution α n m :=
  { solution with
    residuals := reorder σ solution.residuals
    jacobian := reorder σ solution.jacobian }

end Reorder

variable {m : ℕ} (σ : Equiv.Perm (Fin m))

theorem dot_reorder (f g : Vector ℝ m) : dot (reorder σ f) (reorder σ g) = dot f g := by
  simp only [dot_eq, getElem_reorder]
  exact Equiv.sum_comp σ fun i => f[i] * g[i]

def Similarity.reorder : Similarity m where
  map := LeastSquares.reorder σ
  factor := 1
  factor_pos := one_pos
  dot_map f g := by rw [dot_reorder, one_pow, one_mul]
  quotient h f g := ext_getElem fun i => by simp only [getElem_reorder, getElem_zipWith]

theorem Journal.scale_one {n : ℕ} (j : Journal ℝ n) : j.scale 1 = j := by
  have hlog : j.log.map (LogEntry.scale 1) = j.log := by
    rw [funext LogEntry.scale_one]
    exact Array.map_id _
  rw [Journal.scale, hlog]

theorem Similarity.solution_reorder {n : ℕ} (solution : Solution ℝ n m) :
    (Similarity.reorder σ).solution solution = solution.permute σ := by
  have hdiv : (fun v : ℝ => v / 1) = id := funext div_one
  have hcovariance : Mat.mapEntries id solution.covariance = solution.covariance := by
    refine ext_getElem fun p => ext_getElem fun q => ?_
    simp [Mat.mapEntries]
  simp only [Similarity.solution, Similarity.reorder, Solution.permute, mapColumns_reorder,
    hcovariance, hdiv, Vector.map_id, one_pow, one_mul]

variable {store : Store ℝ} {f : ResidualFunction ℝ} {options : Options ℝ}
  {initial : Option (Array ℝ)} {trials : ℕ}

theorem comparable_reorder (σ : Equiv.Perm (Fin f.count)) {start : Start store f}
    (hstart : prepare store f options initial = .ok start) :
    Setting.Comparable ((Similarity.reorder σ).conversion store.size store.free.size)
      (Setting.ofStore store f options start.mode)
      ((Setting.ofStore store f options start.mode).transform (reorder σ)) start.tall trials
      start.x where
  converts := (Similarity.reorder σ).converts (map_reorder σ _) (.inr rfl)
  inRange := Options.validate_ok.1 (prepare_ok hstart).1
  regular := .inl fun _ => rfl
  first := .inl ⟨rfl, fun _ => rfl⟩
  idle := .inl rfl

/-- A fit of reordered data is the same fit, to the order of the residuals and of the rows of the
Jacobian. -/
theorem minimizeWithin_permute (σ : Equiv.Perm (Fin f.count)) :
    minimizeWithin trials store (f.permute σ) options initial =
      ((minimizeWithin trials store f options initial).1.map (Solution.permute σ),
        (minimizeWithin trials store f options initial).2) := by
  refine (minimizeWithin_transform (Similarity.reorder σ) (fun a => (mapColumns_reorder σ a).symm)
    fun _ => comparable_reorder σ).trans ?_
  rw [funext (Similarity.solution_reorder σ)]
  exact congrArg _ (Journal.scale_one _)

end LeastSquares
