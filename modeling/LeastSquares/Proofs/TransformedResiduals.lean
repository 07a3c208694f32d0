import LeastSquares.Proofs.Evaluations
import LeastSquares.Proofs.RunUnits

/-!
Fits of transformed residuals. A linear map of the residuals that multiplies inner products by a
factor gives a fit in other units, with the same parameters. Its search mirrors the other, and ends
with the same solution but for the residuals, the Jacobian and what is measured in units of
residuals: sums of squares, the covariance and the errors.
-/

namespace LeastSquares

variable {n m k : ℕ}

/-! ### Transformed functions and solutions -/

section Definitions

variable {α : Type}

def Mat.mapColumns (f : Vector α m → Vector α m) (a : Mat α m n) : Mat α m n :=
  Mat.ofColumns (Vector.ofFn fun j => f (a.column j))

@[simp] theorem Mat.column_mapColumns (f : Vector α m → Vector α m) (a : Mat α m n) (j : Fin n) :
    (a.mapColumns f).column j = f (a.column j) := by
  refine ext_getElem fun i => ?_
  rw [mapColumns, getElem_column, getElem_ofColumns, LeastSquares.getElem_ofFn]

/-- The residual function that applies a map to the residuals and to the columns of the
Jacobian. -/
def ResidualFunction.transform (f : ResidualFunction α)
    (map : Vector α f.count → Vector α f.count) : ResidualFunction α where
  count := f.count
  eval x := (f.eval x).map map
  hasJacobian := f.hasJacobian
  jacobian x := (f.jacobian x).map (Mat.mapColumns map)

def Setting.transform (s : Setting α n m k) (map : Vector α m → Vector α m) : Setting α n m k :=
  { s with
    eval := fun x => (s.eval x).map map
    jacobian := fun x => (s.jacobian x).map (Mat.mapColumns map) }

end Definitions

noncomputable def Journal.scale (factor : ℝ) (j : Journal ℝ n) : Journal ℝ n :=
  { j with log := j.log.map (LogEntry.scale factor) }

/-- A map of the residuals that takes difference quotients to difference quotients, and multiplies
inner products by `factor ^ 2`. -/
structure Similarity (m : ℕ) where
  map : Vector ℝ m → Vector ℝ m
  factor : ℝ
  factor_pos : 0 < factor
  dot_map : ∀ f g, dot (map f) (map g) = factor ^ 2 * dot f g
  quotient : ∀ (h : ℝ) f g, map (Vector.zipWith (fun a b => (a - b) / h) f g) =
    Vector.zipWith (fun a b => (a - b) / h) (map f) (map g)

namespace Similarity

variable (w : Similarity m)

/-- The conversion that leaves the parameters alone. -/
def conversion (n k : ℕ) : Conversion n m k where
  point := id
  residuals := w.map
  factor := w.factor
  unit _ := 1
  factor_pos := w.factor_pos
  unit_pos _ := one_pos
  dot_residuals := w.dot_map

noncomputable def solution (solution : Solution ℝ n m) : Solution ℝ n m :=
  { solution with
    errors := solution.errors.map (· / w.factor)
    covariance := Mat.mapEntries (· / w.factor ^ 2) solution.covariance
    chiSquare := w.factor ^ 2 * solution.chiSquare
    startChiSquare := w.factor ^ 2 * solution.startChiSquare
    residuals := w.map solution.residuals
    jacobian := solution.jacobian.mapColumns w.map }

theorem map_zero : w.map (Vector.replicate m 0) = Vector.replicate m 0 := by
  have hzero := (w.conversion 0 0).euclid_residuals (Vector.replicate m 0)
  rw [euclid_eq_zero.2 fun i => getElem_replicate 0 i, mul_zero] at hzero
  refine ext_getElem fun i => ?_
  rw [getElem_replicate]
  exact euclid_eq_zero.1 hzero i

theorem jacobian_eq (a : Mat ℝ m k) : (w.conversion n k).jacobian a = a.mapColumns w.map := by
  refine ext_getElem fun i => ext_getElem fun c => ?_
  rw [(w.conversion n k).getElem_jacobian, ← Mat.getElem_column (a.mapColumns w.map),
    Mat.column_mapColumns]
  exact one_mul _

@[simp] theorem free_eq (x : Vector ℝ k) : (w.conversion n k).free x = x :=
  (w.conversion n k).free_of_unit (fun _ => rfl) x

/-! ### Converted evaluations -/

section Evaluations

variable {s : Setting ℝ n m k} (hdampen : ∀ r, w.map (r.map s.dampen) = (w.map r).map s.dampen)

include hdampen

theorem residualsAt_mirrors (purpose : Purpose) (x : Vector ℝ n) (j : Journal ℝ n) :
    Run.Mirrors (w.conversion n k) (fun r r' => r' = w.map r) (s.residualsAt purpose x)
      ((s.transform w.map).residualsAt purpose x) j := by
  refine .bind (.record (.residuals purpose (s.applyTies x))) fun _ _ i _ _ _ => ?_
  refine .bind (.ofExcept w.map) fun r r' i _ _ hr => ?_
  refine .bind .countEvaluation fun _ _ i _ _ _ => ?_
  have hfinite : ∀ f : Vector ℝ m, (!s.options.finiteCheck || f.all Scalar.isFinite) = true := by
    intro f
    rw [all_isFinite, Bool.or_true]
  refine .bind (.require (hfinite _) (hfinite _)) fun _ _ i _ _ _ => .pure ?_
  rw [hr]
  exact (hdampen r).symm

theorem differenceColumn_mirrors (x : Vector ℝ n) (fx : Vector ℝ m) (c : Fin n)
    (rule : DifferenceRule ℝ) (scale : ℝ) (j : Journal ℝ n) :
    Run.Mirrors (w.conversion n k) (fun b b' => b' = w.map b)
      (differenceColumn (s.residualsAt .probe) x fx c rule scale)
      (differenceColumn ((s.transform w.map).residualsAt .probe) x (w.map fx) c rule scale) j := by
  refine .bind (w.residualsAt_mirrors hdampen .probe _ j) fun r r' i _ _ hr => ?_
  subst hr
  split
  · refine .bind (w.residualsAt_mirrors hdampen .probe _ i) fun b b' i' _ _ hb => .pure ?_
    subst hb
    exact (w.quotient _ r b).symm
  · exact .pure (w.quotient _ r fx).symm

theorem jacobianAt_mirrors (x : Vector ℝ n) (fx : Vector ℝ m) (j : Journal ℝ n) :
    Run.Mirrors (w.conversion n k) (fun a a' => a' = (w.conversion n k).jacobian a)
      (s.jacobianAt x fx) ((s.transform w.map).jacobianAt x (w.map fx)) j := by
  refine .jacobianAt rfl (fun _ i => ?_) fun _ i => ?_
  · refine .bind (.record (.jacobian (s.applyTies x))) fun _ _ i _ _ _ => ?_
    refine .bind (.ofExcept (Mat.mapColumns w.map)) fun full full' i _ _ hfull => .pure ?_
    rw [w.jacobian_eq, hfull]
    refine ext_getElem fun i => ext_getElem fun c => ?_
    rw [Mat.getElem_ofFn, ← Mat.getElem_column (full.mapColumns w.map), ← Mat.getElem_column
      (Mat.mapColumns w.map _), Mat.column_mapColumns, Mat.column_mapColumns]
    congr 2
    refine ext_getElem fun i => ?_
    rw [Mat.getElem_column, Mat.getElem_column, Mat.getElem_ofFn]
    rfl
  · rw [differenceJacobian_eq, differenceJacobian_eq]
    refine .bind (Run.Mirrors.ofFnM (R := fun _ b b' => b' = w.map b)
      (fun c i => w.differenceColumn_mirrors hdampen x fx _ _ _ i) i)
      fun columns columns' _ _ _ hcolumns => .pure ?_
    refine ext_getElem fun i => ext_getElem fun c => ?_
    have hcolumn : (Mat.ofColumns columns).column c = columns[c] := by
      refine ext_getElem fun i => ?_
      rw [Mat.getElem_column, Mat.getElem_ofColumns]
    rw [Mat.getElem_ofColumns, hcolumns, (w.conversion n k).getElem_jacobian, hcolumn]
    exact (one_mul _).symm

end Evaluations

theorem pointsOutward_eq (limits : StepLimits ℝ k) (x : Vector ℝ k) (a : Mat ℝ m k) (f : Vector ℝ m)
    (c : Fin k) :
    limits.pointsOutward x (a.mapColumns w.map) (w.map f) c = limits.pointsOutward x a f c := by
  have hpositive : 0 < w.factor ^ 2 * dot f (a.column c) ↔ 0 < dot f (a.column c) :=
    mul_pos_iff_of_pos_left (pow_pos w.factor_pos 2)
  have hnegative : w.factor ^ 2 * dot f (a.column c) < 0 ↔ dot f (a.column c) < 0 :=
    smul_neg_iff_of_pos_left (pow_pos w.factor_pos 2)
  rw [Bool.eq_iff_iff, StepLimits.pointsOutward_iff, StepLimits.pointsOutward_iff,
    Mat.column_mapColumns, w.dot_map, hpositive, hnegative]

theorem converts {s : Setting ℝ n m k}
    (hdampen : ∀ r, w.map (r.map s.dampen) = (w.map r).map s.dampen)
    (hscale : s.options.scale = none ∨ w.factor = 1) :
    s.Converts (w.conversion n k) (s.transform w.map) where
  options := rfl
  mode := rfl
  chosenScale := hscale.imp_right fun hfactor => ⟨hfactor, rfl, fun _ => rfl⟩
  residualsAt := w.residualsAt_mirrors hdampen
  jacobianAt := w.jacobianAt_mirrors hdampen
  applyTies _ := rfl
  freePart x := (w.free_eq _).symm
  withFree x t := by
    rw [w.free_eq]
    rfl
  move x step := by
    simp only [Conversion.move, w.free_eq]
    rfl
  outward x a f c := by
    rw [w.free_eq, w.jacobian_eq]
    exact w.pointsOutward_eq s.limits x a f c
  pegged x c := by
    rw [w.free_eq]
    rfl

/-! ### The conclusion of a search -/

section Conclusion

variable {s : Setting ℝ n m k} {tall : k ≤ m} {f f' : Finish ℝ n m k}
  (hf : f.Converts (w.conversion n k) s (s.transform w.map) tall f')

include hf

/-- The covariance of the free parameters is divided by the square of the factor, at the same
rank. -/
theorem covariance_eq (tolerance : ℝ) :
    covariance f'.workspace f'.model.pivot tolerance =
      (Mat.mapEntries (· / w.factor ^ 2) (covariance f.workspace f.model.pivot tolerance).1,
        (covariance f.workspace f.model.pivot tolerance).2) := by
  obtain ⟨-, -, ⟨p, a, hmodel, hmodel'⟩, hworkspace, hworkspace'⟩ := hf
  have houtward : ∀ c, (s.transform w.map).limits.pointsOutward ((w.conversion n k).free p.free)
      ((w.conversion n k).jacobian a) ((w.conversion n k).residuals p.residuals) c =
        s.limits.pointsOutward p.free a p.residuals c := by
    intro c
    rw [w.free_eq, w.jacobian_eq]
    exact w.pointsOutward_eq s.limits p.free a p.residuals c
  obtain ⟨hpivot, ε, hrows, -⟩ := Linearization.rows_convert houtward tall fun _ => rfl
  rw [← hmodel, ← hmodel'] at hpivot hrows
  have hdistinct : Distinct f.model.pivot := by
    rw [hmodel]
    exact Linearization.distinct_ofJacobian _ _ _ _
  rw [covariance_congr hworkspace, covariance_congr hworkspace', hpivot,
    covariance_of_rows w.factor_pos hrows hdistinct]

theorem covarianceAt_eq : (s.transform w.map).covarianceAt f' =
    (Mat.mapEntries (· / w.factor ^ 2) (s.covarianceAt f).1, (s.covarianceAt f).2) := by
  have hcovariance := w.covariance_eq hf s.options.rankTolerance
  rw [Setting.covarianceAt, Setting.covarianceAt]
  change (embedCovariance (covariance f'.workspace f'.model.pivot s.options.rankTolerance).1 s.free,
    (covariance f'.workspace f'.model.pivot s.options.rankTolerance).2) = _
  rw [hcovariance]
  refine Prod.ext (ext_getElem fun p => ext_getElem fun q => ?_) rfl
  simp only [embedCovariance, Mat.mapEntries, Mat.getElem_ofFn, getElem_map]
  split
  · rfl
  · exact (zero_div _).symm

omit hf in
theorem standardErrors_eq (covar : Mat ℝ n n) :
    standardErrors (Mat.mapEntries (· / w.factor ^ 2) covar) =
      (standardErrors covar).map (· / w.factor) := by
  refine ext_getElem fun i => ?_
  simp only [standardErrors, Mat.diagonal, Mat.mapEntries, getElem_map, getElem_ofFn]
  change √(max 0 (_ / w.factor ^ 2)) = √(max 0 _) / w.factor
  have hmax : max 0 (covar[i][i] / w.factor ^ 2) = max 0 covar[i][i] / w.factor ^ 2 := by
    rw [← max_div_div_right (sq_nonneg w.factor), zero_div]
  rw [hmax, Real.sqrt_div' _ (sq_nonneg _), Real.sqrt_sq w.factor_pos.le]

omit hf in
theorem fullJacobian_eq (a : Mat ℝ m k) :
    (s.transform w.map).fullJacobian (a.mapColumns w.map) =
      (s.fullJacobian a).mapColumns w.map := by
  have hcolumn : ∀ p, (s.fullJacobian a).column p =
      ((lastIndex? s.free p).map a.column).getD (Vector.replicate m 0) := by
    intro p
    refine ext_getElem fun i => ?_
    rw [Mat.getElem_column, Setting.fullJacobian, Mat.getElem_ofFn]
    cases lastIndex? s.free p with
    | none => exact (getElem_replicate 0 i).symm
    | some c => exact (Mat.getElem_column a i c).symm
  refine ext_getElem fun i => ext_getElem fun p => ?_
  rw [← Mat.getElem_column ((s.fullJacobian a).mapColumns w.map), Mat.column_mapColumns, hcolumn,
    Setting.fullJacobian, Mat.getElem_ofFn]
  change ((lastIndex? s.free p).map ((a.mapColumns w.map)[i][·])).getD 0 = _
  cases lastIndex? s.free p with
  | none =>
      rw [Option.map_none, Option.map_none, Option.getD_none, Option.getD_none, w.map_zero,
        getElem_replicate]
  | some c =>
      rw [Option.map_some, Option.map_some, Option.getD_some, Option.getD_some,
        ← Mat.getElem_column (a.mapColumns w.map), Mat.column_mapColumns]

omit hf in
theorem sum_squares_map (r : Vector ℝ m) :
    Scalar.sum ((w.map r).map fun v => v * v).toList =
      w.factor ^ 2 * Scalar.sum (r.map fun v => v * v).toList := by
  have hdot := w.dot_map r r
  simp only [dot_eq, ← pow_two] at hdot
  rw [sum_squares, sum_squares, hdot]

theorem solutionOf_eq (names : Vector (Option String) n) (startNorm : ℝ)
    (evaluations jacobians : ℕ) :
    (s.transform w.map).solutionOf names (w.factor * startNorm) f' evaluations jacobians =
      w.solution (s.solutionOf names startNorm f evaluations jacobians) := by
  have hcovariance : ((s.transform w.map).covarianceAt f').1 =
      Mat.mapEntries (· / w.factor ^ 2) (s.covarianceAt f).1 := by
    rw [w.covarianceAt_eq hf]
  obtain ⟨p, a, hmodel, hmodel'⟩ := hf.model
  have hjacobian : f'.model.jacobian = f.model.jacobian.mapColumns w.map := by
    rw [hmodel, hmodel']
    exact w.jacobian_eq a
  have hpegged : f'.model.pegged = f.model.pegged := by
    rw [hmodel, hmodel']
    change (List.finRange k).countP (s.limits.isPegged ((w.conversion n k).free p.free)) = _
    rw [w.free_eq]
    rfl
  have hsquare : w.factor * startNorm * (w.factor * startNorm) =
      w.factor ^ 2 * (startNorm * startNorm) := by ring
  simp only [Setting.solutionOf, solution, hcovariance, w.standardErrors_eq, hf.point, hf.status,
    hjacobian, hpegged, w.fullJacobian_eq, hsquare]
  simp only [Conversion.iterate, conversion, id_eq, w.sum_squares_map]

theorem conclude_mirrors (names : Vector (Option String) n) (startNorm : ℝ) (j : Journal ℝ n) :
    Run.Mirrors (w.conversion n k) (fun solution solution' => solution' = w.solution solution)
      (s.conclude names startNorm f) ((s.transform w.map).conclude names (w.factor * startNorm) f')
      j := by
  have hrank : ((s.transform w.map).covarianceAt f').2 = (s.covarianceAt f).2 := by
    rw [w.covarianceAt_eq hf]
  have hnorm : (w.factor * startNorm) * (w.factor * startNorm) =
      w.factor ^ 2 * (startNorm * startNorm) := by ring
  have hlast : f'.point.norm * f'.point.norm = w.factor ^ 2 * (f.point.norm * f.point.norm) := by
    rw [hf.point]
    change w.factor * f.point.norm * (w.factor * f.point.norm) = _
    ring
  have hiterations : f'.point.iterations = f.point.iterations := by
    rw [hf.point]
    rfl
  have hfinish : ∀ i, Run.Mirrors (w.conversion n k) (fun _ _ => True)
      (do Run.log (.finished f.point.iterations (← Run.evaluations) f.status
        (startNorm * startNorm) (f.point.norm * f.point.norm)))
      (do Run.log (.finished f'.point.iterations (← Run.evaluations) f'.status
        (w.factor * startNorm * (w.factor * startNorm)) (f'.point.norm * f'.point.norm))) i := by
    intro i
    rw [hnorm, hlast, hiterations, hf.status]
    refine .bind .evaluations fun b b' _ _ _ hb => ?_
    subst hb
    exact .log (.finished f.point.iterations b f.status (startNorm * startNorm)
      (f.point.norm * f.point.norm))
  have hlog : Run.Mirrors (w.conversion n k) (fun _ _ => True) (s.logFinish startNorm f)
      ((s.transform w.map).logFinish (w.factor * startNorm) f') j := by
    unfold Setting.logFinish
    rw [hrank]
    dsimp only
    split
    · exact .bind (.log (.rankDeficient _ k)) fun _ _ i _ _ _ => hfinish i
    · exact hfinish j
  refine .bind hlog fun _ _ i _ _ _ => ?_
  refine .bind .evaluations fun b b' i _ _ hb => ?_
  refine .bind .jacobians fun d d' i _ _ hd => .pure ?_
  subst hb hd
  exact w.solutionOf_eq hf names startNorm b d

end Conclusion

theorem journal_eq (j : Journal ℝ n) : (w.conversion n k).journal j = j.scale w.factor := by
  have hcall : (w.conversion n k).call = id := by
    funext call
    cases call <;> rfl
  rw [Conversion.journal, hcall, Array.map_id]
  rfl

/-- A comparable search of transformed residuals gives the transformed solution and journal. -/
theorem search_eq {s : Setting ℝ n m k} {tall : k ≤ m} {trials : ℕ} {x : Vector ℝ n}
    (h : Setting.Comparable (w.conversion n k) s (s.transform w.map) tall trials x)
    (names : Vector (Option String) n) :
    ((s.transform w.map).search tall trials names x).outcome =
      ((s.search tall trials names x).outcome.1.map w.solution,
        (s.search tall trials names x).outcome.2.scale w.factor) := by
  have hmirrors : Run.Mirrors (w.conversion n k)
      (fun solution solution' => solution' = w.solution solution)
      (s.search tall trials names x) ((s.transform w.map).search tall trials names x) .empty := by
    rw [Setting.search_eq_approach, Setting.search_eq_approach]
    refine .bind h.approach_mirrors fun e e' i _ _ hend => ?_
    rw [hend.1]
    exact w.conclude_mirrors hend.2 names e.1.norm i
  obtain ⟨houtcome, hjournal⟩ := hmirrors
  have hempty : (w.conversion n k).journal .empty = .empty := by
    simp [Conversion.journal, Journal.empty]
  rw [hempty] at houtcome hjournal
  refine Prod.ext ?_ (hjournal.trans (w.journal_eq _))
  change (Run.resume ((s.transform w.map).search tall trials names x) .empty).1 =
    Except.map w.solution (Run.resume (s.search tall trials names x) .empty).1
  revert houtcome
  generalize (Run.resume (s.search tall trials names x) .empty).1 = outcome
  generalize (Run.resume ((s.transform w.map).search tall trials names x) .empty).1 = outcome'
  intro houtcome
  cases houtcome with
  | ok hsolution => exact congrArg _ hsolution
  | error => rfl

end Similarity

/-! ### Fits -/

section Fits

variable {store : Store ℝ} {f f' : ResidualFunction ℝ} {options : Options ℝ}
  {initial : Option (Array ℝ)} {trials : ℕ}

def Start.transfer (hcount : f'.count = f.count) (start : Start store f) : Start store f' :=
  ⟨start.mode, start.x, hcount.symm ▸ start.tall⟩

/-- The checks of a fit look at the number of residuals, and whether there is a Jacobian. -/
theorem prepare_transfer (hcount : f'.count = f.count)
    (hjacobian : f'.hasJacobian = f.hasJacobian) :
    prepare store f' options initial =
      (prepare store f options initial).map (Start.transfer hcount) := by
  have hmode : options.mode? f' = options.mode? f := by rw [Options.mode?, Options.mode?, hjacobian]
  unfold prepare
  cases options.validate with
  | error => rfl
  | ok =>
    cases store.startingVector initial with
    | error => rfl
    | ok x =>
      cases hcheck : store.check x with
      | error => simp [hcheck, Bind.bind, Except.bind, Except.map]
      | ok =>
        simp only [Bind.bind, Except.bind, hcheck]
        by_cases hfree : store.free.size = 0
        · rw [if_pos hfree, if_pos hfree]
          rfl
        · rw [if_neg hfree, if_neg hfree]
          by_cases tall : store.free.size ≤ f.count
          · have tall' : store.free.size ≤ f'.count := tall.trans_eq hcount.symm
            rw [dif_pos tall, dif_pos tall', hmode]
            cases options.checkScale store.size with
            | error => rfl
            | ok => cases options.mode? f <;> rfl
          · have tall' : ¬ store.free.size ≤ f'.count := fun h => tall (h.trans_eq hcount)
            rw [dif_neg tall, dif_neg tall', hcount]
            rfl

/-- A fit of transformed residuals, with the columns of the Jacobian transformed alike, gives the
transformed solution and journal, where the searches of the two are comparable. -/
theorem minimizeWithin_transform (w : Similarity f.count)
    {rows : {n : ℕ} → Mat ℝ f.count n → Mat ℝ f.count n}
    (hrows : ∀ {n : ℕ} (a : Mat ℝ f.count n), rows a = a.mapColumns w.map)
    (h : ∀ start, prepare store f options initial = .ok start →
      Setting.Comparable (w.conversion store.size store.free.size)
        (Setting.ofStore store f options start.mode)
        ((Setting.ofStore store f options start.mode).transform w.map) start.tall trials start.x) :
    minimizeWithin trials store ⟨f.count, fun x => (f.eval x).map w.map, f.hasJacobian,
        fun x => (f.jacobian x).map rows⟩ options initial =
      ((minimizeWithin trials store f options initial).1.map w.solution,
        (minimizeWithin trials store f options initial).2.scale w.factor) := by
  obtain rfl : @rows = fun {n : ℕ} (a : Mat ℝ f.count n) => a.mapColumns w.map :=
    funext fun n => funext hrows
  change minimizeWithin trials store (f.transform w.map) options initial = _
  have hcount : (f.transform w.map).count = f.count := rfl
  have hprepare : prepare store (f.transform w.map) options initial =
      (prepare store f options initial).map (Start.transfer hcount) := prepare_transfer hcount rfl
  cases hstart : prepare store f options initial with
  | error cause =>
      have hempty : (Journal.empty : Journal ℝ store.size).scale w.factor = .empty := by
        simp [Journal.scale, Journal.empty]
      rw [hstart] at hprepare
      rw [minimizeWithin_of_error hprepare, minimizeWithin_of_error hstart]
      exact Prod.ext rfl hempty.symm
  | ok start =>
      rw [hstart] at hprepare
      rw [minimizeWithin_of_start hprepare, minimizeWithin_of_start hstart]
      exact w.search_eq (h start hstart) store.names

end Fits

end LeastSquares
