import LeastSquares.Proofs.Counters
import LeastSquares.Proofs.Evaluations
import LeastSquares.Proofs.TiedStarts
import LeastSquares.Proofs.Workspace

/-!
The parts of a solution fit together. They come from different moments of a search: the parameters
and the residuals from the last step that was accepted, the Jacobian, the covariance and the errors
from the last iteration, whose steps may all have been rejected, and the first sum of squares from
the start. `LastJacobian` says what the Jacobian of the last iteration is, and `Solution.Coherent`
what each part is in terms of the residual function, the ties and that Jacobian.
-/

namespace LeastSquares

/-- The root of zero is zero, also after a comparison of zero with itself. -/
class ZeroRoot (α : Type) [Scalar α] : Prop where
  sqrt_max_zero : Scalar.sqrt (Scalar.max (0 : α) 0) = 0

instance : ZeroRoot Float where
  sqrt_max_zero := by
    have hmax : Scalar.max (0 : Float) 0 = 0 := ite_self 0
    rw [hmax]
    rfl

noncomputable instance : ZeroRoot ℝ where
  sqrt_max_zero := by
    change √(max 0 0) = 0
    rw [max_self, Real.sqrt_zero]

variable {α : Type} [NormedScalar α] {n m k : ℕ}

/-! ### The end of a search -/

namespace Setting

variable {s : Setting α n m k} {l : Linearization α m k} {scale : Vector α k} {cosine : α}
  {tall : k ≤ m} {trials : ℕ} {x : Vector α n}

theorem sameUpper_tryStep {p : Progress α n m k} {result : TrialResult α n m k} {j j' : Journal α n}
    (h : (s.tryStep l scale cosine p).resume j = (.ok result, j')) :
    result.progress.workspace.SameUpper p.workspace := by
  obtain ⟨r, i, -, -, rfl⟩ := tryStep_ok h
  exact StepModel.sameUpper_dampedStep _ _ _ _

theorem Tries.sameUpper {p q : Progress α n m k} {j j' : Journal α n}
    (h : s.Tries l scale cosine p j q j') : q.workspace.SameUpper p.workspace := by
  induction h with
  | first => exact .refl _
  | next _ hstep _ _ ih => exact (sameUpper_tryStep hstep).trans ih

/-- A search ends with the model of its last iteration, in a matrix that still holds the triangle of
the model, and no Jacobian is evaluated any more. -/
structure EndsWith (f : Finish α n m k) (l : Linearization α m k) (j j' : Journal α n) : Prop where
  model : f.model = l
  workspace : f.workspace.SameUpper l.r
  jacobians : j'.jacobians = j.jacobians

theorem advance_endsWith {c : Checkpoint α n m k} {f : Finish α n m k} {j j' : Journal α n}
    (h : (s.advance l trials c).resume j = (.ok (.inl f), j')) : EndsWith f l j j' := by
  rcases advance_cases h with ⟨_, -, hend, rfl, -⟩ | ⟨-, -, q, i, result, hq, hstep, hend⟩
  · cases hend
    exact ⟨rfl, .refl _, rfl⟩
  · rcases hend with ⟨-, hend⟩ | ⟨-, -, hend⟩
    · cases hend
      obtain ⟨t, hgrows⟩ := hq.grows
      exact ⟨rfl, (sameUpper_tryStep hstep).trans hq.sameUpper,
        (hgrows.trans (tryStep_adds i result j' hstep)).jacobians⟩
    · cases hend

/-- The Jacobian that a search from `x` evaluated last is `a`: an iteration that starts at the point
`p` asks for it, and the count of Jacobians then is that of the final journal `j`. The point has its
ties in place and carries the residuals found there. -/
structure LastJacobian (s : Setting α n m k) (tall : k ≤ m) (trials : ℕ) (x : Vector α n)
    (j : Journal α n) (p : Iterate α n m k) (a : Mat α m k) : Prop where
  settled : s.Settled p
  value : s.jacobianOf p.x p.residuals = .ok a
  last : ∃ c i i', c.point = p ∧ s.Visits tall trials x c i ∧
    (s.jacobianAt p.x p.residuals).resume i = (.ok a, i') ∧ i'.jacobians = j.jacobians

/-- The last iteration of a search that returns a solution: the checkpoint it starts from, the
Jacobian there, and how it ends. -/
theorem search_last {names : Vector (Option String) n} {solution : Solution α n m} {j : Journal α n}
    (h : (s.search tall trials names x).resume .empty = (.ok solution, j)) :
    ∃ start c i a i' f i'', (∃ i₀, (s.startAt x).resume .empty = (.ok start, i₀)) ∧
      s.Visits tall trials x c i ∧
      (s.jacobianAt c.point.x c.point.residuals).resume i = (.ok a, i') ∧
      (s.advance (.ofJacobian s.limits c.point a tall) trials
        (s.rescale (.ofJacobian s.limits c.point a tall) c)).resume i' = (.ok (.inl f), i'') ∧
      solution = s.solutionOf names start.norm f i''.evaluations i''.jacobians ∧
      ∃ log, j = { i'' with log } := by
  obtain ⟨start, i₀, c, i, f, i'', hstart, hc, hlast, hsolution, hlog⟩ := search_cases h
  obtain ⟨a, i', ha, hadvance⟩ := iteration_ok hlast
  exact ⟨start, c, i, a, i', f, i'', ⟨i₀, hstart⟩, hc, ha, hadvance, hsolution, hlog⟩

theorem search_coherent (hties : ∀ x, s.applyTies (s.applyTies x) = s.applyTies x)
    {names : Vector (Option String) n} {solution : Solution α n m} {j : Journal α n}
    (h : (s.search tall trials names x).resume .empty = (.ok solution, j)) :
    ∃ (start : Iterate α n m k) (c : Checkpoint α n m k) (i : Journal α n) (a : Mat α m k)
        (f : Finish α n m k) (evaluations jacobians : ℕ),
      (∃ j', (s.startAt x).resume .empty = (.ok start, j')) ∧ s.Visits tall trials x c i ∧
      s.LastJacobian tall trials x j c.point a ∧ s.Settled f.point ∧
      f.model = .ofJacobian s.limits c.point a tall ∧
      f.workspace.SameUpper (Linearization.ofJacobian s.limits c.point a tall).r ∧
      solution = s.solutionOf names start.norm f evaluations jacobians := by
  obtain ⟨start, c, i, a, i', f, i'', hstart, hc, ha, hadvance, rfl, log, rfl⟩ := search_last h
  have hsettled := settled_of_visits hties hc
  obtain ⟨hmodel, hworkspace, hjacobians⟩ := advance_endsWith hadvance
  exact ⟨start, c, i, a, f, _, _, hstart, hc,
    ⟨hsettled, (jacobianAt_computes _).eq_ok ha, c, i, i', rfl, hc, ha, hjacobians.symm⟩,
    (preserves_settled hties).iteration hsettled (Run.bind_ok.2 ⟨a, i', ha, hadvance⟩), hmodel,
    hworkspace, rfl⟩

end Setting

/-! ### What a solution is made of -/

theorem PivotedQR.sameUpper_workspace {α : Type} [Scalar α] (qr : PivotedQR α m n) :
    qr.workspace.SameUpper qr.r := by
  intro i j hij
  simp only [workspace, triangular, r, Mat.getElem_ofFn]
  rcases hij.lt_or_eq with hlt | rfl
  · have hne : i.castLE qr.tall ≠ j.castLE qr.tall := by
      simpa [Fin.ext_iff] using Fin.val_ne_of_ne hlt.ne
    rw [if_neg hne, if_pos hlt]
  · rw [if_pos rfl, if_neg (lt_irrefl _), if_pos rfl]

namespace Setting

/-- The covariance of the free parameters for the Jacobian `a` at the point `p`: columns that point
out of the limits count as zero. -/
def freeCovariance (s : Setting α n m k) (tall : k ≤ m) (p : Iterate α n m k) (a : Mat α m k) :
    Mat α k k :=
  let qr := PivotedQR.factor (s.limits.maskJacobian p.free a p.residuals) tall
  (covariance qr.r qr.pivot s.options.rankTolerance).1

end Setting

namespace Solution

/-- The Jacobian and the covariance of a solution are those of the Jacobian `a` at the point `p`, at
the places of the free parameters. -/
structure DerivesFrom (solution : Solution α n m) (s : Setting α n m k) (tall : k ≤ m)
    (p : Iterate α n m k) (a : Mat α m k) : Prop where
  jacobian : ∀ (i : Fin m) (c : Fin k), solution.jacobian[i][s.free[c]] = a[i][c]
  covariance : ∀ c d : Fin k,
    solution.covariance[s.free[c]][s.free[d]] = (s.freeCovariance tall p a)[c][d]

/-- The errors of a solution are the roots of its variances, and where a parameter is not free, its
column of the Jacobian, its row and its column of the covariance and its error are zero. -/
structure IsEmbedded (solution : Solution α n m) (isFree : Fin n → Bool) : Prop where
  errors : ∀ q : Fin n, solution.errors[q] = Scalar.sqrt (Scalar.max 0 solution.covariance[q][q])
  jacobian : ∀ (i : Fin m) (q : Fin n), isFree q = false → solution.jacobian[i][q] = 0
  covariance : ∀ q r : Fin n, isFree q = false ∨ isFree r = false → solution.covariance[q][r] = 0
  error : ∀ q : Fin n, isFree q = false → solution.errors[q] = 0

section SolutionOf

variable {s : Setting α n m k} {f : Finish α n m k} (names : Vector (Option String) n) (start : α)
  (evaluations jacobians : ℕ)

theorem derivesFrom_solutionOf {tall : k ≤ m} {p : Iterate α n m k} {a : Mat α m k}
    (hfree : Distinct s.free) (hmodel : f.model = .ofJacobian s.limits p a tall)
    (hworkspace : f.workspace.SameUpper (Linearization.ofJacobian s.limits p a tall).r) :
    (s.solutionOf names start f evaluations jacobians).DerivesFrom s tall p a := by
  have hcovariance : LeastSquares.covariance f.workspace f.model.pivot s.options.rankTolerance =
      LeastSquares.covariance
        (PivotedQR.factor (s.limits.maskJacobian p.free a p.residuals) tall).r
        (PivotedQR.factor (s.limits.maskJacobian p.free a p.residuals) tall).pivot
        s.options.rankTolerance := by
    rw [hmodel]
    exact covariance_congr (hworkspace.trans (PivotedQR.sameUpper_workspace _)) _ _
  refine ⟨fun i c => ?_, fun c d => ?_⟩
  · simp only [Setting.solutionOf, Setting.fullJacobian, Mat.getElem_ofFn]
    rw [lastIndex?_of_distinct hfree, hmodel]
    rfl
  · simp only [Setting.solutionOf, Setting.covarianceAt, embedCovariance, Mat.getElem_ofFn]
    rw [lastIndex?_of_distinct hfree, lastIndex?_of_distinct hfree, hcovariance]
    rfl

theorem isEmbedded_solutionOf [ZeroRoot α] {isFree : Fin n → Bool}
    (hfree : ∀ c : Fin k, isFree s.free[c] = true) :
    (s.solutionOf names start f evaluations jacobians).IsEmbedded isFree := by
  have hplace : ∀ q : Fin n, isFree q = false → lastIndex? s.free q = none := by
    intro q hq
    refine lastIndex?_eq_none fun c hc => ?_
    rw [← hc, hfree c] at hq
    cases hq
  have hcovariance : ∀ q r : Fin n, isFree q = false ∨ isFree r = false →
      (s.covarianceAt f).1[q][r] = 0 := by
    intro q r hqr
    simp only [Setting.covarianceAt, embedCovariance, Mat.getElem_ofFn]
    rcases hqr with hq | hr
    · rw [hplace q hq]
    · rw [hplace r hr]
      cases lastIndex? s.free q <;> rfl
  have herrors : ∀ q : Fin n, (standardErrors (s.covarianceAt f).1)[q] =
      Scalar.sqrt (Scalar.max 0 (s.covarianceAt f).1[q][q]) := by
    intro q
    rw [standardErrors, getElem_map, Mat.diagonal, getElem_ofFn]
  refine ⟨herrors, fun i q hq => ?_, hcovariance, fun q hq => ?_⟩
  · simp only [Setting.solutionOf, Setting.fullJacobian, Mat.getElem_ofFn]
    rw [hplace q hq]
    rfl
  · change (standardErrors (s.covarianceAt f).1)[q] = 0
    rw [herrors, hcovariance q q (.inl hq), ZeroRoot.sqrt_max_zero]

end SolutionOf

end Solution

/-! ### A whole fit -/

abbrev Start.setting {store : Store α} {function : ResidualFunction α}
    (start : Start store function) (options : Options α) :
    Setting α store.size function.count store.free.size :=
  .ofStore store function options start.mode

/-- What the parts of a solution are, after a search from `start` with the final journal `j`. -/
structure Solution.Coherent {store : Store α} {function : ResidualFunction α}
    (solution : Solution α store.size function.count) (start : Start store function)
    (options : Options α) (trials : ℕ) (j : Journal α store.size) : Prop where
  residuals : ∃ f, function.eval solution.parameters = .ok f ∧
    solution.residuals = f.map (start.setting options).dampen
  chiSquare : solution.chiSquare = Scalar.sum (solution.residuals.map fun r => r * r).toList
  /-- The first sum of squares is the square of the norm at the start, with its ties in place. -/
  startChiSquare : ∃ f, function.eval (store.applyTies start.x) = .ok f ∧
    solution.startChiSquare =
      (start.setting options).normOf (f.map (start.setting options).dampen) *
        (start.setting options).normOf (f.map (start.setting options).dampen)
  embedded : solution.IsEmbedded fun q => (store.get q).isFree
  derived : ∃ (p : Iterate α store.size function.count store.free.size)
      (a : Mat α function.count store.free.size),
    (start.setting options).LastJacobian start.tall trials start.x j p a ∧
    (∀ c : Fin store.free.size, p.free[c] = p.x[store.freePlaces[c]]) ∧
    solution.DerivesFrom (start.setting options) start.tall p a

theorem coherent_of_minimizeWithin [ZeroRoot α] {trials : ℕ} {store : Store α}
    {function : ResidualFunction α} {options : Options α} {initial : Option (Array α)}
    {solution : Solution α store.size function.count} {j : Journal α store.size}
    (hordered : store.TiesOrdered)
    (h : minimizeWithin trials store function options initial = (.ok solution, j)) :
    ∃ start, prepare store function options initial = .ok start ∧
      solution.Coherent start options trials j := by
  obtain ⟨start, hstart, hsearch⟩ := minimizeWithin_ok h
  have hties : ∀ x, (start.setting options).applyTies ((start.setting options).applyTies x) =
      (start.setting options).applyTies x := store.applyTies_applyTies hordered
  obtain ⟨first, c, i, a, f, evaluations, jacobians, ⟨j', hfirst⟩, hc, hlast, hsettled, hmodel,
    hworkspace, rfl⟩ := Setting.search_coherent hties hsearch
  refine ⟨start, hstart, hsettled.residuals, rfl, ?_, ?_, c.point, a, hlast, ?_, ?_⟩
  · obtain ⟨r, i, hr, rfl⟩ := Setting.startAt_ok hfirst
    obtain ⟨g, hg, rfl, -, -⟩ := Setting.residualsAt_ok.1 hr
    rw [hties] at hg
    exact ⟨g, hg, rfl⟩
  · exact Solution.isEmbedded_solutionOf _ _ _ _ store.isFree_freePlaces
  · exact Store.free_eq_of_visits hc
  · exact Solution.derivesFrom_solutionOf _ _ _ _ store.distinct_freePlaces hmodel hworkspace

/-- The parts of every solution fit together, whatever the residual function, the options and the
arithmetic, and also where no iteration is allowed, if ties read untied parameters and earlier ties
alone; in exact arithmetic the first sum of squares is that of the residuals at the start. -/
theorem solution_coherent :
    (∀ {α : Type} [NormedScalar α] [ZeroRoot α] {trials : ℕ} {store : Store α}
      {function : ResidualFunction α} {options : Options α} {initial : Option (Array α)}
      {solution : Solution α store.size function.count} {j : Journal α store.size},
      store.TiesOrdered →
      minimizeWithin trials store function options initial = (.ok solution, j) →
      ∃ start, prepare store function options initial = .ok start ∧
        solution.Coherent start options trials j) ∧
    ∀ {trials : ℕ} {store : Store ℝ} {function : ResidualFunction ℝ} {options : Options ℝ}
      {initial : Option (Array ℝ)} {solution : Solution ℝ store.size function.count}
      {j : Journal ℝ store.size},
      store.TiesOrdered →
      minimizeWithin trials store function options initial = (.ok solution, j) →
      ∃ start f, prepare store function options initial = .ok start ∧
        function.eval (store.applyTies start.x) = .ok f ∧
        solution.startChiSquare =
          ∑ l : Fin function.count, (start.setting options).dampen f[l] ^ 2 ∧
        solution.chiSquare = ∑ l : Fin function.count, solution.residuals[l] ^ 2 := by
  refine ⟨coherent_of_minimizeWithin, fun hordered h => ?_⟩
  obtain ⟨start, hstart, hcoherent⟩ := coherent_of_minimizeWithin hordered h
  obtain ⟨f, hf, hsquare⟩ := hcoherent.startChiSquare
  refine ⟨start, f, hstart, hf, ?_, ?_⟩
  · rw [hsquare, Setting.normOf_eq, ← pow_two, euclid_sq]
    exact Finset.sum_congr rfl fun l _ => by rw [getElem_map]
  · rw [hcoherent.chiSquare, sum_squares]

theorem Setting.search_of_no_iterations {n m k : ℕ} {s : Setting ℝ n m k}
    {residuals : Vector ℝ n → Vector ℝ m} (hmode : s.mode = .finiteDifference)
    (hlimit : s.options.maxIterations = 0) (heval : ∀ x, s.eval x = .ok (residuals x))
    (tall : k ≤ m) (trials : ℕ) (names : Vector (Option String) n) (x : Vector ℝ n) :
    ∃ solution j, (s.search tall trials names x).resume .empty = (.ok solution, j) := by
  obtain ⟨p, i, hp⟩ : ∃ p i, (s.startAt x).resume .empty = (.ok p, i) :=
    ⟨_, startAt_of_eval (heval (s.applyTies (s.applyTies x)))⟩
  obtain ⟨a, i', ha⟩ : ∃ a i', (s.jacobianAt p.x p.residuals).resume i = (.ok a, i') :=
    have ⟨i', ha, _⟩ := jacobianAt_of_eval hmode heval p.x p.residuals i
    ⟨_, i', ha⟩
  let l := Linearization.ofJacobian s.limits p a tall
  obtain ⟨f, hf⟩ := advance_of_no_iterations (l := l) trials
    (s.rescale l (s.firstCheckpoint p)) i' hlimit
  have hiteration : (s.iteration tall trials (s.firstCheckpoint p)).resume i = (.ok (.inl f), i') :=
    Run.bind_ok.2 ⟨a, i', ha, hf⟩
  obtain ⟨_, _, j, hsearch⟩ := search_of_first names hp hiteration
  exact ⟨_, j, hsearch⟩

theorem tiesOrdered_heldStore {α : Type} [Scalar α] : (heldStore (α := α)).TiesOrdered := by
  refine Store.tiesOrdered_of_take (Fin.forall_fin_succ.2 ⟨nofun, Fin.forall_fin_two.2 ⟨nofun, ?_⟩⟩)
  rintro t ⟨⟩
  exact ⟨Scalar.sum, fun _ => rfl⟩

/-- Options under which residuals are damped, and no iteration is made. -/
noncomputable def damped : Options ℝ :=
  { (.default : Options ℝ) with damp := 1, maxIterations := 0 }

theorem solution_coherent_held :
    (∃ (solution : Solution Float 3 2) (j : Journal Float 3),
      minimizeWithin 2 heldStore basin fiveEvaluations none = (.ok solution, j) ∧
        (heldStore (α := Float)).TiesOrdered ∧ solution.iterations = 1 ∧ j.trials = 2 ∧
        ∃ start, prepare heldStore basin fiveEvaluations none = .ok start ∧
          solution.Coherent start fiveEvaluations 2 j) ∧
    ∃ (solution : Solution ℝ 3 2) (j : Journal ℝ 3),
      minimizeWithin 1 heldStore basin damped (some #[1, 2, 0]) = (.ok solution, j) ∧
      (heldStore (α := ℝ)).TiesOrdered ∧
      (∃ start, prepare heldStore basin damped (some #[1, 2, 0]) = .ok start ∧
        solution.Coherent start damped 1 j) ∧
      ∃ start f, prepare heldStore basin damped (some #[1, 2, 0]) = .ok start ∧
        basin.eval (heldStore.applyTies start.x) = .ok f ∧
        solution.startChiSquare = ∑ l : Fin 2, (start.setting damped).dampen f[l] ^ 2 ∧
        solution.chiSquare = ∑ l : Fin 2, solution.residuals[l] ^ 2 := by
  have hordered := tiesOrdered_heldStore (α := ℝ)
  have hprepared : prepare (heldStore (α := ℝ)) basin damped (some #[1, 2, 0]) =
      .ok ⟨.finiteDifference, #v[1, 2, 0], by decide⟩ := by
    refine prepare_eq_ok (Options.validate_ok.2 ?_) rfl (Store.check_ok.2 ?_) (by decide)
      (by decide) rfl rfl
    · exact { inRange_default with damp := Options.isTolerance_iff.2 zero_le_one }
    · exact Store.within_iff.2 (Fin.forall_fin_succ.2 ⟨fun _ => ⟨nofun, nofun⟩,
        Fin.forall_fin_two.2 ⟨fun _ => ⟨nofun, nofun⟩, nofun⟩⟩)
  obtain ⟨solution, j, hsearch⟩ := Setting.search_of_no_iterations
    (s := Setting.ofStore heldStore basin damped .finiteDifference) rfl rfl (fun _ => rfl)
    (by decide) 1 heldStore.names #v[1, 2, 0]
  have hrun : minimizeWithin 1 heldStore basin damped (some #[1, 2, 0]) = (.ok solution, j) :=
    (minimizeWithin_of_start hprepared 1).trans hsearch
  refine ⟨?_, solution, j, hrun, hordered, solution_coherent.1 hordered hrun,
    solution_coherent.2 hordered hrun⟩
  obtain ⟨solution, j, hrun, hiterations, -, htrials⟩ := exists_two_trials
  exact ⟨solution, j, hrun, tiesOrdered_heldStore, hiterations, htrials,
    solution_coherent.1 tiesOrdered_heldStore hrun⟩

end LeastSquares
