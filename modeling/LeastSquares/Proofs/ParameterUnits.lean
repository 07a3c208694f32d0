import LeastSquares.Proofs.TransformedResiduals
import LeastSquares.Proofs.ExactModel

/-!
The units of the parameters. Without limits, caps and ties, and with Jacobians of full rank, a fit
of parameters in other units makes the same decisions, and ends with the same residuals at the same
point, but for the units. The scale that the search takes from the columns of the Jacobian makes up
for them: what depends on the units is the order of the pivots and with it every entry of the
triangle, but not the normal equations that the triangle stands for.
-/

namespace LeastSquares

open Matrix

variable {n m k : ℕ}

/-! ### Definitions -/

noncomputable def inUnits (u : ℕ → ℝ) (x : Vector ℝ n) : Vector ℝ n :=
  Vector.ofFn fun i => x[i] / u i

noncomputable def ofUnits (u : ℕ → ℝ) (x : Vector ℝ n) : Vector ℝ n :=
  Vector.ofFn fun i => u i * x[i]

/-- The residuals as a function of the measures of the parameters. -/
noncomputable def ResidualFunction.inUnits (f : ResidualFunction ℝ) (u : ℕ → ℝ) :
    ResidualFunction ℝ where
  count := f.count
  eval x := f.eval (ofUnits u x)
  hasJacobian := f.hasJacobian
  jacobian x := (f.jacobian (ofUnits u x)).map fun a => a.map (ofUnits u)

noncomputable def Setting.inUnits (s : Setting ℝ n m k) (u : ℕ → ℝ) : Setting ℝ n m k :=
  { s with
    eval := fun x => s.eval (ofUnits u x)
    jacobian := fun x => (s.jacobian (ofUnits u x)).map fun a => a.map (ofUnits u) }

noncomputable def Call.inUnits (u : ℕ → ℝ) : Call ℝ n → Call ℝ n
  | .residuals purpose x => .residuals purpose (LeastSquares.inUnits u x)
  | .jacobian x => .jacobian (LeastSquares.inUnits u x)

/-- Whether a message is about the rank of the last Jacobian, which is found with a tolerance. -/
def LogEntry.isRank {α : Type} : LogEntry α → Bool
  | .rankDeficient _ _ => true
  | _ => false

structure Solution.Matches (u : ℕ → ℝ) (solution solution' : Solution ℝ n m) : Prop where
  parameters : solution'.parameters = inUnits u solution.parameters
  status : solution'.status = solution.status
  iterations : solution'.iterations = solution.iterations
  evaluations : solution'.evaluations = solution.evaluations
  jacobians : solution'.jacobians = solution.jacobians
  residuals : solution'.residuals = solution.residuals
  chiSquare : solution'.chiSquare = solution.chiSquare
  startChiSquare : solution'.startChiSquare = solution.startChiSquare

/-- The same calls in other units, and the same trial steps, accepted and rejected. -/
structure Journal.Matches (u : ℕ → ℝ) (j j' : Journal ℝ n) : Prop where
  calls : j'.calls = j.calls.map (Call.inUnits u)
  evaluations : j'.evaluations = j.evaluations
  jacobians : j'.jacobians = j.jacobians
  log : j'.log.filter (!·.isRank) = j.log.filter (!·.isRank)

/-- Every parameter is free, and has neither limits nor a cap. -/
structure Store.Unconstrained (store : Store ℝ) : Prop where
  free : ∀ i, (store.get i).isFree = true
  lower : ∀ i, (store.get i).bounds.lower = none
  upper : ∀ i, (store.get i).bounds.upper = none
  maxStep : ∀ i, (store.get i).maxStep = none

/-! ### Units -/

section Units

variable {u : ℕ → ℝ} (hu : ∀ i, 0 < u i)

@[simp] theorem getElem_inUnits (x : Vector ℝ n) (i : Fin n) : (inUnits u x)[i] = x[i] / u i := by
  rw [inUnits, getElem_ofFn]

@[simp] theorem getElem_ofUnits (x : Vector ℝ n) (i : Fin n) : (ofUnits u x)[i] = u i * x[i] := by
  rw [ofUnits, getElem_ofFn]

include hu in
theorem ofUnits_inUnits (x : Vector ℝ n) : ofUnits u (inUnits u x) = x := by
  refine ext_getElem fun i => ?_
  rw [getElem_ofUnits, getElem_inUnits, mul_div_cancel₀ _ (hu i).ne']

noncomputable def Store.conversion (store : Store ℝ) (m : ℕ) :
    Conversion store.size m store.free.size where
  point := inUnits u
  residuals := id
  factor := 1
  unit c := u store.freePlaces[c]
  factor_pos := Real.zero_lt_one
  unit_pos _ := hu _
  dot_residuals _ _ := by rw [one_pow, one_mul, id, id]

end Units

/-! ### Converted evaluations -/

namespace Store.Unconstrained

variable {store : Store ℝ} {f : ResidualFunction ℝ} {options : Options ℝ}
  (h : store.Unconstrained)

include h

theorem untied (i : Fin store.size) : (store.get i).tie = none := by
  have hfree := h.free i
  rw [Parameter.isFree, Bool.and_eq_true, Bool.not_eq_true', Bool.not_eq_true'] at hfree
  exact Store.isTied_eq_false.1 hfree.2

theorem unlimited (mode : JacobianMode) :
    (Setting.ofStore store f options mode).limits.Unlimited where
  lower c := (Store.lower_ofStore c).trans (h.lower _)
  upper c := (Store.upper_ofStore c).trans (h.upper _)
  maxStep c := (Store.maxStep_ofStore c).trans (h.maxStep _)

variable {u : ℕ → ℝ} (hu : ∀ i, 0 < u i)

theorem applyTies_inUnits (x : Vector ℝ store.size) :
    store.applyTies (inUnits u x) = inUnits u (store.applyTies x) := by
  rw [applyTies_of_untied h.untied, applyTies_of_untied h.untied]

theorem residualsAt_mirrors (mode : JacobianMode) (purpose : Purpose) (x : Vector ℝ store.size)
    (j : Journal ℝ store.size) :
    Run.Mirrors (store.conversion hu f.count) (fun r r' => r' = r)
      ((Setting.ofStore store f options mode).residualsAt purpose x)
      (((Setting.ofStore store f options mode).inUnits u).residualsAt purpose (inUnits u x)) j := by
  have hfinite (r : Vector ℝ f.count) : (!options.finiteCheck || r.all Scalar.isFinite) = true := by
    rw [all_isFinite, Bool.or_true]
  have hrecord : Run.Mirrors (store.conversion hu f.count) (fun _ _ => True)
      (Run.record (.residuals purpose (store.applyTies x)))
      (Run.record (.residuals purpose (store.applyTies (inUnits u x)))) j := by
    rw [h.applyTies_inUnits]
    exact .record (.residuals purpose (store.applyTies x))
  refine .bind hrecord fun _ _ i _ _ _ => ?_
  have heval : Run.Mirrors (store.conversion hu f.count) (fun r r' => r' = r)
      (Run.ofExcept (f.eval (store.applyTies x)))
      (Run.ofExcept (f.eval (ofUnits u (store.applyTies (inUnits u x))))) i := by
    rw [h.applyTies_inUnits, ofUnits_inUnits hu]
    have hsame := Run.Mirrors.ofExcept (v := store.conversion hu f.count) (j := i)
      (e := f.eval (store.applyTies x)) id
    rwa [Except.map_id, id] at hsame
  refine .bind heval fun r r' i _ _ hr => ?_
  refine .bind .countEvaluation fun _ _ i _ _ _ => ?_
  refine .bind (.require (hfinite _) (hfinite _)) fun _ _ i _ _ _ => .pure ?_
  rw [hr]
  rfl

theorem analyticJacobian_mirrors (x : Vector ℝ store.size) (j : Journal ℝ store.size) :
    Run.Mirrors (store.conversion hu f.count)
      (fun a a' => a' = (store.conversion hu f.count).jacobian a)
      ((Setting.ofStore store f options .analytic).analyticJacobian x)
      (((Setting.ofStore store f options .analytic).inUnits u).analyticJacobian (inUnits u x))
      j := by
  have hrecord : Run.Mirrors (store.conversion hu f.count) (fun _ _ => True)
      (Run.record (.jacobian (store.applyTies x)))
      (Run.record (.jacobian (store.applyTies (inUnits u x)))) j := by
    rw [h.applyTies_inUnits]
    exact .record (.jacobian (store.applyTies x))
  refine .bind hrecord fun _ _ i _ _ _ => ?_
  have hfull : Run.Mirrors (store.conversion hu f.count) (fun a a' => a' = a.map (ofUnits u))
      (Run.ofExcept (f.jacobian (store.applyTies x)))
      (Run.ofExcept ((f.jacobian (ofUnits u (store.applyTies (inUnits u x)))).map
        fun a => a.map (ofUnits u))) i := by
    rw [h.applyTies_inUnits, ofUnits_inUnits hu]
    exact .ofExcept _
  refine .bind hfull fun a a' i _ _ ha => .pure ?_
  subst ha
  refine ext_getElem fun l => ext_getElem fun c => ?_
  rw [(store.conversion hu f.count).getElem_jacobian, Mat.getElem_ofFn, getElem_map,
    getElem_ofUnits]
  refine congrArg _ (Eq.symm ?_)
  exact (Mat.getElem_column _ l c).trans (Mat.getElem_ofFn _ l c)

theorem move_eq (mode : JacobianMode) (x step : Vector ℝ store.free.size) :
    (Setting.ofStore store f options mode).move x step =
      ⟨1, step.map (- ·), Vector.zipWith (· + ·) x (step.map (- ·))⟩ := by
  have hunlimited : (Setting.ofStore store f options mode).limits.Unlimited := h.unlimited mode
  unfold Setting.move
  rw [hunlimited.restrict_eq]
  dsimp only
  rw [hunlimited.snap_eq]

theorem converts (hscale : options.scale = none) :
    (Setting.ofStore store f options .analytic).Converts (store.conversion hu f.count)
      ((Setting.ofStore store f options .analytic).inUnits u) where
  options := rfl
  mode := rfl
  chosenScale := .inl hscale
  residualsAt := h.residualsAt_mirrors hu .analytic
  jacobianAt x fx j :=
    .jacobianAt rfl (fun _ i => h.analyticJacobian_mirrors hu x i) nofun
  applyTies := h.applyTies_inUnits
  freePart x := by
    refine ext_getElem fun c => ?_
    rw [(store.conversion hu f.count).getElem_free]
    refine (getElem_map _ _ c).trans ((getElem_inUnits x _).trans ?_)
    exact congrArg (· / _) (getElem_map (x[·]) _ c).symm
  withFree x t := by
    refine ext_getElem fun i => ?_
    obtain ⟨c, rfl⟩ := store.exists_freePlaces (h.free i)
    refine (getElem_overwrite_place store.distinct_freePlaces _ _ c).trans ?_
    rw [(store.conversion hu f.count).getElem_free]
    refine Eq.trans ?_ (getElem_inUnits _ _).symm
    exact congrArg (· / _) (getElem_overwrite_place store.distinct_freePlaces x t c).symm
  move x step := by
    have hmove : ∀ x step, ((Setting.ofStore store f options .analytic).inUnits u).move x step =
        (Setting.ofStore store f options .analytic).move x step := fun _ _ => rfl
    have hneg : ((store.conversion hu f.count).free step).map (- ·) =
        (store.conversion hu f.count).free (step.map (- ·)) := by
      refine ext_getElem fun c => ?_
      rw [getElem_map, Conversion.getElem_free, Conversion.getElem_free, getElem_map, neg_div]
    rw [hmove, h.move_eq, h.move_eq, Conversion.move, hneg]
    refine congrArg _ (ext_getElem fun c => ?_)
    simp only [getElem_zipWith, Conversion.getElem_free, add_div]
  outward x a r c := by
    have hunlimited : (Setting.ofStore store f options .analytic).limits.Unlimited :=
      h.unlimited .analytic
    have hoff : ∀ (x : Vector ℝ store.free.size) (a : Mat ℝ f.count store.free.size)
        (r : Vector ℝ f.count),
        (Setting.ofStore store f options .analytic).limits.pointsOutward x a r c = false := by
      intro x a r
      rw [StepLimits.pointsOutward, hunlimited.atLower_eq, hunlimited.atUpper_eq]
      rfl
    exact (hoff _ _ _).trans (hoff _ _ _).symm
  pegged x c := by
    have hunlimited : (Setting.ofStore store f options .analytic).limits.Unlimited :=
      h.unlimited .analytic
    have hoff : ∀ x, (Setting.ofStore store f options .analytic).limits.isPegged x c = false := by
      intro x
      rw [StepLimits.isPegged, hunlimited.atLower_eq, hunlimited.atUpper_eq, Bool.or_false]
    exact (hoff _).trans (hoff _).symm

end Store.Unconstrained

/-! ### Searches -/

/-- The Jacobians that the search from `x` takes have full column rank. -/
def Setting.FullRank (s : Setting ℝ n m k) (tall : k ≤ m) (trials : ℕ) (x : Vector ℝ n) : Prop :=
  ∀ c j a i, s.Visits tall trials x c j →
    (s.jacobianAt c.point.x c.point.residuals).resume j = (.ok a, i) →
      ∀ w, a.toMatrix *ᵥ w = 0 → w = 0

theorem euclid_column_ne_zero {a : Mat ℝ m k} (h : ∀ w, a.toMatrix *ᵥ w = 0 → w = 0) (e : Fin k) :
    euclid (a.column e) ≠ 0 := by
  intro hzero
  have hsingle : a.toMatrix *ᵥ Pi.single e 1 = 0 := by
    ext l
    rw [mulVec_single_one]
    exact (Mat.getElem_column a l e).symm.trans (euclid_eq_zero.1 hzero l)
  have hone : (Pi.single e 1 : Fin k → ℝ) e = 0 := by
    rw [h _ hsingle]
    rfl
  rw [Pi.single_eq_same] at hone
  exact one_ne_zero hone

section Fits

variable {store : Store ℝ} {f : ResidualFunction ℝ} {options : Options ℝ} {trials : ℕ}
  {u : ℕ → ℝ} {x : Vector ℝ store.size} {tall : store.free.size ≤ f.count}

theorem comparable_inUnits (hu : ∀ i, 0 < u i) (hstore : store.Unconstrained)
    (hscale : options.scale = none) (hoptions : options.InRange)
    (hrank : (Setting.ofStore store f options .analytic).FullRank tall trials x) :
    Setting.Comparable (store.conversion hu f.count) (Setting.ofStore store f options .analytic)
      ((Setting.ofStore store f options .analytic).inUnits u) tall trials x where
  converts := hstore.converts hu hscale
  inRange := hoptions
  regular := by
    refine .inr fun c j a i hc ha w hw => hrank c j a i hc ha w ?_
    rwa [(hstore.unlimited .analytic).masked_eq] at hw
  first := by
    refine .inr fun c j a i hc _ ha => ⟨fun e => ?_, .inl rfl⟩
    rw [Setting.columnNorms_modelAt ((hstore.unlimited .analytic).inward _ _ e)]
    exact euclid_column_ne_zero (hrank c j a i hc ha) e
  idle := .inl rfl

/-- The end of a search adds one message to the log beside that about the rank. -/
theorem Setting.resume_conclude (s : Setting ℝ n m k) (names : Vector (Option String) n) (start : ℝ)
    (e : Finish ℝ n m k) (j : Journal ℝ n) :
    ∃ log, (s.conclude names start e).resume j =
        (.ok (s.solutionOf names start e j.evaluations j.jacobians), { j with log }) ∧
      log.filter (!·.isRank) = (j.log.filter (!·.isRank)).push
        (.finished e.point.iterations j.evaluations e.status (start * start)
          (e.point.norm * e.point.norm)) := by
  have hkept : ∀ (log : Array (LogEntry ℝ)) (last : LogEntry ℝ), last.isRank = false →
      (log.push last).filter (!·.isRank) = (log.filter (!·.isRank)).push last :=
    fun log last hlast => Array.filter_push_of_pos (by rw [hlast]; rfl) (Array.size_push last)
  by_cases h : (s.covarianceAt e).2 < k
  · have hdropped : (j.log.push (.rankDeficient (s.covarianceAt e).2 k)).filter (!·.isRank) =
        j.log.filter (!·.isRank) := Array.filter_push_of_neg Bool.false_ne_true (Array.size_push _)
    refine ⟨(j.log.push (.rankDeficient (s.covarianceAt e).2 k)).push (.finished e.point.iterations
      j.evaluations e.status (start * start) (e.point.norm * e.point.norm)), ?_, ?_⟩
    · simp only [conclude, logFinish, h, if_true, Run.resume_bind, Run.resume_log,
        Run.resume_evaluations]
      rfl
    · rw [hkept _ _ rfl, hdropped]
  · refine ⟨_, ?_, hkept j.log _ rfl⟩
    simp only [conclude, logFinish, h, if_false, Run.resume_bind, Run.resume_log,
      Run.resume_evaluations]
    rfl

section Conclusion

variable {s s' : Setting ℝ n m k} {v : Conversion n m k} {tall : k ≤ m} {e e' : Finish ℝ n m k}
  {j : Journal ℝ n}
  (hpoint : v.point = inUnits u) (hfactor : v.factor = 1) (hresiduals : v.residuals = id)

include hpoint hfactor

theorem journal_matches (j : Journal ℝ n) : j.Matches u (v.journal j) where
  calls := by
    have hcall : v.call = Call.inUnits u := by
      funext call
      cases call <;> rw [Conversion.call, Call.inUnits, hpoint]
    rw [Conversion.journal, hcall]
  evaluations := rfl
  jacobians := rfl
  log := by
    have hid : LogEntry.scale v.factor = id := by
      rw [hfactor]
      exact funext LogEntry.scale_one
    rw [Conversion.journal, hid, Array.map_id]

include hresiduals

theorem solutionOf_matches (he : e.Converts v s s' tall e') (names : Vector (Option String) n)
    (start : ℝ) (evaluations jacobians : ℕ) :
    (s.solutionOf names start e evaluations jacobians).Matches u
      (s'.solutionOf names (v.factor * start) e' evaluations jacobians) where
  parameters := by
    change e'.point.x = inUnits u e.point.x
    rw [he.point, ← hpoint]
    rfl
  status := he.status
  iterations := by
    change e'.point.iterations = e.point.iterations
    rw [he.point, Conversion.iterate]
  evaluations := rfl
  jacobians := rfl
  residuals := by
    change e'.point.residuals = e.point.residuals
    rw [he.point, Conversion.iterate, hresiduals, id]
  chiSquare := by
    change Scalar.sum (e'.point.residuals.map fun r => r * r).toList = _
    rw [he.point, Conversion.iterate, hresiduals, id]
    rfl
  startChiSquare := by
    change v.factor * start * (v.factor * start) = start * start
    rw [hfactor, one_mul]

theorem conclude_matches (he : e.Converts v s s' tall e') (names : Vector (Option String) n)
    (start : ℝ) (j : Journal ℝ n) :
    Run.Corresponds (Solution.Matches u) ((s.conclude names start e).resume j).1
        ((s'.conclude names (v.factor * start) e').resume (v.journal j)).1 ∧
      ((s.conclude names start e).resume j).2.Matches u
        ((s'.conclude names (v.factor * start) e').resume (v.journal j)).2 := by
  have hmatches := journal_matches hpoint hfactor j
  obtain ⟨log, hend, hlog⟩ := s.resume_conclude names start e j
  obtain ⟨log', hend', hlog'⟩ := s'.resume_conclude names (v.factor * start) e' (v.journal j)
  rw [hend, hend']
  refine ⟨.ok (solutionOf_matches hpoint hfactor hresiduals he names start _ _),
    hmatches.calls, rfl, rfl, ?_⟩
  rw [hlog, hlog', hmatches.log, hmatches.evaluations, he.point, he.status, Conversion.iterate]
  simp only [hfactor, one_mul]

end Conclusion

theorem search_inUnits (hu : ∀ i, 0 < u i) {s : Setting ℝ store.size f.count store.free.size}
    (h : Setting.Comparable (store.conversion hu f.count) s (s.inUnits u) tall trials x)
    (names : Vector (Option String) store.size) :
    Run.Corresponds (Solution.Matches u) (s.search tall trials names x).outcome.1
        ((s.inUnits u).search tall trials names (inUnits u x)).outcome.1 ∧
      (s.search tall trials names x).outcome.2.Matches u
        ((s.inUnits u).search tall trials names (inUnits u x)).outcome.2 := by
  obtain ⟨hend, hjournal⟩ := h.approach_mirrors
  have hempty : (store.conversion hu f.count).journal .empty = .empty := by
    simp [Conversion.journal, Journal.empty]
  rw [hempty] at hend hjournal
  rw [Setting.search_eq_approach, Setting.search_eq_approach, Run.outcome, Run.outcome,
    Run.resume_bind, Run.resume_bind]
  change Run.Corresponds _ _
    (((s.inUnits u).approach tall trials (inUnits u x)).resume .empty).1 at hend
  change (((s.inUnits u).approach tall trials (inUnits u x)).resume .empty).2 = _ at hjournal
  generalize (s.approach tall trials x).resume .empty = reached at hend hjournal ⊢
  generalize ((s.inUnits u).approach tall trials (inUnits u x)).resume .empty = reached'
    at hend hjournal ⊢
  obtain ⟨outcome, j⟩ := reached
  obtain ⟨outcome', j'⟩ := reached'
  obtain rfl : j' = _ := hjournal
  cases hend with
  | error => exact ⟨.error, journal_matches rfl rfl j⟩
  | @ok e e' he =>
      have hnorm : e'.1.norm = 1 * e.1.norm := congrArg Iterate.norm he.1
      dsimp only
      rw [hnorm]
      exact conclude_matches rfl rfl rfl he.2 names e.1.norm j

theorem startingVector_toArray (y : Vector ℝ store.size) :
    store.startingVector (some y.toArray) = .ok y :=
  dif_pos y.size_toArray

theorem Store.Unconstrained.check_eq (h : store.Unconstrained) (y : Vector ℝ store.size) :
    store.check y = .ok () := by
  refine Store.check_ok.2 (Store.within_iff.2 fun i _ => ?_)
  rw [h.lower, h.upper]
  exact ⟨nofun, nofun⟩

/-- The units of the parameters do not matter, if nothing but the residuals limits the steps and no
scale is given. The Jacobian must be analytic, as the step of a difference is not in the units of
its parameter, and of full rank at every point that the fit visits: of a step that the residuals do
not determine, the fit takes a part that the order of the pivots decides. Its calls are those of the
other fit in other units, and so are the parameters that it ends with; it accepts and rejects alike,
and the residuals and what they are counted and judged by are the same. -/
theorem minimizeWithin_inUnits (hu : ∀ i, 0 < u i) (hstore : store.Unconstrained)
    (hscale : options.scale = none) (hmode : options.mode? f ≠ .ok .finiteDifference)
    (hrank : ∀ start, prepare store f options (some x.toArray) = .ok start →
      (Setting.ofStore store f options .analytic).FullRank start.tall trials x) :
    Run.Corresponds (Solution.Matches u)
        (minimizeWithin trials store f options (some x.toArray)).1
        (minimizeWithin trials store (f.inUnits u) options (some (inUnits u x).toArray)).1 ∧
      (minimizeWithin trials store f options (some x.toArray)).2.Matches u
        (minimizeWithin trials store (f.inUnits u) options (some (inUnits u x).toArray)).2 := by
  have hcount : (f.inUnits u).count = f.count := rfl
  have hcheck : store.check x = store.check (inUnits u x) := by
    rw [hstore.check_eq, hstore.check_eq]
  unfold minimizeWithin
  rw [prepare_transfer hcount rfl, prepare_of_check (startingVector_toArray x)
    (startingVector_toArray (inUnits u x)) hcheck]
  cases hstart : prepare store f options (some x.toArray) with
  | error cause => exact ⟨.error, Array.map_empty.symm, rfl, rfl, rfl⟩
  | ok start =>
      obtain ⟨hvalid, hx, -, -, hmode'⟩ := prepare_ok hstart
      obtain ⟨mode, y, tall⟩ := start
      obtain rfl : mode = .analytic := by
        cases mode with
        | analytic => rfl
        | finiteDifference => exact absurd hmode' hmode
      obtain rfl : y = x := Except.ok.inj (hx.symm.trans (startingVector_toArray x))
      exact search_inUnits hu (comparable_inUnits hu hstore hscale (Options.validate_ok.1 hvalid)
        (hrank _ hstart)) store.names

end Fits

namespace Skew

noncomputable abbrev columns : Mat ℝ 2 2 := Mat.ofFn fun i j => if j < i then 0 else 1

noncomputable abbrev offset : Vector ℝ 2 := #v[-1, 1]

/-- The residuals `p + q - 1` and `q + 1`. -/
noncomputable abbrev function : ResidualFunction ℝ := .ofAffine columns offset

noncomputable abbrev store : Store ℝ := ⟨#[.ofValue 1, .ofValue 1]⟩

theorem unconstrained : store.Unconstrained where
  free := Fin.forall_fin_two.2 ⟨rfl, rfl⟩
  lower := Fin.forall_fin_two.2 ⟨rfl, rfl⟩
  upper := Fin.forall_fin_two.2 ⟨rfl, rfl⟩
  maxStep := Fin.forall_fin_two.2 ⟨rfl, rfl⟩

noncomputable def setting : Setting ℝ 2 2 2 := .ofStore store function .default .analytic

theorem fullRank (trials : ℕ) : setting.FullRank le_rfl trials #v[1, 1] := by
  intro c j a i _ ha w hw
  have hentry : ∀ l e : Fin 2, a[l][e] = columns[l][e] := by
    intro l e
    obtain ⟨full, hfull, rfl⟩ := Setting.jacobianAt_analytic_ok (s := setting) rfl ha
    cases hfull.symm.trans ((ResidualFunction.isAffine_ofAffine columns offset).jacobian c.point.x)
    rw [Mat.getElem_ofFn]
    fin_cases e <;> rfl
  have hrow : ∀ l : Fin 2, columns[l][(0 : Fin 2)] * w 0 + columns[l][(1 : Fin 2)] * w 1 = 0 := by
    intro l
    rw [← hentry, ← hentry]
    exact (Fin.sum_univ_two fun e => a[l][e] * w e).symm.trans (congrFun hw l)
  have hlast : 0 * w 0 + 1 * w 1 = 0 := hrow 1
  have hfirst : 1 * w 0 + 1 * w 1 = 0 := hrow 0
  funext e
  fin_cases e
  · change w 0 = 0
    linarith
  · change w 1 = 0
    linarith

noncomputable def units (i : ℕ) : ℝ := i + 1

end Skew

/-- A fit of two parameters, one of them in other units. -/
theorem minimizeWithin_inUnits_skew :
    Run.Corresponds (Solution.Matches Skew.units)
        (minimizeWithin 100 Skew.store Skew.function .default (some #[1, 1])).1
        (minimizeWithin 100 Skew.store (Skew.function.inUnits Skew.units) .default
          (some (inUnits Skew.units #v[1, 1]).toArray)).1 ∧
      (minimizeWithin 100 Skew.store Skew.function .default (some #[1, 1])).2.Matches Skew.units
        (minimizeWithin 100 Skew.store (Skew.function.inUnits Skew.units) .default
          (some (inUnits Skew.units #v[1, 1]).toArray)).2 := by
  have hmode : (Options.default : Options ℝ).mode? Skew.function ≠ .ok .finiteDifference := by
    rw [mode_default rfl]
    nofun
  refine minimizeWithin_inUnits (x := #v[1, 1]) (fun i => Nat.cast_add_one_pos i)
    Skew.unconstrained rfl hmode ?_
  exact fun _ _ => Skew.fullRank 100

end LeastSquares
