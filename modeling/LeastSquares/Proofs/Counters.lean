import LeastSquares.Proofs.Differences
import LeastSquares.Proofs.TrialBounds

/-!
The counters of a search. Residuals are counted where they are evaluated, Jacobians where they are
asked for, and iterations where a step is accepted; limits are looked at after a trial step and
nowhere else. `Run.Adds` says what a run that succeeds adds to each counter, with one rule for each
way to build a run, so that the counts of a search follow its text: `Counted` is what holds of them
at every checkpoint, whatever the numbers are and in any arithmetic.
-/

namespace LeastSquares

variable {α : Type} {n m k : ℕ}

namespace Call

def succeeds (eval : Vector α n → Except (FitError α) (Vector α m)) : Call α n → Bool
  | .residuals _ x => (eval x).isOk
  | .jacobian _ => false

def isTrial : Call α n → Bool
  | .residuals .trial _ => true
  | _ => false

end Call

namespace Journal

def successes (eval : Vector α n → Except (FitError α) (Vector α m)) (j : Journal α n) : ℕ :=
  j.calls.countP (·.succeeds eval)

def trials (j : Journal α n) : ℕ := j.calls.countP Call.isTrial

/-- Between two moments of a run, `a` evaluations, `b` Jacobians and `c` trial steps are counted. -/
structure Grows (eval : Vector α n → Except (FitError α) (Vector α m)) (a b c : ℕ)
    (j j' : Journal α n) : Prop where
  evaluations : j'.evaluations = j.evaluations + a
  successes : j'.successes eval = j.successes eval + a
  jacobians : j'.jacobians = j.jacobians + b
  trials : j'.trials = j.trials + c

variable {eval : Vector α n → Except (FitError α) (Vector α m)} {a b c a' b' c' : ℕ}
  {j j' j'' : Journal α n}

theorem Grows.refl (j : Journal α n) : Grows eval 0 0 0 j j := ⟨rfl, rfl, rfl, rfl⟩

theorem Grows.trans (h : Grows eval a b c j j') (h' : Grows eval a' b' c' j' j'') :
    Grows eval (a + a') (b + b') (c + c') j j'' := by
  obtain ⟨hevaluations, hsuccesses, hjacobians, htrials⟩ := h
  obtain ⟨hevaluations', hsuccesses', hjacobians', htrials'⟩ := h'
  exact ⟨by omega, by omega, by omega, by omega⟩

/-- The evaluations that a search has counted after some iterations: the first one, one for each
trial step, and `cost` for each Jacobian. -/
structure Balanced (eval : Vector α n → Except (FitError α) (Vector α m)) (cost iterations : ℕ)
    (j : Journal α n) : Prop where
  successes : j.evaluations = j.successes eval
  evaluations : j.evaluations = 1 + j.trials + cost * j.jacobians
  iterations_le : iterations ≤ j.trials

/-- An iteration takes one Jacobian, and a trial step for what it counts. -/
theorem Balanced.grow {cost t i i' : ℕ} (h : j.Balanced eval cost i)
    (hgrows : Grows eval (cost + t) 1 t j j') (hi : i' ≤ i + t) : j'.Balanced eval cost i' := by
  obtain ⟨hsuccesses, hevaluations, htrials⟩ := h
  obtain ⟨hevaluations', hsuccesses', hjacobians', htrials'⟩ := hgrows
  refine ⟨by omega, ?_, by omega⟩
  rw [hevaluations', hevaluations, htrials', hjacobians', Nat.mul_succ]
  omega

end Journal

/-! ### Statuses -/

namespace Status

/-- The reasons are all tests of convergence, or none of them is. -/
def IsUniform (s : Status) : Prop :=
  (∀ r ∈ s.reasons, r.isConverged = true) ∨ ∀ r ∈ s.reasons, r.isConverged = false

theorem isUniform_of_reasons {s : Status} (b : Bool) (h : ∀ r ∈ s.reasons, r.isConverged = b) :
    s.IsUniform := by
  cases b with
  | true => exact .inl h
  | false => exact .inr h

theorem isConverged_of_ofTests {tests : List (Reason × Bool)} {b : Bool}
    (h : ∀ t ∈ tests, t.1.isConverged = b) : ∀ r ∈ (ofTests tests).reasons, r.isConverged = b := by
  intro r hr
  rw [mem_reasons, contains_ofTests] at hr
  exact h _ hr

theorem converged_of_reasons {s : Status} (hstopped : s.isEmpty = false)
    (h : ∀ r ∈ s.reasons, r.isConverged = true) : s.converged = true := by
  rw [isEmpty, List.isEmpty_eq_false_iff_exists_mem] at hstopped
  obtain ⟨r, hr⟩ := hstopped
  exact List.any_eq_true.2 ⟨r, hr, h r hr⟩

theorem isUniform_ofReason (r : Reason) : (ofReason r).IsUniform := by
  refine isUniform_of_reasons r.isConverged fun q hq => ?_
  rw [mem_reasons] at hq
  simp only [ofReason, insert, empty, Bool.or_false, beq_iff_eq] at hq
  rw [hq]

end Status

namespace Options

variable [Scalar α] (o : Options α)

theorem isConverged_of_gradientStatus (cosine : α) :
    ∀ r ∈ (o.gradientStatus cosine).reasons, r.isConverged = true :=
  Status.isConverged_of_ofTests (by simp [Reason.isConverged])

variable (t : StepStatistics α) (iterations evaluations : ℕ)

theorem isUniform_stepStatus : (o.stepStatus t iterations evaluations).IsUniform := by
  unfold stepStatus
  dsimp only
  split
  · exact .inr (Status.isConverged_of_ofTests (by simp [Reason.isConverged]))
  · exact .inl (Status.isConverged_of_ofTests (by simp [Reason.isConverged]))

/-- The last iteration that is allowed is reported, unless its step converged. -/
theorem stepStatus_maxIterations {iterations : ℕ} (h : o.maxIterations ≤ iterations)
    (hconverged : (o.stepStatus t iterations evaluations).converged = false) :
    (o.stepStatus t iterations evaluations).contains .maxIterations = true := by
  unfold stepStatus at hconverged ⊢
  dsimp only at hconverged ⊢
  split at hconverged
  · next hempty =>
    rw [if_pos hempty, Status.contains_ofTests]
    simp [h]
  · next hstopped =>
    rw [Status.converged_of_reasons (by simpa using hstopped)
      (Status.isConverged_of_ofTests (by simp [Reason.isConverged]))] at hconverged
    cases hconverged

end Options

/-- What the counters and the status of a solution say, where a Jacobian takes `cost` evaluations and
`j` is the journal of the search. -/
structure Solution.Accounts [Scalar α] (solution : Solution α n m) (options : Options α)
    (eval : Vector α n → Except (FitError α) (Vector α m)) (cost : ℕ) (j : Journal α n) :
    Prop where
  stopped : solution.status.isEmpty = false
  reasons : solution.status.IsUniform
  iterations_le : solution.iterations ≤ options.maxIterations
  maxIterations : solution.iterations = options.maxIterations → solution.converged = false →
    solution.status.contains .maxIterations = true
  jacobians_ge : solution.iterations ≤ solution.jacobians
  jacobians_le : solution.jacobians ≤ solution.iterations + 1
  successes : solution.evaluations = j.successes eval
  evaluations : solution.evaluations = 1 + j.trials + cost * solution.jacobians
  trials : solution.iterations ≤ j.trials
  maxEvaluations : ∀ limit, options.maxEvaluations = some limit →
    solution.evaluations ≤ max limit 2 + cost

/-! ### What a run adds -/

namespace Run

variable {β γ : Type}

def Adds (eval : Vector α n → Except (FitError α) (Vector α m)) (a b c : ℕ)
    (run : Run α n β) : Prop :=
  ∀ j r j', run.resume j = (.ok r, j') → Journal.Grows eval a b c j j'

namespace Adds

variable {eval : Vector α n → Except (FitError α) (Vector α m)} {a b c a' b' c' : ℕ}

theorem of_log {run : Run α n β} (h : ∀ j, ∃ e log, run.resume j = (e, { j with log })) :
    Adds eval 0 0 0 run := by
  intro j r j' hrun
  obtain ⟨e, log, hlog⟩ := h j
  cases hlog.symm.trans hrun
  exact ⟨rfl, rfl, rfl, rfl⟩

theorem pure {r : β} : Adds eval 0 0 0 (pure r) := of_log fun j => ⟨.ok r, j.log, rfl⟩

theorem log {entry : LogEntry α} : Adds eval 0 0 0 (Run.log entry : Run α n Unit) :=
  of_log fun _ => ⟨_, _, rfl⟩

theorem require {ok : Bool} {cause : FitError α} :
    Adds eval 0 0 0 (Run.require ok cause : Run α n Unit) :=
  of_log fun j => ⟨_, j.log, resume_require ok cause j⟩

theorem evaluations : Adds eval 0 0 0 (Run.evaluations : Run α n ℕ) :=
  of_log fun j => ⟨_, j.log, rfl⟩

theorem countJacobian : Adds eval 0 1 0 (Run.countJacobian : Run α n Unit) := by
  rintro j _ j' ⟨⟩
  exact ⟨rfl, rfl, rfl, rfl⟩

theorem bind {run : Run α n β} {f : β → Run α n γ} (hrun : Adds eval a b c run)
    (hf : ∀ r, Adds eval a' b' c' (f r)) : Adds eval (a + a') (b + b') (c + c') (run >>= f) := by
  intro j r j' h
  obtain ⟨r', i, hfirst, hrest⟩ := bind_ok.1 h
  exact (hrun j r' i hfirst).trans (hf r' i r j' hrest)

theorem ofFnM {f : Fin k → Run α n β} {cost : Fin k → ℕ} (h : ∀ c, Adds eval (cost c) 0 0 (f c)) :
    Adds eval (∑ c, cost c) 0 0 (Vector.ofFnM f) := by
  induction k with
  | zero =>
      rw [Vector.ofFnM_zero]
      exact .pure
  | succ k ih =>
      rw [Vector.ofFnM_succ, Fin.sum_univ_castSucc]
      exact (ih fun c => h c.castSucc).bind fun _ => (h (Fin.last k)).bind fun _ => .pure

end Adds

end Run

/-! ### What a search adds -/

namespace Setting

open Run

section Evaluation

variable [Scalar α] (s : Setting α n m k)

/-- The evaluations that a Jacobian takes: none for an analytic one, and otherwise one for each free
parameter, and one more where both sides are looked at. -/
def jacobianCost : ℕ :=
  match s.mode with
  | .analytic => 0
  | .finiteDifference => k + (Finset.univ.filter fun c : Fin k => s.rules[c].side = .both).card

variable {s} {x : Vector α n}

theorem residualsAt_adds (purpose : Purpose) :
    Adds s.eval 1 0 (if purpose = .trial then 1 else 0) (s.residualsAt purpose x) := by
  intro j r j' h
  obtain ⟨f, hf, -, -, rfl⟩ := residualsAt_ok.1 h
  refine ⟨rfl, ?_, rfl, ?_⟩
  · simp [Journal.successes, journalAfter, Call.succeeds, hf, Except.isOk, Except.toBool]
  · cases purpose <;> simp [Journal.trials, journalAfter, Call.isTrial, Array.countP_push]

theorem differenceColumn_adds (fx : Vector α m) (p : Fin n) (rule : DifferenceRule α) (scale : α) :
    Adds s.eval (if rule.side = .both then 2 else 1) 0 0
      (differenceColumn (s.residualsAt .probe) x fx p rule scale) := by
  unfold differenceColumn
  by_cases hboth : rule.side = .both
  · simp only [hboth, if_true]
    exact (residualsAt_adds .probe).bind fun _ => (residualsAt_adds .probe).bind fun _ => .pure
  · simp only [hboth, if_false]
    exact (residualsAt_adds .probe).bind fun _ => .pure

omit [Scalar α] in
theorem analyticJacobian_adds : Adds s.eval 0 0 0 (s.analyticJacobian x) := by
  intro j a j' h
  obtain ⟨full, -, -, rfl⟩ := analyticJacobian_ok.1 h
  exact ⟨rfl, by simp [Journal.successes, Call.succeeds], rfl, by simp [Journal.trials, Call.isTrial]⟩

theorem jacobianAt_adds (fx : Vector α m) : Adds s.eval s.jacobianCost 1 0 (s.jacobianAt x fx) := by
  have hchecked : ∀ a : Mat α m k, Adds s.eval 0 0 0 (do
      Run.require (a.entries.all Scalar.isFinite) .nonFiniteJacobian
      return a) := fun a => Adds.require.bind fun _ => .pure
  unfold jacobianAt jacobianCost
  cases s.mode with
  | analytic => exact Adds.countJacobian.bind fun _ => analyticJacobian_adds.bind hchecked
  | finiteDifference =>
      have hcolumns : Adds s.eval (∑ c : Fin k, if s.rules[c].side = .both then 2 else 1) 0 0
          (differenceJacobian (s.residualsAt .probe) x fx s.free s.rules
            s.options.differenceScale) := by
        rw [differenceJacobian_eq]
        exact (Adds.ofFnM fun c => differenceColumn_adds fx s.free[c] s.rules[c] _).bind fun _ => .pure
      have hsum : (∑ c : Fin k, if s.rules[c].side = .both then 2 else 1) =
          k + (Finset.univ.filter fun c : Fin k => s.rules[c].side = .both).card := by
        calc (∑ c : Fin k, if s.rules[c].side = .both then 2 else 1)
            = ∑ c : Fin k, (1 + if s.rules[c].side = .both then 1 else 0) :=
              Finset.sum_congr rfl fun c _ => by split <;> rfl
          _ = _ := by
              rw [Finset.sum_add_distrib, Finset.sum_boole]
              simp
      rw [hsum] at hcolumns
      have hall := Adds.countJacobian.bind fun _ => hcolumns.bind hchecked
      rwa [Nat.zero_add, Nat.add_zero] at hall

end Evaluation

variable [NormedScalar α] {s : Setting α n m k}

theorem startAt_adds (x : Vector α n) : Adds s.eval 1 0 0 (s.startAt x) :=
  Adds.log.bind fun _ => (residualsAt_adds .start).bind fun _ => .pure

section Steps

variable {l : Linearization α m k} {scale : Vector α k} {cosine : α} {p q : Progress α n m k}
  {result : TrialResult α n m k} {j i j' : Journal α n}

theorem tryStep_adds : Adds s.eval 1 0 1 (s.tryStep l scale cosine p) :=
  Adds.require.bind fun _ => (residualsAt_adds .trial).bind fun _ =>
    (Adds.of_log fun j => ⟨_, logTrial_ok _ _ _ j⟩).bind fun _ => Adds.evaluations.bind fun _ => .pure

/-- Every step of an iteration is a trial, and nothing else is evaluated between them. -/
theorem Tries.grows (h : s.Tries l scale cosine p j q i) : ∃ t, Journal.Grows s.eval t 0 t j i := by
  induction h with
  | first => exact ⟨0, .refl _⟩
  | next _ hstep _ _ ih =>
      obtain ⟨t, hgrows⟩ := ih
      exact ⟨t + 1, hgrows.trans (tryStep_adds _ _ _ hstep)⟩

theorem tryStep_limits (h : (s.tryStep l scale cosine p).resume j = (.ok result, j'))
    (hstatus : result.status.isEmpty = true) :
    result.progress.point.iterations < s.options.maxIterations ∧
      ∀ limit ∈ s.options.maxEvaluations, j'.evaluations < limit := by
  have hevaluations := tryStep_evaluations h
  obtain ⟨r, i, -, hr, rfl⟩ := tryStep_ok h
  obtain ⟨-, -, -, -, rfl⟩ := residualsAt_ok.1 hr
  obtain ⟨hiterations, hlimit, -, -⟩ := Options.of_stepStatus_isEmpty hstatus
  rw [hevaluations]
  exact ⟨hiterations, hlimit⟩

theorem tryStep_status (h : (s.tryStep l scale cosine p).resume j = (.ok result, j')) :
    ∃ t evaluations, result.status =
      s.options.stepStatus t result.progress.point.iterations evaluations := by
  obtain ⟨r, i, -, -, rfl⟩ := tryStep_ok h
  exact ⟨_, _, rfl⟩

/-- Rejected steps stay below the limit on evaluations, and so below what the search was below when
they began. -/
theorem Tries.evaluations_lt {limit bound : ℕ} (h : s.Tries l scale cosine p j q i)
    (hlimit : s.options.maxEvaluations = some limit) (hbound : limit ≤ bound)
    (hj : j.evaluations < bound) : i.evaluations < bound := by
  cases h with
  | first => exact hj
  | next _ hstep _ hstatus => exact ((tryStep_limits hstep hstatus).2 limit hlimit).trans_le hbound

end Steps

/-! ### What a search has counted -/

section Iterations

variable {tall : k ≤ m} {trials : ℕ} {x : Vector α n}

/-- An iteration counts a Jacobian, and a trial step for each one it makes; it accepts one at most,
the last. -/
theorem iteration_counts {c : Checkpoint α n m k} {outcome : Finish α n m k ⊕ Checkpoint α n m k}
    {j j' : Journal α n} (h : (s.iteration tall trials c).resume j = (.ok outcome, j')) :
    ∃ t, Journal.Grows s.eval (s.jacobianCost + t) 1 t j j' ∧
      ((outcome.elim Finish.point Checkpoint.point).iterations = c.point.iterations ∨
        (outcome.elim Finish.point Checkpoint.point).iterations = c.point.iterations + 1 ∧ 0 < t) := by
  obtain ⟨a, i, ha, hadvance⟩ := iteration_ok h
  have hjacobian := jacobianAt_adds c.point.residuals j a i ha
  obtain ⟨v, hpoint⟩ := rescale_point (s := s) (.ofJacobian s.limits c.point a tall) c
  rcases advance_cases hadvance with ⟨status, -, rfl, rfl, -⟩ |
    ⟨-, -, q, i', result, hq, hstep, hend⟩
  · exact ⟨0, hjacobian, .inl (by rw [Sum.elim_inl, hpoint])⟩
  · obtain ⟨t, htries⟩ := hq.grows
    have hgrows := hjacobian.trans (htries.trans (tryStep_adds i' result j' hstep))
    simp only [Nat.zero_add, Nat.add_zero] at hgrows
    refine ⟨t + 1, hgrows, ?_⟩
    have hcount : result.progress.point.iterations = c.point.iterations ∨
        result.progress.point.iterations = c.point.iterations + 1 := by
      have hq' : q.point.iterations = c.point.iterations := by rw [hq.point_eq, hpoint]
      cases haccepted : result.accepted with
      | true => exact .inr (by rw [tryStep_accepted hstep haccepted, hq'])
      | false => exact .inl (by rw [tryStep_rejected hstep haccepted, hq'])
    rcases hend with ⟨-, rfl⟩ | ⟨-, -, rfl⟩
    · exact hcount.imp_right fun h => ⟨h, t.succ_pos⟩
    · exact hcount.imp_right fun h => ⟨h, t.succ_pos⟩

structure Counted (s : Setting α n m k) (c : Checkpoint α n m k) (j : Journal α n) : Prop where
  balanced : j.Balanced s.eval s.jacobianCost c.point.iterations
  jacobians : j.jacobians = c.point.iterations
  iterations : c.point.iterations = 0 ∨ c.point.iterations < s.options.maxIterations
  evaluations : ∀ limit, s.options.maxEvaluations = some limit → j.evaluations < max limit 2

theorem counted_of_visits {c : Checkpoint α n m k} {j : Journal α n}
    (h : s.Visits tall trials x c j) : s.Counted c j := by
  induction h with
  | start hp =>
      obtain ⟨hevaluations, hsuccesses, hjacobians, htrials⟩ := startAt_adds x _ _ _ hp
      obtain ⟨r, i, -, rfl⟩ := startAt_ok hp
      simp only [Journal.empty, Journal.successes, Journal.trials, Array.countP_empty, Nat.zero_add]
        at hevaluations hsuccesses hjacobians htrials
      refine ⟨⟨?_, ?_, Nat.zero_le _⟩, hjacobians, .inl rfl, fun limit _ => by omega⟩
      · rw [hevaluations]
        exact hsuccesses.symm
      · rw [hevaluations, hjacobians]
        exact (congrArg (1 + ·) htrials).symm
  | @next c c' j j' _ hstep ih =>
      obtain ⟨hnext, hlt⟩ := iteration_next hstep
      obtain ⟨t, hgrows, hcount⟩ := iteration_counts hstep
      have ht : c'.point.iterations ≤ c.point.iterations + t := by
        change c'.point.iterations = _ ∨ c'.point.iterations = _ ∧ _ at hcount
        omega
      refine ⟨ih.balanced.grow hgrows ht, ?_, .inr hlt, fun limit hlimit => ?_⟩
      · rw [hgrows.jacobians, ih.jacobians, hnext]
      · obtain ⟨a, i, -, hadvance⟩ := iteration_ok hstep
        rcases advance_cases hadvance with ⟨_, -, hend, -⟩ | ⟨-, -, q, i', result, -, hlast, hend⟩
        · cases hend
        · rcases hend with ⟨-, hend⟩ | ⟨hstatus, -, -⟩
          · cases hend
          · exact ((tryStep_limits hlast hstatus).2 limit hlimit).trans_le (le_max_left _ _)

theorem accounts_of_first {c : Checkpoint α n m k} {f : Finish α n m k} {j j' : Journal α n}
    (hc : s.Counted c j) (hgrows : Journal.Grows s.eval s.jacobianCost 1 0 j j')
    (hpoint : f.point.iterations = c.point.iterations) (hstopped : f.status.isEmpty = false)
    (hreason : (∀ r ∈ f.status.reasons, r.isConverged = true) ∨
      s.options.maxIterations = 0 ∧ f.status = .ofReason .maxIterations)
    (names : Vector (Option String) n) (start : α) :
    (s.solutionOf names start f j'.evaluations j'.jacobians).Accounts s.options s.eval
      s.jacobianCost j' := by
  have hbalanced : j'.Balanced s.eval s.jacobianCost f.point.iterations :=
    hc.balanced.grow (t := 0) hgrows hpoint.le
  have hiterations : f.point.iterations = 0 ∨ f.point.iterations < s.options.maxIterations := by
    rw [hpoint]
    exact hc.iterations
  have hjacobians : j'.jacobians = f.point.iterations + 1 := by
    rw [hgrows.jacobians, hc.jacobians, hpoint]
  refine ⟨hstopped, ?_, ?_, fun _ hconverged => ?_, ?_, hjacobians.le, hbalanced.successes,
    hbalanced.evaluations, hbalanced.iterations_le, fun limit hlimit => ?_⟩
  · rcases hreason with hreason | ⟨-, hreason⟩
    · exact .inl hreason
    · rw [show (s.solutionOf names start f _ _).status = f.status from rfl, hreason]
      exact Status.isUniform_ofReason _
  · change f.point.iterations ≤ _
    omega
  · rcases hreason with hreason | ⟨-, hreason⟩
    · cases (Status.converged_of_reasons hstopped hreason).symm.trans hconverged
    · rw [show (s.solutionOf names start f _ _).status = f.status from rfl, hreason]
      decide
  · change f.point.iterations ≤ j'.jacobians
    omega
  · have hlt := hc.evaluations limit hlimit
    have heq := hgrows.evaluations
    change j'.evaluations ≤ _
    omega

theorem accounts_of_finish {c : Checkpoint α n m k} {f : Finish α n m k} {j j' : Journal α n}
    (hc : s.Counted c j) (h : (s.iteration tall trials c).resume j = (.ok (.inl f), j'))
    (names : Vector (Option String) n) (start : α) :
    (s.solutionOf names start f j'.evaluations j'.jacobians).Accounts s.options s.eval
      s.jacobianCost j' := by
  obtain ⟨t, hgrows, hcount⟩ := iteration_counts h
  obtain ⟨a, i, ha, hadvance⟩ := iteration_ok h
  have hjacobian := jacobianAt_adds c.point.residuals j a i ha
  obtain ⟨v, hpoint⟩ := rescale_point (s := s) (.ofJacobian s.limits c.point a tall) c
  rcases advance_cases hadvance with ⟨status, hstopped, hend, rfl, hreason⟩ |
    ⟨-, hlimit, q, i', result, hq, hstep, hend⟩
  · cases hend
    refine accounts_of_first hc hjacobian (by rw [hpoint]) hstopped (hreason.imp_left ?_) names start
    rintro rfl
    exact s.options.isConverged_of_gradientStatus _
  · rcases hend with ⟨hstopped, hend⟩ | ⟨-, -, hend⟩
    · cases hend
      obtain ⟨statistics, evaluations, hstatus⟩ := tryStep_status hstep
      have hcount' : result.progress.point.iterations = c.point.iterations ∨
          result.progress.point.iterations = c.point.iterations + 1 ∧ 0 < t := hcount
      have hbalanced : j'.Balanced s.eval s.jacobianCost result.progress.point.iterations :=
        hc.balanced.grow hgrows (by omega)
      have hjacobians : j'.jacobians = c.point.iterations + 1 := by
        rw [hgrows.jacobians, hc.jacobians]
      have hiterations := hc.iterations
      refine ⟨hstopped, ?_, ?_, fun hlast hconverged => ?_, ?_, ?_, hbalanced.successes,
        hbalanced.evaluations, hbalanced.iterations_le, fun limit hlimit => ?_⟩
      · change result.status.IsUniform
        rw [hstatus]
        exact s.options.isUniform_stepStatus _ _ _
      · change result.progress.point.iterations ≤ _
        omega
      · change result.progress.point.iterations = _ at hlast
        change result.status.converged = false at hconverged
        change result.status.contains _ = true
        rw [hstatus] at hconverged ⊢
        exact s.options.stepStatus_maxIterations _ _ hlast.ge hconverged
      · change result.progress.point.iterations ≤ j'.jacobians
        omega
      · change j'.jacobians ≤ result.progress.point.iterations + 1
        omega
      -- the limit still held before the last step, which adds one evaluation
      · have hi : i'.evaluations < max limit 2 + s.jacobianCost := by
          refine hq.evaluations_lt hlimit (by omega) ?_
          have hlt := hc.evaluations limit hlimit
          rw [hjacobian.evaluations]
          omega
        change j'.evaluations ≤ _
        rw [tryStep_evaluations hstep]
        exact hi
    · cases hend

end Iterations

end Setting

/-! ### A whole fit -/

/-- The evaluations that a Jacobian takes under either mode: by differences one for each free
parameter, and a second one for those that are differenced on both sides. -/
def Store.jacobianCost [Scalar α] (store : Store α) : JacobianMode → ℕ
  | .analytic => 0
  | .finiteDifference => store.free.size +
    (Finset.univ.filter fun i => (store.get i).isFree = true ∧ (store.get i).side = .both).card

theorem Setting.jacobianCost_ofStore [Scalar α] (store : Store α) (function : ResidualFunction α)
    (options : Options α) (mode : JacobianMode) :
    (ofStore store function options mode).jacobianCost = store.jacobianCost mode := by
  cases mode with
  | analytic => rfl
  | finiteDifference =>
      have hside : ∀ c : Fin store.free.size,
          (ofStore store function options .finiteDifference).rules[c].side =
            (store.get store.freePlaces[c]).side := by
        intro c
        exact congrArg DifferenceRule.side (getElem_ofFn _ c)
      change store.free.size + _ = store.free.size + _
      congr 1
      -- the places of the free parameters are the free parameters, each once
      refine Finset.card_bij (fun c _ => store.freePlaces[c]) (fun c hc => ?_)
        (fun c _ d _ h => store.distinct_freePlaces c d h) fun i hi => ?_
      · rw [Finset.mem_filter, hside] at hc
        simpa using ⟨store.isFree_freePlaces c, hc.2⟩
      · obtain ⟨hfree, hboth⟩ := (Finset.mem_filter.1 hi).2
        obtain ⟨c, rfl⟩ := store.exists_freePlaces hfree
        exact ⟨c, Finset.mem_filter.2 ⟨Finset.mem_univ c, (hside c).trans hboth⟩, rfl⟩

/-- The counters and the status of every solution, in any arithmetic and under any bound on trials.
The evaluations are those that succeeded: the first one, the trial steps, and what the Jacobians
take. -/
theorem minimize_counts [NormedScalar α] {trials : ℕ} {store : Store α}
    {function : ResidualFunction α} {options : Options α} {initial : Option (Array α)}
    {solution : Solution α store.size function.count} {j : Journal α store.size}
    (h : minimizeWithin trials store function options initial = (.ok solution, j)) :
    ∃ start, prepare store function options initial = .ok start ∧
      solution.Accounts options (fun x => function.eval x) (store.jacobianCost start.mode) j := by
  obtain ⟨start, hstart, hsearch⟩ := minimizeWithin_ok h
  obtain ⟨p, i₀, c, i₁, f, i₂, -, hc, hlast, rfl, log, rfl⟩ := Setting.search_cases hsearch
  refine ⟨start, hstart, ?_⟩
  rw [← Setting.jacobianCost_ofStore store function options start.mode]
  have haccounts := Setting.accounts_of_finish (Setting.counted_of_visits hc) hlast store.names p.norm
  exact { haccounts with }

/-! ### A run of two trial steps -/

section TwoTrials

variable {α : Type} [Scalar α]

/-- A parameter that is differenced on both sides, a fixed one, and one tied to their sum. -/
def heldStore : Store α :=
  ⟨#[{ (.ofValue 0.0625 : Parameter α) with side := .both },
    { value := some 0.0625, fixed := true },
    { tie := some ⟨fun x => Scalar.sum (x.toList.take 2)⟩ }]⟩

/-- Two residuals that never vanish together, the first of them curved. -/
def basin : ResidualFunction α :=
  .ofEval 2 fun x =>
    let total := Scalar.sum x.toList
    .ok #v[total * total - 2.0, 0.5 * total]

def fiveEvaluations : Options α := { (.default : Options α) with maxEvaluations := some 5 }

end TwoTrials

/-- The start, two differences, a step that goes too far and a shorter one. -/
theorem exists_two_trials : ∃ solution j,
    minimizeWithin 2 (heldStore (α := Float)) basin fiveEvaluations none = (.ok solution, j) ∧
      solution.iterations = 1 ∧ solution.evaluations = 5 ∧ j.trials = 2 := by
  have hcounts :
      ((minimizeWithin 2 (heldStore (α := Float)) basin fiveEvaluations none).1.toOption.map
          fun solution => (solution.iterations, solution.evaluations)) = some (1, 5) ∧
        (minimizeWithin 2 (heldStore (α := Float)) basin fiveEvaluations none).2.trials = 2 := by
    decide +kernel
  rcases hrun : minimizeWithin 2 (heldStore (α := Float)) basin fiveEvaluations none with
    ⟨_ | solution, j⟩
  · rw [hrun] at hcounts
    cases hcounts.1
  · rw [hrun] at hcounts
    obtain ⟨hiterations, hevaluations⟩ := Prod.mk.inj (Option.some.inj hcounts.1)
    exact ⟨solution, j, rfl, hiterations, hevaluations, hcounts.2⟩

theorem minimize_counts_two_trials : ∃ solution j,
    minimizeWithin 2 (heldStore (α := Float)) basin fiveEvaluations none = (.ok solution, j) ∧
      solution.iterations = 1 ∧ solution.evaluations = 5 ∧ j.trials = 2 ∧
      ∃ start, prepare (heldStore (α := Float)) basin fiveEvaluations none = .ok start ∧
        solution.Accounts fiveEvaluations (fun x => basin.eval x)
          ((heldStore (α := Float)).jacobianCost start.mode) j := by
  obtain ⟨solution, j, hrun, hiterations, hevaluations, htrials⟩ := exists_two_trials
  exact ⟨solution, j, hrun, hiterations, hevaluations, htrials, minimize_counts hrun⟩

end LeastSquares
