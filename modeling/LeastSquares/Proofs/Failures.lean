import LeastSquares.Proofs.ExactRuns
import LeastSquares.Proofs.GuardedSearch

/-!
How a fit fails. Everything that can be wrong with a problem is found before a tie, the residual
function or its Jacobian is called, and refused (`prepare_refuses`); from then on a fit fails only
as `Failure` says: with the error that the last call reported, unchanged, or because numbers are not
finite.

`FailsBy` bounds the errors of a run by the journal that the run leaves, and goes through the search
function by function. Sizes that do not fit and indices out of range would be other ways to fail;
the fit that checks them comes to what the fit of the library comes to, so they do not occur.
-/

namespace LeastSquares

variable {α β γ : Type} {n m k : ℕ}

/-! ### Errors of a run -/

namespace Run

/-- Every error of the run is one of `E` with the journal that the run leaves. -/
def FailsBy (E : FitError α → Journal α n → Prop) (run : Run α n β) : Prop :=
  ∀ j e j', run.resume j = (.error (.failed e), j') → E e j'

namespace FailsBy

variable {E : FitError α → Journal α n → Prop}

theorem of_ok {run : Run α n β} (h : ∀ j, ∃ b j', run.resume j = (.ok b, j')) : FailsBy E run := by
  intro j e j' hfail
  obtain ⟨b, i, hok⟩ := h j
  rw [hok] at hfail
  cases hfail

theorem pure (b : β) : FailsBy E (pure b : Run α n β) := of_ok fun j => ⟨b, j, rfl⟩

theorem outOfTrials : FailsBy E (throw .outOfTrials : Run α n β) := by
  intro j e j' h
  cases h

theorem bind {run : Run α n β} {f : β → Run α n γ} (hrun : FailsBy E run)
    (hf : ∀ b, FailsBy E (f b)) : FailsBy E (run >>= f) := by
  intro j e j' h
  rw [resume_bind] at h
  rcases hresult : run.resume j with ⟨halt | b, i⟩
  · rw [hresult] at h
    cases h
    exact hrun j e j' hresult
  · rw [hresult] at h
    exact hf b i e j' h

theorem require {ok : Bool} {cause : FitError α} (h : ok = false → ∀ j, E cause j) :
    FailsBy E (Run.require ok cause : Run α n Unit) := by
  intro j e j' hfail
  cases ok with
  | false =>
      cases hfail
      exact h rfl j
  | true => cases hfail

theorem congruence : IsCongruence (M := Run α n) (N := Run α n) fun _ run _ => FailsBy E run :=
  ⟨pure, fun hrun hf => hrun.bind hf⟩

end FailsBy

end Run

/-! ### Errors of a search -/

namespace Setting

/-- How a search fails: what the last call reported, residuals that are not finite while that is
checked, or a Jacobian or a step that is not finite. -/
inductive Failure [Scalar α] (s : Setting α n m k) : FitError α → Journal α n → Prop
  | residuals {purpose : Purpose} {x : Vector α n} {e : FitError α} {j : Journal α n}
      (hcall : j.calls.back? = some (.residuals purpose x)) (heval : s.eval x = .error e) :
      Failure s e j
  | jacobian {x : Vector α n} {e : FitError α} {j : Journal α n} (hmode : s.mode = .analytic)
      (hcall : j.calls.back? = some (.jacobian x)) (hjacobian : s.jacobian x = .error e) :
      Failure s e j
  | nonFiniteResiduals {purpose : Purpose} {x : Vector α n} {r : Vector α m} {j : Journal α n}
      (hcheck : s.options.finiteCheck = true)
      (hcall : j.calls.back? = some (.residuals purpose x)) (heval : s.eval x = .ok r)
      (hr : (r.map s.dampen).all Scalar.isFinite = false) : Failure s .nonFiniteResiduals j
  | nonFiniteJacobian {j : Journal α n} : Failure s .nonFiniteJacobian j
  | nonFiniteParameters {start target : Vector α k} {j : Journal α n}
      (htarget : target.all Scalar.isFinite = false) :
      Failure s (.nonFiniteParameters start.toList target.toList) j

open Run

section Evaluation

variable [Scalar α] (s : Setting α n m k)

theorem residualsAt_fails (purpose : Purpose) (x : Vector α n) :
    FailsBy s.Failure (s.residualsAt purpose x) := by
  intro j e j' h
  cases heval : s.eval (s.applyTies x) with
  | error cause =>
      simp only [residualsAt, Run.resume_bind, Run.resume_record, Run.resume_ofExcept, heval] at h
      cases h
      exact .residuals Array.back?_push heval
  | ok r =>
      by_cases hr : (!s.options.finiteCheck || (r.map s.dampen).all Scalar.isFinite) = true
      · rw [residualsAt_ok.2 ⟨r, heval, rfl, hr, rfl⟩] at h
        cases h
      · simp only [residualsAt, Run.resume_bind, Run.resume_record, Run.resume_ofExcept, heval,
          mapError_ok, Run.resume_countEvaluation, Run.resume_require, if_neg hr] at h
        cases h
        simp only [Bool.or_eq_true, Bool.not_eq_true', not_or, Bool.not_eq_false,
          Bool.not_eq_true] at hr
        exact .nonFiniteResiduals hr.1 Array.back?_push heval hr.2

theorem analyticJacobian_fails (hmode : s.mode = .analytic) (x : Vector α n) :
    FailsBy s.Failure (s.analyticJacobian x) := by
  intro j e j' h
  simp only [analyticJacobian, Run.resume_bind, Run.resume_record, Run.resume_ofExcept] at h
  cases hjacobian : s.jacobian (s.applyTies x) with
  | error cause =>
      rw [hjacobian] at h
      cases h
      exact .jacobian hmode Array.back?_push hjacobian
  | ok full =>
      rw [hjacobian] at h
      cases h

theorem jacobianAt_fails (x : Vector α n) (fx : Vector α m) :
    FailsBy s.Failure (s.jacobianAt x fx) := by
  have hend : ∀ a : Mat α m k, FailsBy s.Failure
      (do Run.require (a.entries.all Scalar.isFinite) .nonFiniteJacobian; return a) :=
    fun a => FailsBy.bind (.require fun _ _ => .nonFiniteJacobian) fun _ => .pure _
  unfold jacobianAt
  refine FailsBy.bind (.of_ok fun j => ⟨(), _, Run.resume_countJacobian j⟩) fun _ => ?_
  cases hmode : s.mode with
  | analytic => exact (s.analyticJacobian_fails hmode x).bind hend
  | finiteDifference =>
      refine FailsBy.bind ?_ hend
      exact FailsBy.congruence.differenceJacobian (g := s.residualsAt .probe) fun _ _ =>
        s.residualsAt_fails .probe _

end Evaluation

variable [NormedScalar α] (s : Setting α n m k) (l : Linearization α m k) (trials : ℕ)

theorem startAt_fails (x : Vector α n) : FailsBy s.Failure (s.startAt x) := by
  refine FailsBy.bind (.of_ok fun j => ⟨(), _, Run.resume_log _ j⟩) fun _ => ?_
  exact (s.residualsAt_fails .start _).bind fun _ => .pure _

theorem tryStep_fails (scale : Vector α k) (cosine : α) (p : Progress α n m k) :
    FailsBy s.Failure (s.tryStep l scale cosine p) := by
  refine FailsBy.bind (.require fun h _ => .nonFiniteParameters h) fun _ => ?_
  refine (s.residualsAt_fails .trial _).bind fun r => ?_
  refine FailsBy.bind (.of_ok fun j => ?_) fun _ =>
    FailsBy.bind (.of_ok fun j => ⟨_, j, Run.resume_evaluations j⟩) fun _ => .pure _
  obtain ⟨log, hlog⟩ := logTrial_ok _ _ cosine j
  exact ⟨(), _, hlog⟩

theorem tryUntilAccepted_fails (scale : Vector α k) (cosine : α) (p : Progress α n m k) :
    FailsBy s.Failure (s.tryUntilAccepted l scale cosine trials p) := by
  induction trials generalizing p with
  | zero => exact .outOfTrials
  | succ trials ih =>
      refine (s.tryStep_fails l scale cosine p).bind fun result => ?_
      split
      · exact .pure _
      · exact ih _

theorem advance_fails (c : Checkpoint α n m k) : FailsBy s.Failure (s.advance l trials c) := by
  unfold advance
  dsimp only
  split
  · exact .pure _
  · split
    · exact .pure _
    · refine (s.tryUntilAccepted_fails l trials _ _ _).bind fun result => ?_
      split <;> exact .pure _

variable (tall : k ≤ m)

theorem iterate_fails (iterations : ℕ) (c : Checkpoint α n m k) :
    FailsBy s.Failure (s.iterate tall trials iterations c) := by
  induction iterations generalizing c with
  | zero => exact .outOfTrials
  | succ iterations ih =>
      have hiteration : FailsBy s.Failure (s.iteration tall trials c) :=
        (s.jacobianAt_fails _ _).bind fun jacobian => s.advance_fails _ trials _
      refine hiteration.bind fun outcome => ?_
      cases outcome with
      | inl finish => exact .pure _
      | inr next => exact ih next

/-- A search fails with what its last call reported, or because numbers are not finite. -/
theorem search_fails (names : Vector (Option String) n) (x : Vector α n) :
    FailsBy s.Failure (s.search tall trials names x) := by
  refine (s.startAt_fails x).bind fun p => (s.iterate_fails trials tall _ _).bind fun f => ?_
  refine .of_ok fun j => ?_
  obtain ⟨evaluations, jacobians, j', h⟩ := s.conclude_ok names p.norm f j
  exact ⟨_, j', h⟩

end Setting

theorem Setting.searchGuarded_of_error [NormedScalar α] (s : Setting α n m k) (trials : ℕ)
    (names : Vector (Option String) n) {x : Vector α n} {e : FitError α}
    (h : s.eval (s.applyTies (s.applyTies x)) = .error e) (w : Watch α n) :
    ∃ w', (s.raw.searchGuarded k trials names x.toArray).resume w =
        (.error (.halted (.failed e)), w') ∧
      w'.ties = (w.ties.push x).push (s.applyTies x) ∧ w'.journal.calls =
        w.journal.calls.push (.residuals .start (s.applyTies (s.applyTies x))) := by
  unfold RawSetting.searchGuarded RawSetting.startGuarded RawSetting.residualsInto residualsAt
  simp only [s.check_raw, pure_bind, Guarded.sized_toArray, Guarded.resume_bind,
    Guarded.resume_ofRun, Guarded.resume_tie, Run.resume_log, mapError_ok, Run.resume_bind,
    Run.resume_record, Run.resume_ofExcept, h, mapError_error]
  exact ⟨_, rfl, rfl, rfl⟩

/-! ### Errors of the checks -/

def FitError.isRefusal : FitError α → Bool
  | parameter _ | noFreeParameters | tooFewResiduals .. | missingResidualFunction | invalidOption _
  | conflict _ | sizes (.initialValues ..) | sizes (.scaleEntries ..) => true
  | _ => false

theorem FitError.sizes_of_isRefusal {cause : SizeMismatch}
    (h : (FitError.sizes cause : FitError α).isRefusal = true) :
    (∃ expected actual, cause = .initialValues expected actual) ∨
      ∃ expected actual, cause = .scaleEntries expected actual := by
  cases cause <;> first | exact .inl ⟨_, _, rfl⟩ | exact .inr ⟨_, _, rfl⟩ | cases h

def Refuses (e : Except (FitError α) β) : Prop := ∀ cause, e = .error cause → cause.isRefusal = true

namespace Refuses

theorem ok (b : β) : Refuses (.ok b : Except (FitError α) β) := nofun

theorem error {cause : FitError α} (h : cause.isRefusal = true) :
    Refuses (.error cause : Except (FitError α) β) := by
  rintro _ ⟨⟩
  exact h

theorem bind {e : Except (FitError α) β} {f : β → Except (FitError α) γ} (he : Refuses e)
    (hf : ∀ b, Refuses (f b)) : Refuses (e >>= f) := by
  cases e with
  | error cause => exact error (he cause rfl)
  | ok b => exact hf b

theorem forM {l : List β} {f : β → Except (FitError α) Unit} (h : ∀ b, Refuses (f b)) :
    Refuses (l.forM f) := by
  induction l with
  | nil => exact ok ()
  | cons b l ih => exact (h b).bind fun _ => ih

theorem ofFnM {f : Fin k → Except (FitError α) β} (h : ∀ c, Refuses (f c)) :
    Refuses (Vector.ofFnM f) :=
  IsCongruence.ofFnM (R := fun _ e _ => Refuses e) ⟨ok, fun he hf => he.bind hf⟩ (g := f) h

end Refuses

section Checks

variable [Scalar α] (store : Store α) (options : Options α)

theorem Options.validate_refuses : Refuses options.validate := by
  rw [validate]
  cases options.check with
  | error cause => exact .error rfl
  | ok => exact .ok ()

omit [Scalar α] in
theorem Options.checkScale_refuses (n : ℕ) : Refuses (options.checkScale n) := by
  rw [checkScale]
  cases options.scale with
  | none => exact .ok ()
  | some d =>
      dsimp only
      split
      · exact .ok ()
      · exact .error rfl

theorem Options.mode?_refuses (function : ResidualFunction α) :
    Refuses (options.mode? function) := by
  have hmode : Refuses (options.jacobian.mode? function.hasJacobian : Except (FitError α) _) := by
    unfold JacobianChoice.mode?
    split
    all_goals first | exact .ok _ | exact .error rfl
  refine hmode.bind fun mode => ?_
  split
  · exact .error rfl
  · exact .ok _

variable {options} in
theorem Options.hasJacobian_of_analytic {function : ResidualFunction α}
    (h : options.mode? function = .ok .analytic) : function.hasJacobian = true := by
  cases hj : function.hasJacobian with
  | true => rfl
  | false =>
      rw [Options.mode?, hj] at h
      cases hchoice : options.jacobian <;> rw [hchoice] at h <;> cases h

theorem Store.startingVector_refuses (initial : Option (Array α)) :
    Refuses (store.startingVector initial) := by
  cases initial with
  | none =>
      refine .ofFnM fun i => ?_
      unfold startingValue
      split
      · exact .ok _
      · split
        · exact .ok _
        · exact .error rfl
  | some values =>
      rw [startingVector]
      split
      · exact .ok _
      · exact .error rfl

theorem Store.check_refuses (x : Vector α store.size) : Refuses (store.check x) := by
  refine .forM fun i => ?_
  unfold checkValue
  dsimp only
  split
  · exact .ok ()
  · split
    · exact .error rfl
    · split
      · exact .ok ()
      · exact .error rfl

theorem prepare_refuses (function : ResidualFunction α) (initial : Option (Array α)) :
    Refuses (prepare store function options initial) := by
  refine options.validate_refuses.bind fun _ => (store.startingVector_refuses initial).bind fun x =>
    (store.check_refuses x).bind fun _ => ?_
  dsimp only
  split
  · exact .error rfl
  · split
    · exact (options.checkScale_refuses store.size).bind fun _ =>
        (options.mode?_refuses function).bind fun _ => .ok _
    · exact .error rfl

end Checks

/-! ### Errors of a fit -/

/-- The residual function of a problem, and its Jacobian if it has one, fail with messages only. -/
structure Problem.FailsPlainly (p : Problem α) : Prop where
  eval : ∀ f ∈ p.residuals, ∀ (n : ℕ) (x : Vector α n) (e : FitError α),
    f.eval x = .error e → ∃ message, e = .evaluation message
  jacobian : ∀ f ∈ p.residuals, f.hasJacobian = true → ∀ (n : ℕ) (x : Vector α n) (e : FitError α),
    f.jacobian x = .error e → ∃ message, e = .evaluation message

section Fits

variable [NormedScalar α] {p : Problem α} {trials : ℕ} {initial : Option (Array α)} {e : FitError α}

/-- A fit that fails was refused before anything was called, or its search failed. -/
theorem minimizeGuarded_error {store : Store α} {function : ResidualFunction α}
    {options : Options α} {w : Watch α store.size}
    (h : minimizeGuarded trials store function options initial =
      (.error (.halted (.failed e)), w)) :
    e.isRefusal = true ∧ w = .empty ∨
      ∃ start, prepare store function options initial = .ok start ∧
        (Setting.ofStore store function options start.mode).Failure e w.journal := by
  cases hprepare : prepare store function options initial with
  | error cause =>
      rw [minimizeGuarded_of_error hprepare] at h
      cases h
      exact .inl ⟨prepare_refuses store options function initial _ hprepare, rfl⟩
  | ok start =>
      rw [minimizeGuarded_of_start hprepare] at h
      have hsearch := (searchGuarded_of_prepare hprepare trials).resume_halted h
      exact .inr ⟨start, rfl, Setting.search_fails _ _ _ _ _ _ _ _ hsearch⟩

theorem Problem.solveGuarded_error {w : Watch α p.parameters.size}
    (h : p.solveGuarded trials initial = (.error (.halted (.failed e)), w)) :
    e.isRefusal = true ∧ w = .empty ∨
      ∃ f start, p.residuals = some f ∧ prepare p.parameters f p.options initial = .ok start ∧
        (Setting.ofStore p.parameters f p.options start.mode).Failure e w.journal := by
  cases hf : p.residuals with
  | none =>
      unfold solveGuarded function? at h
      rw [hf] at h
      cases h
      exact .inl ⟨rfl, rfl⟩
  | some f =>
      rcases minimizeGuarded_error ((solveGuarded_error_iff hf).1 h) with hrefused | hfailed
      · exact .inl hrefused
      · obtain ⟨start, hstart, hfailure⟩ := hfailed
        exact .inr ⟨f, start, rfl, hstart, hfailure⟩

theorem Problem.FailsPlainly.isConfiguration_eq_false (hp : p.FailsPlainly)
    {f : ResidualFunction α} (hf : p.residuals = some f) {start : Start p.parameters f}
    (hstart : prepare p.parameters f p.options initial = .ok start)
    {j : Journal α p.parameters.size}
    (h : (Setting.ofStore p.parameters f p.options start.mode).Failure e j) :
    e.isConfiguration = false := by
  cases h with
  | residuals _ heval =>
      obtain ⟨message, rfl⟩ := hp.eval f hf _ _ _ heval
      rfl
  | jacobian hmode _ hjacobian =>
      have hmode' : start.mode = .analytic := hmode
      have hhas := Options.hasJacobian_of_analytic (hmode' ▸ (prepare_ok hstart).2.2.2.2)
      obtain ⟨message, rfl⟩ := hp.jacobian f hf hhas _ _ _ hjacobian
      rfl
  | nonFiniteResiduals => rfl
  | nonFiniteJacobian => rfl
  | nonFiniteParameters => rfl

/-- Errors of configuration come first, and only first. Let the residual function and its Jacobian
fail with messages only. If a fit ends with an error of configuration then nothing was called, no
tie either. If anything was called, then a fit that fails does so with the error that the last call
reported, or because the residuals were not finite while that is checked, the Jacobian was not, or a
step was not. No size is found to be wrong but those of the starting values and of the scale, and no
index is out of range: the fit that checks all of them ends as the fit of the library does, with the
same journal. -/
theorem configuration_errors_first (hp : p.FailsPlainly) (trials : ℕ)
    (initial : Option (Array α)) :
    ((p.solveGuarded trials initial).1 = (p.solveWithin trials initial).1.mapError .halted ∧
      (p.solveGuarded trials initial).2.journal = (p.solveWithin trials initial).2) ∧
    ∀ e w, p.solveGuarded trials initial = (.error (.halted (.failed e)), w) →
      (e.isConfiguration = true → w.ties = #[] ∧ w.journal.calls = #[]) ∧
      (w.ties ≠ #[] ∨ w.journal.calls ≠ #[] → ∃ f start, p.residuals = some f ∧
        prepare p.parameters f p.options initial = .ok start ∧
        (Setting.ofStore p.parameters f p.options start.mode).Failure e w.journal) ∧
      (∀ index count, e ≠ .parameterIndex index count) ∧
      ∀ cause, e = .sizes cause → (∃ expected actual, cause = .initialValues expected actual) ∨
        ∃ expected actual, cause = .scaleEntries expected actual := by
  refine ⟨p.solveGuarded_eq trials initial, fun e w h => ?_⟩
  rcases Problem.solveGuarded_error h with ⟨hrefusal, rfl⟩ | ⟨f, start, hf, hstart, hfailure⟩
  · refine ⟨fun _ => ⟨rfl, rfl⟩, fun hcalled => ?_, ?_, ?_⟩
    · rcases hcalled with hties | hcalls
      · exact absurd rfl hties
      · exact absurd rfl hcalls
    · rintro index count rfl
      cases hrefusal
    · rintro cause rfl
      exact FitError.sizes_of_isRefusal hrefusal
  · have hnot : e.isConfiguration = false := hp.isConfiguration_eq_false hf hstart hfailure
    refine ⟨fun h => ?_, fun _ => ⟨f, start, hf, hstart, hfailure⟩, ?_, ?_⟩
    · rw [hnot] at h
      cases h
    · rintro index count rfl
      cases hnot
    · rintro cause rfl
      cases hnot

end Fits

noncomputable def refusing : ResidualFunction ℝ :=
  .ofEval 1 fun _ => .error (.evaluation "no value")

noncomputable def refusingProblem : Problem ℝ := ⟨⟨#[.ofValue 1]⟩, some refusing, .default⟩

theorem failsPlainly_refusing : refusingProblem.FailsPlainly where
  eval := by
    rintro f ⟨⟩ n x e ⟨⟩
    exact ⟨_, rfl⟩
  jacobian := by
    rintro f ⟨⟩ ⟨⟩

theorem prepare_refusing : prepare refusingProblem.parameters refusing .default (some #[1]) =
    .ok ⟨.finiteDifference, #v[1], le_rfl⟩ := by
  refine prepare_eq_ok (Options.validate_ok.2 inRange_default) rfl (Store.check_ok.2 ?_) (by decide)
    le_rfl rfl rfl
  exact Store.within_iff.2 (Fin.forall_fin_one.2 fun _ => ⟨nofun, nofun⟩)

/-- From a start of the right length the first call is made, and its error is the error of the fit;
from one of the wrong length nothing is called. -/
theorem configuration_errors_first_refusing :
    (∃ w, refusingProblem.solveGuarded 1 (some #[1]) =
        (.error (.halted (.failed (.evaluation "no value"))), w) ∧
      w.ties = #[#v[1], #v[1]] ∧ w.journal.calls = #[.residuals .start #v[1]] ∧
      ∃ f start, refusingProblem.residuals = some f ∧
        prepare refusingProblem.parameters f refusingProblem.options (some #[1]) = .ok start ∧
        (Setting.ofStore refusingProblem.parameters f refusingProblem.options start.mode).Failure
          (.evaluation "no value") w.journal) ∧
    ∃ w, refusingProblem.solveGuarded 1 (some #[]) =
        (.error (.halted (.failed (.sizes (.initialValues 1 0)))), w) ∧
      w.ties = #[] ∧ w.journal.calls = #[] := by
  constructor
  · have hsolve : ∃ w, refusingProblem.solveGuarded 1 (some #[1]) =
        (.error (.halted (.failed (.evaluation "no value"))), w) ∧
        w.ties = #[#v[1], #v[1]] ∧ w.journal.calls = #[.residuals .start #v[1]] := by
      obtain ⟨w, hsearch, hties, hcalls⟩ := Setting.searchGuarded_of_error
        (Setting.ofStore refusingProblem.parameters refusing .default .finiteDifference) 1
        refusingProblem.parameters.names rfl .empty
      exact ⟨w, (Problem.solveGuarded_error_iff rfl).2
        ((minimizeGuarded_of_start prepare_refusing).trans hsearch), hties, hcalls⟩
    obtain ⟨w, hw, hties, hcalls⟩ := hsolve
    have hcalled : w.ties ≠ #[] := by
      rw [hties]
      exact nofun
    have hordered := (configuration_errors_first failsPlainly_refusing 1 (some #[1])).2 _ w hw
    exact ⟨w, hw, hties, hcalls, hordered.2.1 (.inl hcalled)⟩
  · have hsolve : refusingProblem.solveGuarded 1 (some #[]) =
        (.error (.halted (.failed (.sizes (.initialValues 1 0)))), .empty) := by
      have hprepare : prepare refusingProblem.parameters refusing .default (some #[]) =
          .error (.sizes (.initialValues 1 0)) := by
        rw [prepare, Options.validate_ok.2 inRange_default]
        rfl
      exact (Problem.solveGuarded_error_iff rfl).2 (minimizeGuarded_of_error hprepare)
    exact ⟨.empty, hsolve,
      ((configuration_errors_first failsPlainly_refusing 1 (some #[])).2 _ _ hsolve).1 rfl⟩

end LeastSquares
