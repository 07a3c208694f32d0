import LeastSquares.Proofs.Runs
import Mathlib.Data.ENat.Lattice

/-!
The bound on trial steps. A search bounds the steps it accepts, and nothing bounds those it rejects;
its definition takes a bound on trials instead, and a run that reaches it is out of trials. Here is
what that bound means. A run that ends without reaching it ends the same way under every larger
bound, so that a search terminates just when some bound is never reached. And an iteration ends
when its rejected steps use something up: `tryUntilAccepted_ends` is the rule for its loop, with a
potential in the place of the bound, and `search_ends_of_iterations` carries it over to a whole
search, whose iterations are counted by the accepted steps.
-/

namespace LeastSquares

namespace Run

variable {α β γ : Type} {n : ℕ}

/-! ### Runs that end -/

/-- A run from the journal `j` comes to an end of its own, by success or failure. -/
def Ends (run : Run α n β) (j : Journal α n) : Prop := (run.resume j).1 ≠ .error .outOfTrials

namespace Ends

variable {j : Journal α n}

theorem of_eq {run : Run α n β} {j' : Journal α n} {e : Except (FitError α) β}
    (h : run.resume j = (e.mapError .failed, j')) : run.Ends j := by
  rw [Ends, h]
  cases e <;> simp

theorem pure {b : β} : (pure b : Run α n β).Ends j := of_eq (e := .ok b) rfl

theorem bind {run : Run α n β} {f : β → Run α n γ} (hrun : run.Ends j)
    (hf : ∀ b i, run.resume j = (.ok b, i) → (f b).Ends i) : (run >>= f).Ends j := by
  rw [Ends, resume_bind]
  rcases h : run.resume j with ⟨e | b, i⟩
  · rw [Ends, h] at hrun
    intro hout
    exact hrun (by cases hout; rfl)
  · exact hf b i h

theorem require {ok : Bool} {cause : FitError α} : (Run.require ok cause).Ends j := by
  cases ok
  · exact of_eq (e := .error cause) rfl
  · exact of_eq (e := .ok ()) rfl

theorem ofExcept {e : Except (FitError α) β} : (Run.ofExcept e : Run α n β).Ends j :=
  of_eq (resume_ofExcept e j)

theorem record {call : Call α n} : (Run.record call).Ends j := of_eq (e := .ok ()) rfl

theorem log {entry : LogEntry α} : (Run.log entry : Run α n Unit).Ends j := of_eq (e := .ok ()) rfl

theorem countEvaluation : (Run.countEvaluation : Run α n Unit).Ends j := of_eq (e := .ok ()) rfl

theorem countJacobian : (Run.countJacobian : Run α n Unit).Ends j := of_eq (e := .ok ()) rfl

theorem evaluations : (Run.evaluations : Run α n ℕ).Ends j := of_eq (e := .ok _) rfl

theorem jacobians : (Run.jacobians : Run α n ℕ).Ends j := of_eq (e := .ok _) rfl

theorem congruence : IsCongruence (M := Run α n) (N := Run α n) fun _ run _ => ∀ j, run.Ends j :=
  ⟨fun _ _ => .pure, fun hrun hf j => (hrun j).bind fun c i _ => hf c i⟩

end Ends

/-! ### Runs that a larger bound does not change -/

/-- Where the first run ends, the second one does the same. -/
def Extends (run run' : Run α n β) : Prop := ∀ j, run.Ends j → run'.resume j = run.resume j

namespace Extends

theorem refl (run : Run α n β) : Extends run run := fun _ _ => rfl

theorem throw {run : Run α n β} : Extends (throw .outOfTrials) run := by
  intro j h
  exact absurd rfl h

theorem bind {run run' : Run α n β} {f f' : β → Run α n γ} (hrun : Extends run run')
    (hf : ∀ b, Extends (f b) (f' b)) : Extends (run >>= f) (run' >>= f') := by
  intro j h
  rw [resume_bind, resume_bind]
  rw [Ends, resume_bind] at h
  rcases hfirst : run.resume j with ⟨e | b, i⟩
  · rw [hfirst] at h
    have hends : run.Ends j := by
      rw [Ends, hfirst]
      intro hout
      exact h (by cases hout; rfl)
    rw [hrun j hends, hfirst]
  · rw [hfirst] at h
    have hends : run.Ends j := .of_eq (e := .ok b) hfirst
    rw [hrun j hends, hfirst]
    exact hf b i h

theorem ends {run run' : Run α n β} (h : Extends run run') {j : Journal α n} (hends : run.Ends j) :
    run'.Ends j := by
  rw [Ends, h j hends]
  exact hends

theorem ok {run run' : Run α n β} (h : Extends run run') {j j' : Journal α n} {b : β}
    (hrun : run.resume j = (.ok b, j')) : run'.resume j = (.ok b, j') := by
  rw [h j (Ends.of_eq (e := .ok b) hrun), hrun]

end Extends

/-! ### What a run records -/

/-- A run makes at most `calls` calls, whatever its outcome. -/
def Records (run : Run α n β) (calls : ℕ) : Prop :=
  ∀ j, (run.resume j).2.calls.size ≤ j.calls.size + calls

namespace Records

theorem pure {b : β} : (pure b : Run α n β).Records 0 := fun _ => le_rfl

theorem bind {run : Run α n β} {f : β → Run α n γ} {a b : ℕ} (hrun : run.Records a)
    (hf : ∀ c, (f c).Records b) : (run >>= f).Records (a + b) := by
  intro j
  have hfirst := hrun j
  rw [resume_bind]
  generalize run.resume j = outcome at hfirst
  rcases outcome with ⟨e | c, i⟩
  · show i.calls.size ≤ _
    change i.calls.size ≤ _ at hfirst
    omega
  · have hrest := hf c i
    change i.calls.size ≤ _ at hfirst
    show ((f c).resume i).2.calls.size ≤ _
    omega

theorem of_calls_eq {run : Run α n β} (h : ∀ j, (run.resume j).2.calls = j.calls) :
    run.Records 0 := by
  intro j
  rw [h j]
  exact le_rfl

theorem record {call : Call α n} : (Run.record call).Records 1 := by
  intro j
  rw [resume_record]
  exact (Array.size_push _).le

end Records

end Run

/-! ### What the tests leave open -/

/-- A step that gives no reason to stop leaves room for more iterations and evaluations, and for
smaller steps. -/
theorem Options.of_stepStatus_isEmpty {α : Type} [Scalar α] {o : Options α} {t : StepStatistics α}
    {iterations evaluations : ℕ} (h : (o.stepStatus t iterations evaluations).isEmpty = true) :
    iterations < o.maxIterations ∧ (∀ limit ∈ o.maxEvaluations, evaluations < limit) ∧
      t.changeWithin o.xtol = false ∧ t.changeWithin Scalar.epsilon = false := by
  unfold stepStatus at h
  dsimp only at h
  split at h
  · next hconverged =>
    have hxtol := Status.contains_eq_false hconverged .xtolConverged
    have hiterations := Status.contains_eq_false h .maxIterations
    have hevaluations := Status.contains_eq_false h .maxEvaluations
    have hepsilon := Status.contains_eq_false h .xtolTooSmall
    simp only [Status.ofTests, List.any_cons, List.any_nil]
      at hxtol hiterations hevaluations hepsilon
    refine ⟨by simpa using hiterations, fun limit hlimit => ?_, by simpa using hxtol,
      by simpa using hepsilon⟩
    rw [Option.mem_def.1 hlimit] at hevaluations
    simpa using hevaluations
  · next hconverged => exact absurd h hconverged

namespace Setting

open Run

variable {α : Type} {n m k : ℕ}

/-! ### Evaluations end -/

section Evaluation

variable [Scalar α] {s : Setting α n m k} {x : Vector α n} {j : Journal α n}

theorem residualsAt_ends {purpose : Purpose} : (s.residualsAt purpose x).Ends j :=
  .bind .record fun _ _ _ => .bind .ofExcept fun _ _ _ => .bind .countEvaluation fun _ _ _ =>
    .bind .require fun _ _ _ => .pure

theorem residualsAt_records {purpose : Purpose} : (s.residualsAt purpose x).Records 1 :=
  .bind .record fun _ => .bind (.of_calls_eq fun j => by rw [resume_ofExcept]) fun _ =>
    .bind (.of_calls_eq fun _ => rfl) fun _ =>
      .bind (.of_calls_eq fun j => by rw [resume_require]) fun _ => .pure

theorem jacobianAt_ends {fx : Vector α m} : (s.jacobianAt x fx).Ends j := by
  refine .bind .countJacobian fun _ i _ => ?_
  have hchecked : ∀ (a : Mat α m k) i', (do
      Run.require (a.entries.all Scalar.isFinite) .nonFiniteJacobian
      return a : Run α n (Mat α m k)).Ends i' := fun _ _ => .bind .require fun _ _ _ => .pure
  cases s.mode with
  | analytic =>
      refine .bind ?_ fun a i' _ => hchecked a i'
      exact .bind .record fun _ _ _ => .bind .ofExcept fun _ _ _ => .pure
  | finiteDifference =>
      refine .bind ?_ fun a i' _ => hchecked a i'
      exact Ends.congruence.differenceJacobian (g := s.residualsAt .probe)
        (fun _ _ _ => residualsAt_ends) i

end Evaluation

variable [NormedScalar α] {s : Setting α n m k} {tall : k ≤ m}

theorem startAt_ends {x : Vector α n} {j : Journal α n} : (s.startAt x).Ends j :=
  .bind .log fun _ _ _ => .bind residualsAt_ends fun _ _ _ => .pure

theorem conclude_ends {names : Vector (Option String) n} {start : α} {f : Finish α n m k}
    {j : Journal α n} : (s.conclude names start f).Ends j := by
  refine .bind ?_ fun _ _ _ => .bind .evaluations fun _ _ _ => .bind .jacobians fun _ _ _ => .pure
  unfold logFinish
  dsimp only
  split
  · exact .bind .log fun _ _ _ => .bind .evaluations fun _ _ _ => .log
  · exact .bind .evaluations fun _ _ _ => .log

/-! ### One trial step -/

section Steps

variable {l : Linearization α m k} {scale : Vector α k} {cosine : α} {p : Progress α n m k}

theorem tryStep_ends {j : Journal α n} : (s.tryStep l scale cosine p).Ends j := by
  refine .bind .require fun _ _ _ => .bind residualsAt_ends fun _ i _ => .bind ?_ fun _ _ _ =>
    .bind .evaluations fun _ _ _ => .pure
  obtain ⟨log, hlog⟩ := logTrial_ok (s.judge l p.point (s.propose l scale p) _)
    (s.pointAfter p.point scale (s.propose l scale p) _ _) cosine i
  exact .of_eq (e := .ok ()) hlog

theorem tryStep_evaluations {result : TrialResult α n m k} {j j' : Journal α n}
    (h : (s.tryStep l scale cosine p).resume j = (.ok result, j')) :
    j'.evaluations = j.evaluations + 1 := by
  simp only [tryStep, bind_ok, require_ok, resume_pure, resume_evaluations, Prod.mk.injEq,
    Except.ok.injEq] at h
  obtain ⟨_, _, ⟨-, rfl⟩, r, i, hr, _, i', hlog, _, _, ⟨-, rfl⟩, -, rfl⟩ := h
  obtain ⟨log, hlog'⟩ := logTrial_ok (s.judge l p.point (s.propose l scale p) r)
    (s.pointAfter p.point scale (s.propose l scale p) r
      (s.judge l p.point (s.propose l scale p) r)) cosine i
  cases hlog'.symm.trans hlog
  obtain ⟨f, -, -, -, rfl⟩ := residualsAt_ok.1 hr
  rfl

theorem tryStep_records : (s.tryStep l scale cosine p).Records 1 := by
  refine .bind (a := 0) (.of_calls_eq fun j => by rw [resume_require]) fun _ =>
    .bind (a := 1) (b := 0) residualsAt_records fun r => ?_
  refine .bind (a := 0) (.of_calls_eq fun i => ?_) fun _ =>
    .bind (a := 0) (.of_calls_eq fun _ => rfl) fun _ => .pure
  obtain ⟨log, hlog⟩ := logTrial_ok (s.judge l p.point (s.propose l scale p) r)
    (s.pointAfter p.point scale (s.propose l scale p) r _) cosine i
  rw [hlog]

/-! ### The loop of trial steps -/

/-- A rejected step that gives no reason to stop uses up one unit of `potential`. -/
def UsesUp (s : Setting α n m k) (l : Linearization α m k) (scale : Vector α k) (cosine : α)
    (potential : ℕ → Progress α n m k → Journal α n → Prop) : Prop :=
  ∀ r p j result j', potential r p j →
    (s.tryStep l scale cosine p).resume j = (.ok result, j') →
    result.accepted = false → result.status.isEmpty = true →
    ∃ r', r = r' + 1 ∧ potential r' result.progress j'

/-- An iteration ends after as many steps as its potential, and one more. -/
theorem tryUntilAccepted_ends {potential : ℕ → Progress α n m k → Journal α n → Prop}
    (hstep : s.UsesUp l scale cosine potential) {r trials : ℕ} {j : Journal α n}
    (hp : potential r p j) (htrials : r < trials) :
    (s.tryUntilAccepted l scale cosine trials p).Ends j ∧
      ((s.tryUntilAccepted l scale cosine trials p).resume j).2.calls.size ≤
        j.calls.size + (r + 1) := by
  induction trials generalizing p r j with
  | zero => exact absurd htrials (Nat.not_lt_zero r)
  | succ trials ih =>
      have hrecords : ((s.tryStep l scale cosine p).resume j).2.calls.size ≤ j.calls.size + 1 :=
        tryStep_records j
      have hends : (s.tryStep l scale cosine p).Ends j := tryStep_ends
      unfold tryUntilAccepted
      rw [Ends, resume_bind]
      rw [Ends] at hends
      rcases hresult : (s.tryStep l scale cosine p).resume j with ⟨e | result, i⟩
      · rw [hresult] at hends hrecords
        refine ⟨fun hout => hends (by cases hout; rfl), ?_⟩
        change i.calls.size ≤ _ at hrecords
        show i.calls.size ≤ _
        omega
      · rw [hresult] at hrecords
        change i.calls.size ≤ _ at hrecords
        dsimp only
        by_cases hend : (result.accepted || !result.status.isEmpty) = true
        · rw [if_pos hend, resume_pure]
          refine ⟨by simp, ?_⟩
          show i.calls.size ≤ _
          omega
        · rw [if_neg hend]
          simp only [Bool.or_eq_true, Bool.not_eq_true', not_or, Bool.not_eq_true,
            Bool.not_eq_false] at hend
          -- rejected for no reason to stop: what is left of the potential pays for the rest
          obtain ⟨r', rfl, hnext⟩ := hstep _ _ _ _ _ hp hresult hend.1 hend.2
          obtain ⟨hrest, hcalls⟩ := ih hnext (by omega)
          exact ⟨hrest, by omega⟩

/-- Every step of an iteration counts an evaluation, so a bound on these is a potential. -/
theorem usesUp_evaluations {limit : ℕ} (h : s.options.maxEvaluations = some limit) :
    s.UsesUp l scale cosine fun r _ j => limit ≤ j.evaluations + r + 1 := by
  intro r p j result j' hr hstep _ hstatus
  obtain ⟨f, i, -, hf, hresult⟩ := tryStep_ok hstep
  have hj' := tryStep_evaluations hstep
  obtain ⟨-, -, -, -, rfl⟩ := residualsAt_ok.1 hf
  rw [hresult] at hstatus
  have hlt := (Options.of_stepStatus_isEmpty hstatus).2.1 limit (by rw [h]; rfl)
  simp only [journalAfter] at hlt
  exact ⟨r - 1, by omega, by omega⟩

end Steps

/-! ### Larger bounds -/

section Larger

variable {trials trials' : ℕ}

theorem tryUntilAccepted_extends (h : trials ≤ trials') (l : Linearization α m k)
    (scale : Vector α k) (cosine : α) (p : Progress α n m k) :
    Extends (s.tryUntilAccepted l scale cosine trials p)
      (s.tryUntilAccepted l scale cosine trials' p) := by
  induction trials generalizing trials' p with
  | zero => exact .throw
  | succ trials ih =>
      obtain ⟨trials', rfl⟩ : ∃ t, trials' = t + 1 := ⟨trials' - 1, by omega⟩
      refine .bind (.refl _) fun result => ?_
      split
      · exact .refl _
      · exact ih (by omega) _

theorem advance_extends (h : trials ≤ trials') (l : Linearization α m k) (c : Checkpoint α n m k) :
    Extends (s.advance l trials c) (s.advance l trials' c) := by
  unfold advance
  dsimp only
  split
  · exact .refl _
  · split
    · exact .refl _
    · exact .bind (tryUntilAccepted_extends h _ _ _ _) fun _ => .refl _

theorem iteration_extends (h : trials ≤ trials') (c : Checkpoint α n m k) :
    Extends (s.iteration tall trials c) (s.iteration tall trials' c) :=
  .bind (.refl _) fun _ => advance_extends h _ _

theorem iterate_extends (h : trials ≤ trials') (iterations : ℕ) (c : Checkpoint α n m k) :
    Extends (s.iterate tall trials iterations c) (s.iterate tall trials' iterations c) := by
  induction iterations generalizing c with
  | zero => exact .refl _
  | succ iterations ih =>
      refine .bind (iteration_extends h c) fun outcome => ?_
      cases outcome with
      | inl finish => exact .refl _
      | inr next => exact ih next

theorem search_extends (h : trials ≤ trials') (names : Vector (Option String) n) (x : Vector α n) :
    Extends (s.search tall trials names x) (s.search tall trials' names x) :=
  .bind (.refl _) fun _ => .bind (iterate_extends h _ _) fun _ => .refl _

/-- A larger bound on trials loses no checkpoint. -/
theorem Visits.mono (h : trials ≤ trials') {x : Vector α n} {c : Checkpoint α n m k}
    {j : Journal α n} (hc : s.Visits tall trials x c j) : s.Visits tall trials' x c j := by
  induction hc with
  | start hp => exact .start hp
  | next _ hstep ih => exact .next ih ((iteration_extends h _).ok hstep)

end Larger

/-! ### A whole search -/

/-- An iteration that is not the last one is counted, and is not one too many. -/
theorem iteration_next {trials : ℕ} {c c' : Checkpoint α n m k} {j j' : Journal α n}
    (h : (s.iteration tall trials c).resume j = (.ok (.inr c'), j')) :
    c'.point.iterations = c.point.iterations + 1 ∧
      c'.point.iterations < s.options.maxIterations := by
  obtain ⟨a, i, -, h⟩ := iteration_ok h
  obtain ⟨v, hpoint⟩ := rescale_point (s := s) (.ofJacobian s.limits c.point a tall) c
  rcases advance_ok h with ⟨_, -, hend, -⟩ | ⟨-, q, i', result, hq, hstep, hend⟩
  · cases hend
  · rcases hend with ⟨-, hend⟩ | ⟨hstatus, haccepted, hend⟩
    · cases hend
    · cases hend
      refine ⟨?_, ?_⟩
      · rw [tryStep_accepted hstep haccepted, hq.point_eq, hpoint]
      · obtain ⟨r, i, -, -, rfl⟩ := tryStep_ok hstep
        exact (Options.of_stepStatus_isEmpty hstatus).1

/-- The loop of trial steps in the iteration at a checkpoint, once the Jacobian is known. -/
def trialsAt (s : Setting α n m k) (tall : k ≤ m) (trials : ℕ) (c : Checkpoint α n m k)
    (a : Mat α m k) : Run α n (TrialResult α n m k) :=
  let l := Linearization.ofJacobian s.limits c.point a tall
  let c := s.rescale l c
  s.tryUntilAccepted l (s.stepScale l c.scale) (l.gradientCosine c.point.norm) trials
    ⟨c.point, c.region, l.r⟩

theorem iteration_ends {trials : ℕ} {c : Checkpoint α n m k} {j : Journal α n}
    (h : ∀ a i, (s.jacobianAt c.point.x c.point.residuals).resume j = (.ok a, i) →
      (s.trialsAt tall trials c a).Ends i) : (s.iteration tall trials c).Ends j := by
  refine .bind jacobianAt_ends fun a i ha => ?_
  unfold advance
  dsimp only
  split
  · exact .pure
  · split
    · exact .pure
    · refine .bind (h a i ha) fun result _ _ => ?_
      split
      · exact .pure
      · exact .pure

section Search

variable {cap : ℕ∞} {x : Vector α n}

/-- Every iteration of the search from `x` ends under some bound on its trials of at most `cap`. -/
def IterationsEnd (s : Setting α n m k) (tall : k ≤ m) (cap : ℕ∞) (x : Vector α n) : Prop :=
  ∀ t c j a i, s.Visits tall t x c j →
    (s.jacobianAt c.point.x c.point.residuals).resume j = (.ok a, i) →
    ∃ trials : ℕ, trials ≤ cap ∧ (s.trialsAt tall trials c a).Ends i

/-- The iterations that are left end under one bound, by induction on how many may be left. -/
theorem iterate_ends (hend : s.IterationsEnd tall cap x) {t iterations : ℕ}
    {c : Checkpoint α n m k} {j : Journal α n} (hc : s.Visits tall t x c j)
    (hle : c.point.iterations ≤ s.options.maxIterations)
    (hleft : s.options.maxIterations < c.point.iterations + iterations) :
    ∃ trials : ℕ, trials ≤ cap ∧ (s.iterate tall trials iterations c).Ends j := by
  induction iterations generalizing t c j with
  | zero => exact absurd hleft (by omega)
  | succ iterations ih =>
      obtain ⟨trials, hcap, hiteration⟩ :
          ∃ trials : ℕ, trials ≤ cap ∧ (s.iteration tall trials c).Ends j := by
        rcases ha : (s.jacobianAt c.point.x c.point.residuals).resume j with ⟨e | a, i⟩
        · refine ⟨0, zero_le, iteration_ends fun b i' hb => ?_⟩
          cases ha.symm.trans hb
        · obtain ⟨trials, hcap, htrials⟩ := hend t c j a i hc ha
          refine ⟨trials, hcap, iteration_ends fun b i' hb => ?_⟩
          cases ha.symm.trans hb
          exact htrials
      rcases hstep : (s.iteration tall trials c).resume j with ⟨e | finish | next, j'⟩
      · refine ⟨trials, hcap, .bind hiteration fun b i hb => ?_⟩
        cases hstep.symm.trans hb
      · refine ⟨trials, hcap, .bind hiteration fun b i hb => ?_⟩
        cases hstep.symm.trans hb
        exact .pure
      · obtain ⟨hcount, hlt⟩ := iteration_next hstep
        have hstep' := (iteration_extends (le_max_right t trials) c).ok hstep
        obtain ⟨trials', hcap', hrest⟩ :=
          ih ((hc.mono (le_max_left t trials)).next hstep') hlt.le (by omega)
        -- one bound that is large enough for this iteration and for those that follow
        refine ⟨max trials trials', by exact_mod_cast max_le hcap hcap', ?_⟩
        refine .bind ((iteration_extends (le_max_left _ _) c).ends hiteration) fun b i hb => ?_
        cases ((iteration_extends (le_max_left _ _) c).ok hstep).symm.trans hb
        exact (iterate_extends (le_max_right _ _) _ _).ends hrest

/-- A search ends under one bound if each of its iterations ends under some bound. -/
theorem search_ends_of_iterations (names : Vector (Option String) n)
    (hend : s.IterationsEnd tall cap x) :
    ∃ trials : ℕ, trials ≤ cap ∧ (s.search tall trials names x).Ends .empty := by
  rcases hp : (s.startAt x).resume .empty with ⟨e | p, j⟩
  · refine ⟨0, zero_le, .bind startAt_ends fun p i hp' => ?_⟩
    cases hp.symm.trans hp'
  · have hiterations : p.iterations = 0 := by
      obtain ⟨r, i, -, rfl⟩ := startAt_ok hp
      rfl
    have hfirst : s.Visits tall 0 x (s.firstCheckpoint p) j := .start hp
    obtain ⟨trials, hcap, hends⟩ : ∃ trials : ℕ, trials ≤ cap ∧
        (s.iterate tall trials (s.options.maxIterations + 1) (s.firstCheckpoint p)).Ends j :=
      iterate_ends hend hfirst (by simp [firstCheckpoint, hiterations])
        (by simp [firstCheckpoint, hiterations])
    refine ⟨trials, hcap, .bind startAt_ends fun p' i hp' => ?_⟩
    cases hp.symm.trans hp'
    exact .bind hends fun _ _ _ => conclude_ends

end Search

end Setting

/-! ### A whole fit -/

section Fit

variable {α : Type} [NormedScalar α] {store : Store α} {function : ResidualFunction α}
  {options : Options α} {initial : Option (Array α)}

/-- A fit that ends of its own under one bound on trials does the same under every larger one. -/
theorem minimizeWithin_eq_of_le {trials trials' : ℕ} (hle : trials ≤ trials')
    (h : (minimizeWithin trials store function options initial).1 ≠ .error .outOfTrials) :
    minimizeWithin trials' store function options initial =
      minimizeWithin trials store function options initial := by
  cases hstart : prepare store function options initial with
  | error cause => rw [minimizeWithin_of_error hstart, minimizeWithin_of_error hstart]
  | ok start =>
      rw [minimizeWithin_of_start hstart] at h ⊢
      rw [minimizeWithin_of_start hstart]
      exact Setting.search_extends hle _ _ _ h

theorem minimizeWithin_ends {cap : ℕ∞}
    (hend : ∀ start, prepare store function options initial = .ok start →
      (Setting.ofStore store function options start.mode).IterationsEnd start.tall cap start.x) :
    ∃ bound : ℕ, bound ≤ cap ∧
      (minimizeWithin bound store function options initial).1 ≠ .error .outOfTrials := by
  cases hstart : prepare store function options initial with
  | error cause => exact ⟨0, zero_le, by simp [minimizeWithin_of_error hstart]⟩
  | ok start =>
      simp only [minimizeWithin_of_start hstart]
      exact Setting.search_ends_of_iterations store.names (hend start hstart)

end Fit

end LeastSquares
