import LeastSquares.Proofs.TrialStep

/-!
The trial steps of a search. `Attempts` holds of the progress from which a search tries a step: after
the gradient test of an iteration, and after rejected steps only. What holds of every attempt shows
in the log, which has an entry for each trial step and keeps it also when the search fails later on.
-/

namespace LeastSquares

namespace Run

variable {α β γ : Type} {n : ℕ} {P : LogEntry α → Prop} {j : Journal α n}

/-- Started on the journal `j`, a run logs only what satisfies `P`, whatever its outcome. -/
def Logs (P : LogEntry α → Prop) (run : Run α n β) (j : Journal α n) : Prop :=
  ∀ entry ∈ (run.resume j).2.log, entry ∈ j.log ∨ P entry

namespace Logs

theorem of_log_eq {run : Run α n β} (h : (run.resume j).2.log = j.log) : Logs P run j := by
  intro entry hentry
  rw [h] at hentry
  exact .inl hentry

theorem pure {b : β} : Logs P (pure b) j := of_log_eq rfl

theorem throw {halt : Halt α} : Logs P (throw halt : Run α n β) j := of_log_eq rfl

theorem log {entry : LogEntry α} (h : P entry) : Logs P (Run.log entry) j := by
  intro logged hlogged
  rcases Array.mem_push.1 hlogged with hbefore | rfl
  · exact .inl hbefore
  · exact .inr h

theorem require {ok : Bool} {cause : FitError α} : Logs P (Run.require ok cause) j :=
  of_log_eq (by rw [resume_require])

theorem ofExcept {e : Except (FitError α) β} : Logs P (Run.ofExcept e) j :=
  of_log_eq (by rw [resume_ofExcept])

theorem bind {run : Run α n β} {f : β → Run α n γ} (hrun : Logs P run j)
    (hf : ∀ b i, run.resume j = (.ok b, i) → Logs P (f b) i) : Logs P (run >>= f) j := by
  intro entry hentry
  rw [resume_bind] at hentry
  rcases hresume : run.resume j with ⟨_ | b, i⟩
  · rw [hresume] at hentry
    exact hrun entry (by rw [hresume]; exact hentry)
  · rw [hresume] at hentry
    rcases hf b i hresume entry hentry with hbefore | hentry
    · exact hrun entry (by rw [hresume]; exact hbefore)
    · exact .inr hentry

theorem congruence : IsCongruence (M := Run α n) (N := Run α n) fun _ run _ => ∀ j, Logs P run j :=
  ⟨fun _ _ => .pure, fun hrun hf j => (hrun j).bind fun c i _ => hf c i⟩

section Evaluation

variable [Scalar α] {m k : ℕ} {s : Setting α n m k} {x : Vector α n}

theorem residualsAt {purpose : Purpose} : Logs P (s.residualsAt purpose x) j :=
  .bind (.of_log_eq rfl) fun _ _ _ => .bind .ofExcept fun _ _ _ =>
    .bind (.of_log_eq rfl) fun _ _ _ => .bind .require fun _ _ _ => .pure

/-- Nothing is logged while a Jacobian is evaluated. -/
theorem jacobianAt {fx : Vector α m} : Logs P (s.jacobianAt x fx) j := by
  refine .bind (.of_log_eq rfl) fun _ _ _ => ?_
  cases s.mode with
  | analytic =>
      refine .bind (.bind (.of_log_eq rfl) fun _ _ _ => .bind .ofExcept fun _ _ _ => .pure)
        fun _ _ _ => ?_
      exact .bind .require fun _ _ _ => .pure
  | finiteDifference =>
      refine .bind ?_ fun _ _ _ => .bind .require fun _ _ _ => .pure
      exact Logs.congruence.differenceJacobian (g := s.residualsAt .probe)
        (fun _ _ _ => .residualsAt) _

end Evaluation

end Logs

end Run

def Verdict.entry {α : Type} (v : Verdict α) : LogEntry α :=
  .trial v.norm v.ratio v.part v.region.radius v.region.damping

def LogEntry.isTrial {α : Type} : LogEntry α → Bool
  | .trial .. => true
  | _ => false

namespace Setting

variable {n m k : ℕ}

/-- The step that is tried from the progress `q` in the iteration from the checkpoint `c`. -/
noncomputable abbrev proposalAt (s : Setting ℝ n m k) (tall : k ≤ m) (c : Checkpoint ℝ n m k)
    (a : Mat ℝ m k) (q : Progress ℝ n m k) : Proposal ℝ k :=
  s.propose (s.modelAt tall c a) (s.scaleAt tall c a) q

/-- A search from `x` tries a step from the progress `q`, with the journal `i`: in the iteration
from the checkpoint `c`, with the Jacobian `a`, the gradient test has let it go on, and every step
before was rejected. -/
structure Attempts (s : Setting ℝ n m k) (tall : k ≤ m) (trials : ℕ) (x : Vector ℝ n)
    (c : Checkpoint ℝ n m k) (a : Mat ℝ m k) (q : Progress ℝ n m k) (i : Journal ℝ n) : Prop where
  gradient : s.options.gtol < s.cosineAt tall c a
  limit : s.options.maxIterations ≠ 0
  run : ∃ j j', s.Visits tall trials x c j ∧
    (s.jacobianAt c.point.x c.point.residuals).resume j = (.ok a, j') ∧
    s.Tries (s.modelAt tall c a) (s.scaleAt tall c a) (s.cosineAt tall c a) (s.progressAt tall c a)
      j' q i

variable {s : Setting ℝ n m k} {tall : k ≤ m} {trials : ℕ} {x : Vector ℝ n}
  {c : Checkpoint ℝ n m k} {a : Mat ℝ m k} {q : Progress ℝ n m k} {i : Journal ℝ n}
  {P : LogEntry ℝ → Prop}

namespace Attempts

variable (h : s.Attempts tall trials x c a q i)

include h

theorem point_eq : ∃ v, q.point = { c.point with scaledNorm := v } := by
  obtain ⟨_, _, -, -, htries⟩ := h.run
  rw [htries.point_eq]
  exact rescale_point _ _

theorem free_eq : q.point.free = c.point.free := by
  obtain ⟨v, hpoint⟩ := h.point_eq
  rw [hpoint]

theorem residuals_eq : q.point.residuals = c.point.residuals := by
  obtain ⟨v, hpoint⟩ := h.point_eq
  rw [hpoint]

theorem norm_eq : q.point.norm = euclid q.point.residuals := by
  obtain ⟨j, _, hvisits, -, -⟩ := h.run
  obtain ⟨v, hpoint⟩ := h.point_eq
  rw [hpoint]
  exact (norm_eq_of_visits hvisits).trans (normOf_eq _ _)

theorem masked_eq :
    Linearization.masked s.limits q.point a = Linearization.masked s.limits c.point a := by
  rw [Linearization.masked, h.free_eq, h.residuals_eq]

/-- The linear model is that of the point which the step is tried from. -/
theorem modelAt_eq : s.modelAt tall c a = .ofJacobian s.limits q.point a tall := by
  obtain ⟨v, hpoint⟩ := h.point_eq
  rw [hpoint]
  rfl

variable (hoptions : s.options.InRange)

include hoptions

theorem ready : Ready (s.rescale (s.modelAt tall c a) c) := by
  obtain ⟨_, _, hvisits, -, -⟩ := h.run
  exact ready_progressAt hoptions hvisits a

theorem scale_pos (e : Fin k) : 0 < (s.scaleAt tall c a)[e] :=
  (h.ready hoptions).stepScale_pos _ e

theorem steady : Steady (s.modelAt tall c a) q := by
  have hxtol : 0 ≤ s.options.xtol := Options.isTolerance_iff.1 hoptions.xtol
  obtain ⟨_, _, -, -, htries⟩ := h.run
  exact Tries.steady ((h.ready hoptions).steady _) (h.scale_pos hoptions) hxtol htries

theorem isDampedStep : ((s.modelAt tall c a).stepModel (s.scaleAt tall c a)).IsDampedStep
    (s.modelAt tall c a).r (s.proposalAt tall c a q).damped :=
  (h.steady hoptions).isDampedStep (h.scale_pos hoptions)

end Attempts

/-! ### The log of a search -/

section Logs

open Run

theorem logTrial_logs (hother : ∀ entry : LogEntry ℝ, entry.isTrial = false → P entry)
    {v : Verdict ℝ} (h : P v.entry) (next : Iterate ℝ n m k) (cosine : ℝ) (j : Journal ℝ n) :
    Logs P (v.logTrial next cosine) j := by
  refine .bind (.log h) fun _ _ _ => ?_
  split
  · exact .bind (.of_log_eq rfl) fun _ _ _ => .log (hother _ rfl)
  · exact .pure

variable {l : Linearization ℝ m k} {scale : Vector ℝ k} {cosine : ℝ}

theorem tryStep_logs (hother : ∀ entry : LogEntry ℝ, entry.isTrial = false → P entry)
    (h : ∀ r i', (s.residualsAt .trial (s.withFree q.point.x
        (s.propose l scale q).move.target)).resume i = (.ok r, i') →
      P (s.judge l q.point (s.propose l scale q) r).entry) :
    Logs P (s.tryStep l scale cosine q) i := by
  refine .bind .require fun _ i₁ hrequire => ?_
  obtain ⟨-, rfl⟩ := require_ok.1 hrequire
  refine .bind .residualsAt fun r i₂ hr => ?_
  refine .bind (logTrial_logs hother (h r i₂ hr) _ _ _) fun _ _ _ => ?_
  exact .bind (.of_log_eq rfl) fun _ _ _ => .pure

theorem tryUntilAccepted_logs {p : Progress ℝ n m k} {j : Journal ℝ n}
    (h : ∀ q i, s.Tries l scale cosine p j q i → Logs P (s.tryStep l scale cosine q) i)
    (hq : s.Tries l scale cosine p j q i) :
    Logs P (s.tryUntilAccepted l scale cosine trials q) i := by
  induction trials generalizing q i with
  | zero => exact .throw
  | succ trials ih =>
      refine .bind (h q i hq) fun result i' hresult => ?_
      split
      · exact .pure
      · next hend =>
        simp only [Bool.or_eq_true, Bool.not_eq_true', not_or, Bool.not_eq_true,
          Bool.not_eq_false] at hend
        exact ih (hq.next hresult hend.1 hend.2)

variable (hattempts : ∀ c a q i, s.Attempts tall trials x c a q i →
  Logs P (s.tryStep (s.modelAt tall c a) (s.scaleAt tall c a) (s.cosineAt tall c a) q) i)

include hattempts

theorem iteration_logs {j : Journal ℝ n} (hc : s.Visits tall trials x c j) :
    Logs P (s.iteration tall trials c) j := by
  refine .bind .jacobianAt fun a j' ha => ?_
  unfold advance
  dsimp only
  split
  · exact .pure
  · next hgradient =>
    split
    · exact .pure
    · next hlimit =>
      refine .bind (tryUntilAccepted_logs (fun q i hq => hattempts c a q i ?_) .first)
        fun result _ _ => ?_
      · rw [Bool.not_eq_true', Bool.not_eq_false] at hgradient
        exact ⟨Options.isEmpty_gradientStatus_iff_lt.1 hgradient, hlimit, j, j', hc, ha, hq⟩
      · split
        · exact .pure
        · exact .pure

theorem iterate_logs {j : Journal ℝ n} {iterations : ℕ} (hc : s.Visits tall trials x c j) :
    Logs P (s.iterate tall trials iterations c) j := by
  induction iterations generalizing c j with
  | zero => exact .throw
  | succ iterations ih =>
      refine .bind (iteration_logs hattempts hc) fun outcome j' houtcome => ?_
      cases outcome with
      | inl finish => exact .pure
      | inr next => exact ih (hc.next houtcome)

omit hattempts

/-- What holds of the verdict on every attempt holds of every trial step in the log. -/
theorem search_logs (hother : ∀ entry : LogEntry ℝ, entry.isTrial = false → P entry)
    (h : ∀ c a q i r i', s.Attempts tall trials x c a q i →
      (s.residualsAt .trial (s.withFree q.point.x (s.proposalAt tall c a q).move.target)).resume i =
        (.ok r, i') →
      P (s.judge (s.modelAt tall c a) q.point (s.proposalAt tall c a q) r).entry)
    (names : Vector (Option String) n) : Logs P (s.search tall trials names x) .empty := by
  have hattempts : ∀ c a q i, s.Attempts tall trials x c a q i →
      Logs P (s.tryStep (s.modelAt tall c a) (s.scaleAt tall c a) (s.cosineAt tall c a) q) i :=
    fun c a q i hq => tryStep_logs hother fun r i' hr => h c a q i r i' hq hr
  refine .bind ?_ fun p j hp => ?_
  · refine .bind (.log (hother _ rfl)) fun _ _ _ => ?_
    exact .bind .residualsAt fun _ _ _ => .pure
  refine .bind (iterate_logs hattempts (.start hp)) fun f _ _ => ?_
  refine .bind ?_ fun _ _ _ => ?_
  · unfold logFinish
    dsimp only
    split
    · exact .bind (.log (hother _ rfl)) fun _ _ _ => .bind (.of_log_eq rfl) fun _ _ _ =>
        .log (hother _ rfl)
    · exact .bind (.of_log_eq rfl) fun _ _ _ => .log (hother _ rfl)
  · exact .bind (.of_log_eq rfl) fun _ _ _ => .bind (.of_log_eq rfl) fun _ _ _ => .pure

end Logs

end Setting

end LeastSquares
