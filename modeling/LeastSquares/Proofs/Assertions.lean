import LeastSquares.Proofs.Runs

/-!
Assertions about calls. `Respects P run Q` says that a run makes only calls that satisfy `P`, whatever
its outcome, and returns only what satisfies `Q`; it is about the journal, which is kept also when
the run fails. There is one rule for each way to build a run, and one for the whole search: an
invariant of its points, together with what the invariant says about the evaluations there, carries
over to every solution.
-/

namespace LeastSquares

namespace Run

variable {α β γ : Type} {n : Nat}

/-- Started on a journal whose calls satisfy `P`, a run leaves such a journal, whatever its outcome;
what it returns satisfies `Q`. -/
def Respects (P : Call α n → Prop) (run : Run α n β) (Q : β → Prop) : Prop :=
  ∀ j : Journal α n, (∀ c ∈ j.calls, P c) →
    (∀ c ∈ (run.resume j).2.calls, P c) ∧ ∀ b, (run.resume j).1 = .ok b → Q b

namespace Respects

variable {P : Call α n → Prop} {Q : β → Prop} {R : γ → Prop}

theorem pure {b : β} (h : Q b) : Respects P (pure b) Q := by
  intro j hj
  refine ⟨hj, ?_⟩
  rintro _ ⟨⟩
  exact h

theorem bind {run : Run α n β} {f : β → Run α n γ} (hrun : Respects P run Q)
    (hf : ∀ b, Q b → Respects P (f b) R) : Respects P (run >>= f) R := by
  intro j hj
  obtain ⟨hcalls, hok⟩ := hrun j hj
  rw [resume_bind]
  generalize run.resume j = outcome at hcalls hok
  rcases outcome with ⟨_ | b, j'⟩
  · refine ⟨hcalls, ?_⟩
    rintro _ ⟨⟩
  · exact hf b (hok b rfl) j' hcalls

theorem of_calls_eq {run : Run α n β} (h : ∀ j, (run.resume j).2.calls = j.calls) :
    Respects P run fun _ => True := by
  intro j hj
  rw [h j]
  exact ⟨hj, fun _ _ => trivial⟩

theorem require {ok : Bool} {cause : FitError α} :
    Respects P (Run.require ok cause) fun _ => ok = true := by
  intro j hj
  rw [resume_require]
  refine ⟨hj, fun b hb => ?_⟩
  cases ok
  · cases hb
  · rfl

theorem record {call : Call α n} (h : P call) : Respects P (Run.record call) fun _ => True := by
  intro j hj
  rw [resume_record]
  refine ⟨fun c hc => ?_, fun _ _ => trivial⟩
  rcases Array.mem_push.1 hc with hc | rfl
  · exact hj c hc
  · exact h

theorem ofExcept {e : Except (FitError α) β} : Respects P (Run.ofExcept e) fun _ => True :=
  of_calls_eq fun j => by rw [resume_ofExcept]

theorem log {entry : LogEntry α} : Respects P (Run.log entry) fun _ => True :=
  of_calls_eq fun _ => rfl

theorem evaluations : Respects P (Run.evaluations : Run α n Nat) fun _ => True :=
  of_calls_eq fun _ => rfl

theorem jacobians : Respects P (Run.jacobians : Run α n Nat) fun _ => True :=
  of_calls_eq fun _ => rfl

theorem countEvaluation : Respects P (Run.countEvaluation : Run α n Unit) fun _ => True :=
  of_calls_eq fun _ => rfl

theorem countJacobian : Respects P (Run.countJacobian : Run α n Unit) fun _ => True :=
  of_calls_eq fun _ => rfl

theorem throw {halt : Halt α} : Respects P (throw halt : Run α n β) Q := by
  intro j hj
  refine ⟨hj, ?_⟩
  rintro _ ⟨⟩

theorem logTrial [Scalar α] {m k : Nat} {v : Verdict α} {next : Iterate α n m k} {cosine : α} :
    Respects P (v.logTrial next cosine) fun _ => True := by
  refine .bind .log fun _ _ => ?_
  split
  · exact .bind .evaluations fun _ _ => .log
  · exact .pure trivial

theorem logFinish [NormedScalar α] {m k : Nat} {s : Setting α n m k} {norm : α}
    {f : Finish α n m k} : Respects P (s.logFinish norm f) fun _ => True := by
  unfold Setting.logFinish
  dsimp only
  split
  · exact .bind .log fun _ _ => .bind .evaluations fun _ _ => .log
  · exact .bind .evaluations fun _ _ => .log

theorem congruence :
    IsCongruence (M := Run α n) (N := Run α n) fun _ run _ => Respects P run fun _ => True :=
  ⟨fun _ => .pure trivial, fun hrun hf => hrun.bind fun c _ => hf c⟩

theorem ofFnM {k : Nat} {f : Fin k → Run α n β} (h : ∀ c, Respects P (f c) fun _ => True) :
    Respects P (Vector.ofFnM f) fun _ => True :=
  congruence.ofFnM (g := f) h

end Respects

end Run

/-! ### The search -/

namespace Setting

variable {α : Type} [NormedScalar α] {n m k : Nat} (s : Setting α n m k)

/-- The point invariant `I` of a search whose calls satisfy `P`: evaluations at points with `I` do,
and trial points have `I` again. -/
structure Keeps (P : Call α n → Prop) (I : Vector α n → Prop) : Prop where
  start : ∀ x, I x → Run.Respects P (s.residualsAt .start x) fun _ => True
  jacobian : ∀ x fx, I x → Run.Respects P (s.jacobianAt x fx) fun _ => True
  trial : ∀ x target, I x → (s.limits.snap target).all Scalar.isFinite = true →
    Run.Respects P (s.residualsAt .trial (s.withFree x (s.limits.snap target))) fun _ => True
  accept : ∀ x target, I x → (s.limits.snap target).all Scalar.isFinite = true →
    I (s.applyTies (s.withFree x (s.limits.snap target)))

namespace Keeps

open Run

variable {s} {P : Call α n → Prop} {I : Vector α n → Prop} {l : Linearization α m k}
  {scale : Vector α k} {cosine : α} {trials : Nat} {tall : k ≤ m}

theorem tryStep (h : s.Keeps P I) {p : Progress α n m k} (hp : I p.point.x) :
    Respects P (s.tryStep l scale cosine p) fun result => I result.progress.point.x := by
  refine .bind .require fun _ hfinite => ?_
  refine .bind (h.trial _ _ hp hfinite) fun residuals _ => ?_
  refine .bind .logTrial fun _ _ => ?_
  refine .bind .evaluations fun _ _ => .pure ?_
  -- the point moved only if the step was accepted
  change I (s.pointAfter p.point scale (s.propose l scale p) residuals _).x
  unfold pointAfter
  split
  · exact h.accept _ _ hp hfinite
  · exact hp

theorem tryUntilAccepted (h : s.Keeps P I) {p : Progress α n m k} (hp : I p.point.x) :
    Respects P (s.tryUntilAccepted l scale cosine trials p) fun result =>
      I result.progress.point.x := by
  induction trials generalizing p with
  | zero => exact .throw
  | succ trials ih =>
      refine .bind (h.tryStep hp) fun result hresult => ?_
      split
      · exact .pure hresult
      · exact ih hresult

theorem advance (h : s.Keeps P I) {c : Checkpoint α n m k} (hc : I c.point.x) :
    Respects P (s.advance l trials c) fun
      | .inl finish => I finish.point.x
      | .inr next => I next.point.x := by
  unfold Setting.advance
  dsimp only
  split
  · exact .pure hc
  · split
    · exact .pure hc
    · refine .bind (h.tryUntilAccepted hc) fun result hresult => ?_
      split
      · exact .pure hresult
      · exact .pure hresult

theorem iteration (h : s.Keeps P I) {c : Checkpoint α n m k} (hc : I c.point.x) :
    Respects P (s.iteration tall trials c) fun
      | .inl finish => I finish.point.x
      | .inr next => I next.point.x := by
  refine .bind (h.jacobian _ _ hc) fun a _ => h.advance ?_
  obtain ⟨v, hpoint⟩ := rescale_point (s := s) (.ofJacobian s.limits c.point a tall) c
  rw [hpoint]
  exact hc

theorem iterate (h : s.Keeps P I) {iterations : Nat} {c : Checkpoint α n m k} (hc : I c.point.x) :
    Respects P (s.iterate tall trials iterations c) fun finish => I finish.point.x := by
  induction iterations generalizing c with
  | zero => exact .throw
  | succ iterations ih =>
      refine .bind (h.iteration hc) fun outcome houtcome => ?_
      cases outcome with
      | inl finish => exact .pure houtcome
      | inr next => exact ih houtcome

theorem startAt (h : s.Keeps P I) {x : Vector α n} (hx : I (s.applyTies x)) :
    Respects P (s.startAt x) fun p => I p.x :=
  .bind .log fun _ _ => .bind (h.start _ hx) fun _ _ => .pure hx

/-- The invariant holds of the parameters that a search returns, and its calls satisfy `P`. -/
theorem search (h : s.Keeps P I) {names : Vector (Option String) n} {x : Vector α n}
    (hx : I (s.applyTies x)) :
    Respects P (s.search tall trials names x) fun solution => I solution.parameters := by
  refine .bind (h.startAt hx) fun p hp => .bind (h.iterate hp) fun finish hfinish => ?_
  refine .bind .logFinish fun _ _ => .bind .evaluations fun _ _ => .bind .jacobians fun _ _ => ?_
  exact .pure hfinish

theorem visits (h : s.Keeps P I) {x : Vector α n} (hx : I (s.applyTies x))
    {c : Checkpoint α n m k} {j : Journal α n} (hc : s.Visits tall trials x c j) :
    (∀ call ∈ j.calls, P call) ∧ I c.point.x := by
  induction hc with
  | start hp =>
      obtain ⟨hcalls, hI⟩ := h.startAt hx .empty (by simp [Journal.empty])
      rw [hp] at hcalls hI
      exact ⟨hcalls, hI _ rfl⟩
  | next _ hstep ih =>
      obtain ⟨hcalls, hI⟩ := h.iteration ih.2 _ ih.1
      rw [hstep] at hcalls hI
      exact ⟨hcalls, hI _ rfl⟩

end Keeps

end Setting

end LeastSquares
