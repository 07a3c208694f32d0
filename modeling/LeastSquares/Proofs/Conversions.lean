import LeastSquares.Proofs.ExactRuns
import LeastSquares.Proofs.Runs

/-!
Two runs in different units. A conversion says how the points, the residuals and the free parameters
of a second run are read off those of the first; lengths of residuals have one factor. Runs mirror
each other if, started on journals that are converted into each other, they come to results that are
related, and to journals that are again converted into each other. What mirrors in its parts mirrors
as a sequence, so that two runs of the same definition are compared function by function.
-/

namespace LeastSquares

variable {n m k : ℕ}

noncomputable def LogEntry.scale (factor : ℝ) : LogEntry ℝ → LogEntry ℝ
  | .started parameters free residuals mode => .started parameters free residuals mode
  | .trial norm ratio part radius damping =>
      .trial (factor * norm) ratio part (factor * radius) damping
  | .accepted iteration chiSquare cosine evaluations =>
      .accepted iteration (factor ^ 2 * chiSquare) cosine evaluations
  | .rankDeficient rank free => .rankDeficient rank free
  | .finished iterations evaluations status startChiSquare chiSquare =>
      .finished iterations evaluations status (factor ^ 2 * startChiSquare) (factor ^ 2 * chiSquare)

theorem LogEntry.scale_one (entry : LogEntry ℝ) : entry.scale 1 = entry := by
  cases entry <;> simp [LogEntry.scale]

/-- A change of units, or of the order of the residuals. Points and residuals are mapped; the free
parameters are divided by `unit`, and inner products of residuals multiplied by `factor ^ 2`. -/
structure Conversion (n m k : ℕ) where
  point : Vector ℝ n → Vector ℝ n
  residuals : Vector ℝ m → Vector ℝ m
  factor : ℝ
  unit : Fin k → ℝ
  factor_pos : 0 < factor
  unit_pos : ∀ c, 0 < unit c
  dot_residuals : ∀ f g, dot (residuals f) (residuals g) = factor ^ 2 * dot f g

namespace Conversion

variable (v : Conversion n m k)

theorem euclid_residuals (f : Vector ℝ m) : euclid (v.residuals f) = v.factor * euclid f := by
  have hsquare := v.dot_residuals f f
  simp only [dot_eq, ← pow_two] at hsquare
  rw [euclid, euclid, hsquare, Real.sqrt_mul (sq_nonneg _), Real.sqrt_sq v.factor_pos.le]

/-! ### What a run computes with -/

noncomputable def free (x : Vector ℝ k) : Vector ℝ k := Vector.ofFn fun c => x[c] / v.unit c

noncomputable def scale (d : Vector ℝ k) : Vector ℝ k :=
  Vector.ofFn fun c => v.factor * v.unit c * d[c]

noncomputable def jacobian (a : Mat ℝ m k) : Mat ℝ m k :=
  Mat.ofFn fun i c => v.unit c * (v.residuals (a.column c))[i]

noncomputable def region (t : TrustRegion ℝ) : TrustRegion ℝ := ⟨v.factor * t.radius, t.damping⟩

noncomputable def iterate (p : Iterate ℝ n m k) : Iterate ℝ n m k where
  x := v.point p.x
  free := v.free p.free
  residuals := v.residuals p.residuals
  norm := v.factor * p.norm
  scaledNorm := v.factor * p.scaledNorm
  iterations := p.iterations

noncomputable def checkpoint (c : Checkpoint ℝ n m k) : Checkpoint ℝ n m k :=
  ⟨v.scale c.scale, v.region c.region, v.iterate c.point⟩

noncomputable def move (t : Move ℝ k) : Move ℝ k := ⟨t.part, v.free t.step, v.free t.target⟩

@[simp] theorem getElem_free (x : Vector ℝ k) (c : Fin k) : (v.free x)[c] = x[c] / v.unit c := by
  rw [free, getElem_ofFn]

@[simp] theorem getElem_scale (d : Vector ℝ k) (c : Fin k) :
    (v.scale d)[c] = v.factor * v.unit c * d[c] := by
  rw [scale, getElem_ofFn]

@[simp] theorem getElem_jacobian (a : Mat ℝ m k) (i : Fin m) (c : Fin k) :
    (v.jacobian a)[i][c] = v.unit c * (v.residuals (a.column c))[i] := by
  rw [jacobian, Mat.getElem_ofFn]

theorem free_of_unit (h : ∀ c, v.unit c = 1) (x : Vector ℝ k) : v.free x = x := by
  refine ext_getElem fun c => ?_
  rw [getElem_free, h, div_one]

theorem euclid_scaleBy (d x : Vector ℝ k) :
    euclid (scaleBy (v.scale d) (v.free x)) = v.factor * euclid (scaleBy d x) := by
  have hcomponent : ∀ c : Fin k, (scaleBy (v.scale d) (v.free x))[c] ^ 2 =
      v.factor ^ 2 * (scaleBy d x)[c] ^ 2 := by
    intro c
    have hc := (v.unit_pos c).ne'
    rw [getElem_scaleBy, getElem_scaleBy, getElem_scale, getElem_free]
    field_simp
  rw [euclid, euclid, Finset.sum_congr rfl fun c _ => hcomponent c, ← Finset.mul_sum,
    Real.sqrt_mul (sq_nonneg _), Real.sqrt_sq v.factor_pos.le]

/-! ### What a run leaves behind -/

def call : Call ℝ n → Call ℝ n
  | .residuals purpose x => .residuals purpose (v.point x)
  | .jacobian x => .jacobian (v.point x)

noncomputable def journal (j : Journal ℝ n) : Journal ℝ n :=
  ⟨j.calls.map v.call, j.evaluations, j.jacobians, j.log.map (LogEntry.scale v.factor)⟩

end Conversion

/-! ### Runs that mirror each other -/

/-- Two outcomes are both values, and these related, or they are the same failure. -/
inductive Run.Corresponds {β β' : Type} (R : β → β' → Prop) :
    Except (Halt ℝ) β → Except (Halt ℝ) β' → Prop
  | ok {b : β} {b' : β'} : R b b' → Corresponds R (.ok b) (.ok b')
  | error {halt : Halt ℝ} : Corresponds R (.error halt) (.error halt)

/-- Started on the journal `j` and on its conversion, the runs come to outcomes that correspond and
to journals that are converted into each other. -/
structure Run.Mirrors {β β' : Type} (v : Conversion n m k) (R : β → β' → Prop) (run : Run ℝ n β)
    (run' : Run ℝ n β') (j : Journal ℝ n) : Prop where
  outcome : Run.Corresponds R (run.resume j).1 (run'.resume (v.journal j)).1
  journal : (run'.resume (v.journal j)).2 = v.journal (run.resume j).2

namespace Run.Mirrors

variable {β β' γ γ' : Type} {v : Conversion n m k} {R : β → β' → Prop} {S : γ → γ' → Prop}
  {j : Journal ℝ n}

theorem pure {b : β} {b' : β'} (h : R b b') :
    Run.Mirrors v R (Pure.pure b : Run ℝ n β) (Pure.pure b') j :=
  ⟨.ok h, rfl⟩

theorem throw {halt : Halt ℝ} :
    Run.Mirrors v R (MonadExcept.throw halt : Run ℝ n β) (MonadExcept.throw halt) j :=
  ⟨.error, rfl⟩

theorem ok {run : Run ℝ n β} {run' : Run ℝ n β'} {b : β} {i : Journal ℝ n}
    (h : Run.Mirrors v R run run' j) (hrun : run.resume j = (.ok b, i)) :
    ∃ b', run'.resume (v.journal j) = (.ok b', v.journal i) ∧ R b b' := by
  obtain ⟨houtcome, hjournal⟩ := h
  rw [hrun] at houtcome hjournal
  rcases hresume : run'.resume (v.journal j) with ⟨outcome, i'⟩
  rw [hresume] at houtcome hjournal
  cases houtcome with
  | ok hb => exact ⟨_, congrArg _ hjournal, hb⟩

/-- Sequences mirror each other when their first runs do, and the others wherever these succeed. -/
theorem bind {run : Run ℝ n β} {run' : Run ℝ n β'} {f : β → Run ℝ n γ} {f' : β' → Run ℝ n γ'}
    (hrun : Run.Mirrors v R run run' j)
    (hf : ∀ b b' i, run.resume j = (.ok b, i) → run'.resume (v.journal j) = (.ok b', v.journal i) →
      R b b' → Run.Mirrors v S (f b) (f' b') i) : Run.Mirrors v S (run >>= f) (run' >>= f') j := by
  rcases hresume : run.resume j with ⟨halt | b, i⟩
  · obtain ⟨houtcome, hjournal⟩ := hrun
    rw [hresume] at houtcome hjournal
    rcases hresume' : run'.resume (v.journal j) with ⟨outcome, i'⟩
    rw [hresume'] at houtcome hjournal
    cases houtcome
    refine ⟨?_, ?_⟩
    · rw [resume_bind, resume_bind, hresume, hresume']
      exact .error
    · rw [resume_bind, resume_bind, hresume, hresume']
      exact hjournal
  · obtain ⟨b', hresume', hb⟩ := hrun.ok hresume
    obtain ⟨houtcome, hjournal⟩ := hf b b' i hresume hresume' hb
    refine ⟨?_, ?_⟩
    · rw [resume_bind, resume_bind, hresume, hresume']
      exact houtcome
    · rw [resume_bind, resume_bind, hresume, hresume']
      exact hjournal

theorem ofFnM {l : ℕ} {R : Fin l → β → β' → Prop} {f : Fin l → Run ℝ n β} {f' : Fin l → Run ℝ n β'}
    (h : ∀ c j, Run.Mirrors v (R c) (f c) (f' c) j) (j : Journal ℝ n) :
    Run.Mirrors v (fun b b' : Vector _ l => ∀ c : Fin l, R c b[c] b'[c]) (Vector.ofFnM f)
      (Vector.ofFnM f') j := by
  induction l generalizing j with
  | zero =>
      rw [Vector.ofFnM_zero, Vector.ofFnM_zero]
      exact .pure fun c => c.elim0
  | succ l ih =>
      rw [Vector.ofFnM_succ, Vector.ofFnM_succ]
      refine .bind (ih (fun c => h c.castSucc) j) fun b b' i _ _ hb => ?_
      refine .bind (h (Fin.last l) i) fun last last' i' _ _ hlast => .pure fun c => ?_
      rw [getElem_eq_val, getElem_eq_val, Vector.getElem_push, Vector.getElem_push]
      split
      · next hc => exact hb ⟨c, hc⟩
      · next hc =>
        obtain rfl : c = Fin.last l := Fin.ext (by have := c.isLt; simp only [Fin.val_last]; omega)
        exact hlast

/-! ### The steps a run is made of -/

theorem record (call : Call ℝ n) :
    Run.Mirrors v (fun _ _ => True) (Run.record call) (Run.record (v.call call)) j := by
  refine ⟨.ok trivial, ?_⟩
  simp only [resume_record, Conversion.journal, Array.map_push]

theorem log (entry : LogEntry ℝ) :
    Run.Mirrors v (fun _ _ => True) (Run.log entry) (Run.log (entry.scale v.factor)) j := by
  refine ⟨.ok trivial, ?_⟩
  simp only [resume_log, Conversion.journal, Array.map_push]

theorem countEvaluation :
    Run.Mirrors v (fun _ _ => True) Run.countEvaluation Run.countEvaluation j :=
  ⟨.ok trivial, rfl⟩

theorem countJacobian :
    Run.Mirrors v (fun _ _ => True) Run.countJacobian Run.countJacobian j :=
  ⟨.ok trivial, rfl⟩

theorem evaluations : Run.Mirrors v Eq Run.evaluations Run.evaluations j := ⟨.ok rfl, rfl⟩

theorem jacobians : Run.Mirrors v Eq Run.jacobians Run.jacobians j := ⟨.ok rfl, rfl⟩

/-- In exact arithmetic every number is finite, so that a check of numbers passes. -/
theorem require {ok ok' : Bool} {cause cause' : FitError ℝ} (h : ok = true) (h' : ok' = true) :
    Run.Mirrors v (fun _ _ => True) (Run.require ok cause) (Run.require ok' cause') j := by
  refine ⟨?_, ?_⟩
  · rw [resume_require, resume_require, if_pos h, if_pos h']
    exact .ok trivial
  · rw [resume_require, resume_require]

theorem ofExcept {e : Except (FitError ℝ) β} (f : β → β') :
    Run.Mirrors v (fun b b' => b' = f b) (Run.ofExcept e) (Run.ofExcept (e.map f)) j := by
  cases e with
  | ok b => exact ⟨.ok rfl, rfl⟩
  | error cause => exact ⟨.error, rfl⟩

theorem jacobianAt {s s' : Setting ℝ n m k} {R : Mat ℝ m k → Mat ℝ m k → Prop} {x x' : Vector ℝ n}
    {fx fx' : Vector ℝ m} (hmode : s'.mode = s.mode)
    (hanalytic : s.mode = .analytic → ∀ i,
      Run.Mirrors v R (s.analyticJacobian x) (s'.analyticJacobian x') i)
    (hdifferences : s.mode = .finiteDifference → ∀ i, Run.Mirrors v R
      (differenceJacobian (s.residualsAt .probe) x fx s.free s.rules s.options.differenceScale)
      (differenceJacobian (s'.residualsAt .probe) x' fx' s'.free s'.rules
        s'.options.differenceScale) i) :
    Run.Mirrors v R (s.jacobianAt x fx) (s'.jacobianAt x' fx') j := by
  have hfinite : ∀ a : Mat ℝ m k, a.entries.all Scalar.isFinite = true :=
    fun a => List.all_eq_true.2 fun _ _ => rfl
  unfold Setting.jacobianAt
  refine .bind .countJacobian fun _ _ i _ _ _ => ?_
  rw [hmode]
  cases hcase : s.mode with
  | analytic =>
      exact .bind (hanalytic hcase i) fun a a' _ _ _ ha =>
        .bind (.require (hfinite a) (hfinite a')) fun _ _ _ _ _ _ => .pure ha
  | finiteDifference =>
      exact .bind (hdifferences hcase i) fun a a' _ _ _ ha =>
        .bind (.require (hfinite a) (hfinite a')) fun _ _ _ _ _ _ => .pure ha

end Run.Mirrors

end LeastSquares
