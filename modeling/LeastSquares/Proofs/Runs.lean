import LeastSquares.Problem

/-!
What a run does, step by step. A run threads a journal and may halt; the lemmas here take a
successful run apart into the successful runs it is made of, one lemma for each function of the
search, so that later proofs cite them and open no `do` block.

The two loops are given as relations. `Visits` holds of the checkpoints that a search passes and
`Tries` of the progress that an iteration makes through rejected steps; both carry the journal of
the moment. "In every iteration of every search" is then a statement about every visited
checkpoint, and an invariant is proved by induction on how it was reached.

What pure computations have and sequences keep, vectors of computations and differences have too:
`IsCongruence` is this rule, for properties of runs and for relations to other computations.
-/

namespace LeastSquares

@[simp] theorem mapError_ok {β ε ε' : Type} (f : ε → ε') (b : β) :
    (Except.ok b).mapError f = .ok b := rfl

@[simp] theorem mapError_error {β ε ε' : Type} (f : ε → ε') (cause : ε) :
    (Except.error cause : Except ε β).mapError f = .error (f cause) := rfl

theorem mapError_eq_ok {β ε ε' : Type} {x : Except ε β} {f : ε → ε'} {b : β} :
    x.mapError f = .ok b ↔ x = .ok b := by
  cases x <;> simp

/-! ### What sequences keep -/

section Congruences

variable {M N : Type → Type} [Monad M] [Monad N] {R : (γ : Type) → M γ → N γ → Prop}
  {α β : Type} {n m k : Nat}

/-- A relation of computations that relates each value to itself and is kept in sequences. One that
does not look at its second computation is a property of the first. -/
structure IsCongruence (R : (γ : Type) → M γ → N γ → Prop) : Prop where
  pure : ∀ {γ : Type} (c : γ), R γ (Pure.pure c) (Pure.pure c)
  bind : ∀ {γ δ : Type} {x : M γ} {y : N γ} {f : γ → M δ} {g : γ → N δ},
    R γ x y → (∀ c, R δ (f c) (g c)) → R δ (x >>= f) (y >>= g)

namespace IsCongruence

variable [LawfulMonad M] [LawfulMonad N]

theorem ofFnM (hR : IsCongruence R) {f : Fin k → M β} {g : Fin k → N β}
    (h : ∀ c, R β (f c) (g c)) : R (Vector β k) (Vector.ofFnM f) (Vector.ofFnM g) := by
  induction k with
  | zero =>
      rw [Vector.ofFnM_zero, Vector.ofFnM_zero]
      exact hR.pure _
  | succ k ih =>
      rw [Vector.ofFnM_succ, Vector.ofFnM_succ]
      exact hR.bind (ih fun c => h c.castSucc) fun _ =>
        hR.bind (h (Fin.last k)) fun _ => hR.pure _

end IsCongruence

/-- A computation with a scratch vector that finds `x` in it and leaves `x` there. -/
def Restores (x : Vector α n) (γ : Type) (run : StateT (Vector α n) M γ) (y : M γ) : Prop :=
  run.run x = (·, x) <$> y

theorem Restores.congruence [LawfulMonad M] (x : Vector α n) :
    IsCongruence (M := StateT (Vector α n) M) (N := M) (Restores x) where
  pure c := by simp [Restores]
  bind hrun hf := by
    rw [Restores, StateT.run_bind, hrun, map_bind, bind_map_left]
    exact congrArg _ (funext hf)

section Differences

variable [Scalar α] (eval : Vector α n → M (Vector α m)) (x : Vector α n) (fx : Vector α m)

/-- The column of the Jacobian of `eval` at `x` that belongs to parameter `j`, from evaluations at
points given one by one. -/
def differenceColumn (j : Fin n) (rule : DifferenceRule α) (scale : α) : M (Vector α m) := do
  let h := rule.signedStep x[j] scale
  let ahead ← eval (put x j (x[j] + h))
  if rule.side = .both then
    let behind ← eval (put x j (x[j] - h))
    return Vector.zipWith (fun a b => (a - b) / (2.0 * h)) ahead behind
  else
    return Vector.zipWith (fun a f => (a - f) / h) ahead fx

variable [LawfulMonad M]

/-- The scratch vector holds each point when it is evaluated, and `x` again afterwards. -/
theorem restores_probeColumn (j : Fin n) (rule : DifferenceRule α) (scale : α) :
    Restores x _ (probeColumn eval x fx j rule scale) (differenceColumn eval x fx j rule scale) := by
  unfold Restores probeColumn differenceColumn
  by_cases hboth : rule.side = .both
  · simp [hboth, put_put, put_self]
  · simp [hboth, put_put, put_self]

theorem differenceJacobian_eq (free : Vector (Fin n) k) (rules : Vector (DifferenceRule α) k)
    (scale : α) : differenceJacobian eval x fx free rules scale = do
      let columns ← Vector.ofFnM fun c => differenceColumn eval x fx free[c] rules[c] scale
      return Mat.ofColumns columns := by
  have hprobes := (Restores.congruence x).ofFnM fun c : Fin k =>
    restores_probeColumn eval x fx free[c] rules[c] scale
  rw [Restores] at hprobes
  unfold differenceJacobian
  dsimp only
  rw [hprobes, bind_map_left]

end Differences

/-- Differences call their function where one free parameter was moved. -/
theorem IsCongruence.differenceJacobian [Scalar α] [LawfulMonad M] [LawfulMonad N]
    (hR : IsCongruence R) {f : Vector α n → M (Vector α m)}
    {g : Vector α n → N (Vector α m)} {x : Vector α n} {fx : Vector α m}
    {free : Vector (Fin n) k} {rules : Vector (DifferenceRule α) k} {scale : α}
    (h : ∀ (c : Fin k) (v : α), R _ (f (put x free[c] v)) (g (put x free[c] v))) :
    R _ (LeastSquares.differenceJacobian f x fx free rules scale)
      (LeastSquares.differenceJacobian g x fx free rules scale) := by
  rw [differenceJacobian_eq, differenceJacobian_eq]
  refine hR.bind (hR.ofFnM fun c => ?_) fun _ => hR.pure _
  refine hR.bind (h c _) fun _ => ?_
  split
  · exact hR.bind (h c _) fun _ => hR.pure _
  · exact hR.pure _

end Congruences

/-! ### Runs that succeed -/

namespace Run

variable {α β γ : Type} {n : Nat}

@[simp] theorem resume_pure (b : β) (j : Journal α n) :
    (pure b : Run α n β).resume j = (.ok b, j) := rfl

theorem resume_bind (run : Run α n β) (f : β → Run α n γ) (j : Journal α n) :
    (run >>= f).resume j =
      match run.resume j with
      | (.ok b, j') => (f b).resume j'
      | (.error e, j') => (.error e, j') := by
  simp only [resume, ExceptT.run_bind, StateT.run_bind]
  change _ = match (ExceptT.run run).run j with
      | (.ok b, j') => (f b).resume j'
      | (.error e, j') => (.error e, j')
  rcases (ExceptT.run run).run j with ⟨_ | _, _⟩ <;> simp [resume] <;> rfl

@[simp] theorem resume_fail (cause : FitError α) (j : Journal α n) :
    (Run.fail cause : Run α n β).resume j = (.error (.failed cause), j) := rfl

@[simp] theorem resume_throw (halt : Halt α) (j : Journal α n) :
    (throw halt : Run α n β).resume j = (.error halt, j) := rfl

@[simp] theorem resume_record (call : Call α n) (j : Journal α n) :
    (Run.record call).resume j = (.ok (), { j with calls := j.calls.push call }) := rfl

@[simp] theorem resume_countEvaluation (j : Journal α n) :
    (Run.countEvaluation : Run α n Unit).resume j =
      (.ok (), { j with evaluations := j.evaluations + 1 }) := rfl

@[simp] theorem resume_countJacobian (j : Journal α n) :
    (Run.countJacobian : Run α n Unit).resume j =
      (.ok (), { j with jacobians := j.jacobians + 1 }) := rfl

@[simp] theorem resume_log (entry : LogEntry α) (j : Journal α n) :
    (Run.log entry).resume j = (.ok (), { j with log := j.log.push entry }) := rfl

@[simp] theorem resume_evaluations (j : Journal α n) :
    (Run.evaluations : Run α n Nat).resume j = (.ok j.evaluations, j) := rfl

@[simp] theorem resume_jacobians (j : Journal α n) :
    (Run.jacobians : Run α n Nat).resume j = (.ok j.jacobians, j) := rfl

@[simp] theorem resume_require (ok : Bool) (cause : FitError α) (j : Journal α n) :
    (Run.require ok cause).resume j =
      (if ok then .ok () else .error (.failed cause), j) := by
  cases ok <;> rfl

@[simp] theorem resume_ofExcept (e : Except (FitError α) β) (j : Journal α n) :
    (Run.ofExcept e).resume j = (e.mapError .failed, j) := by
  cases e <;> rfl

theorem bind_ok {run : Run α n β} {f : β → Run α n γ} {j j' : Journal α n} {c : γ} :
    (run >>= f).resume j = (.ok c, j') ↔
      ∃ b i, run.resume j = (.ok b, i) ∧ (f b).resume i = (.ok c, j') := by
  rw [resume_bind]
  rcases run.resume j with ⟨_ | b, i⟩
  · simp
  · constructor
    · intro h
      exact ⟨b, i, rfl, h⟩
    · rintro ⟨b', i', h, h'⟩
      cases h
      exact h'

theorem require_ok {ok : Bool} {cause : FitError α} {j j' : Journal α n} {u : Unit} :
    (Run.require ok cause).resume j = (.ok u, j') ↔ ok = true ∧ j' = j := by
  cases ok <;> simp [eq_comm]

theorem ofExcept_ok {e : Except (FitError α) β} {j j' : Journal α n} {b : β} :
    (Run.ofExcept e).resume j = (.ok b, j') ↔ e = .ok b ∧ j' = j := by
  cases e <;> simp [eq_comm]

end Run

namespace Setting

variable {α : Type} {n m k : Nat}

section Evaluation

variable {s : Setting α n m k}

theorem analyticJacobian_ok {x : Vector α n} {a : Mat α m k} {j j' : Journal α n} :
    (s.analyticJacobian x).resume j = (.ok a, j') ↔
      ∃ full, s.jacobian (s.applyTies x) = .ok full ∧
        a = Mat.ofFn (fun i c => full[i][s.free[c]]) ∧
        j' = { j with calls := j.calls.push (.jacobian (s.applyTies x)) } := by
  simp only [analyticJacobian, Run.bind_ok, Run.ofExcept_ok, Run.resume_record, Run.resume_pure,
    Prod.mk.injEq, Except.ok.injEq]
  constructor
  · rintro ⟨_, _, ⟨-, rfl⟩, full, _, ⟨hfull, rfl⟩, rfl, rfl⟩
    exact ⟨full, hfull, rfl, rfl⟩
  · rintro ⟨full, hfull, rfl, rfl⟩
    exact ⟨(), _, ⟨trivial, rfl⟩, full, _, ⟨hfull, rfl⟩, rfl, rfl⟩

variable [Scalar α]

def journalAfter (s : Setting α n m k) (purpose : Purpose) (x : Vector α n) (j : Journal α n) :
    Journal α n :=
  { j with
    calls := j.calls.push (.residuals purpose (s.applyTies x))
    evaluations := j.evaluations + 1 }

theorem residualsAt_ok {purpose : Purpose} {x : Vector α n} {r : Vector α m}
    {j j' : Journal α n} :
    (s.residualsAt purpose x).resume j = (.ok r, j') ↔
      ∃ f, s.eval (s.applyTies x) = .ok f ∧ r = f.map s.dampen ∧
        (!s.options.finiteCheck || r.all Scalar.isFinite) = true ∧
        j' = s.journalAfter purpose x j := by
  simp only [residualsAt, Run.bind_ok, Run.ofExcept_ok, Run.require_ok, Run.resume_record,
    Run.resume_countEvaluation, Run.resume_pure, Prod.mk.injEq, Except.ok.injEq]
  constructor
  · rintro ⟨_, _, ⟨-, rfl⟩, f, _, ⟨hf, rfl⟩, _, _, ⟨-, rfl⟩, _, _, ⟨hfinite, rfl⟩, rfl, rfl⟩
    exact ⟨f, hf, rfl, hfinite, rfl⟩
  · rintro ⟨f, hf, rfl, hfinite, rfl⟩
    exact ⟨(), _, ⟨trivial, rfl⟩, f, _, ⟨hf, rfl⟩, (), _, ⟨trivial, rfl⟩, (), _, ⟨hfinite, rfl⟩, rfl,
      rfl⟩

theorem residualsAt_of_finite {purpose : Purpose} {x : Vector α n} {f : Vector α m}
    (h : s.eval (s.applyTies x) = .ok f) (hfinite : (f.map s.dampen).all Scalar.isFinite = true)
    (j : Journal α n) :
    (s.residualsAt purpose x).resume j = (.ok (f.map s.dampen), s.journalAfter purpose x j) :=
  residualsAt_ok.2 ⟨f, h, rfl, by rw [hfinite, Bool.or_true], rfl⟩

theorem jacobianAt_analytic_ok {x : Vector α n} {fx : Vector α m} {a : Mat α m k}
    {j j' : Journal α n} (hmode : s.mode = .analytic)
    (h : (s.jacobianAt x fx).resume j = (.ok a, j')) :
    ∃ full, s.jacobian (s.applyTies x) = .ok full ∧
      a = Mat.ofFn (fun i c => full[i][s.free[c]]) := by
  simp only [jacobianAt, hmode, Run.bind_ok, Run.require_ok, Run.resume_pure, Prod.mk.injEq,
    Except.ok.injEq] at h
  obtain ⟨_, _, -, a', _, ha', _, _, -, rfl, -⟩ := h
  obtain ⟨full, hfull, ha, -⟩ := analyticJacobian_ok.1 ha'
  exact ⟨full, hfull, ha⟩

theorem jacobianAt_of_finite {x : Vector α n} {full : Mat α m n} (hmode : s.mode = .analytic)
    (h : s.jacobian (s.applyTies x) = .ok full)
    (hfinite : (Mat.ofFn fun (i : Fin m) (c : Fin k) => full[i][s.free[c]]).entries.all
      Scalar.isFinite = true) (fx : Vector α m) (j : Journal α n) :
    ∃ j', (s.jacobianAt x fx).resume j = (.ok (Mat.ofFn fun i c => full[i][s.free[c]]), j') := by
  simp only [jacobianAt, hmode]
  exact ⟨_, Run.bind_ok.2 ⟨(), _, Run.resume_countJacobian j, Run.bind_ok.2 ⟨_, _,
    analyticJacobian_ok.2 ⟨full, h, rfl, rfl⟩, Run.bind_ok.2 ⟨(), _,
      Run.require_ok.2 ⟨hfinite, rfl⟩, rfl⟩⟩⟩⟩

end Evaluation

variable [NormedScalar α] {s : Setting α n m k}

theorem startAt_ok {x : Vector α n} {p : Iterate α n m k} {j j' : Journal α n}
    (h : (s.startAt x).resume j = (.ok p, j')) :
    ∃ r i, (s.residualsAt .start (s.applyTies x)).resume i = (.ok r, j') ∧
      p = ⟨s.applyTies x, s.freePart (s.applyTies x), r, s.normOf r, 0, 0⟩ := by
  simp only [startAt, Run.bind_ok, Run.resume_pure, Prod.mk.injEq, Except.ok.injEq] at h
  obtain ⟨_, i, -, r, _, hr, rfl, rfl⟩ := h
  exact ⟨r, i, hr, rfl⟩

theorem startAt_of_finite {x : Vector α n} {f : Vector α m}
    (h : s.eval (s.applyTies (s.applyTies x)) = .ok f)
    (hfinite : (f.map s.dampen).all Scalar.isFinite = true) (j : Journal α n) :
    ∃ j', (s.startAt x).resume j = (.ok ⟨s.applyTies x, s.freePart (s.applyTies x), f.map s.dampen,
      s.normOf (f.map s.dampen), 0, 0⟩, j') :=
  ⟨_, Run.bind_ok.2 ⟨(), _, Run.resume_log _ _, Run.bind_ok.2 ⟨_, _,
    residualsAt_of_finite h hfinite _, rfl⟩⟩⟩

section Steps

variable {l : Linearization α m k} {scale : Vector α k} {cosine : α} {trials : Nat}

def resultOf (s : Setting α n m k) (l : Linearization α m k) (scale : Vector α k) (cosine : α)
    (p : Progress α n m k) (r : Vector α m) (evaluations : Nat) : TrialResult α n m k :=
  let t := s.propose l scale p
  let v := s.judge l p.point t r
  let next := s.pointAfter p.point scale t r v
  { progress := ⟨next, v.region, t.damped.workspace⟩
    accepted := v.accepted
    status := s.options.stepStatus (v.statistics next.scaledNorm cosine) next.iterations evaluations }

theorem logTrial_ok (v : Verdict α) (next : Iterate α n m k) (cosine : α) (j : Journal α n) :
    ∃ log, (v.logTrial next cosine).resume j = (.ok (), { j with log }) := by
  by_cases h : v.accepted = true
  · simp only [Verdict.logTrial, h, if_true, Run.resume_bind, Run.resume_log,
      Run.resume_evaluations]
    exact ⟨_, rfl⟩
  · simp only [Verdict.logTrial, h, if_false, Bool.false_eq_true, Run.resume_bind,
      Run.resume_log, Run.resume_pure]
    exact ⟨_, rfl⟩

theorem tryStep_ok {p : Progress α n m k} {result : TrialResult α n m k} {j j' : Journal α n}
    (h : (s.tryStep l scale cosine p).resume j = (.ok result, j')) :
    ∃ r i, (s.propose l scale p).move.target.all Scalar.isFinite = true ∧
      (s.residualsAt .trial (s.withFree p.point.x (s.propose l scale p).move.target)).resume j =
        (.ok r, i) ∧
      result = s.resultOf l scale cosine p r i.evaluations := by
  simp only [tryStep, Run.bind_ok, Run.require_ok, Run.resume_pure, Run.resume_evaluations,
    Prod.mk.injEq, Except.ok.injEq] at h
  obtain ⟨_, _, ⟨hfinite, rfl⟩, r, i, hr, u, _, hlog, _, _, ⟨rfl, rfl⟩, rfl, -⟩ := h
  obtain ⟨log, hlog'⟩ := logTrial_ok (s.judge l p.point (s.propose l scale p) r)
    (s.pointAfter p.point scale (s.propose l scale p) r
      (s.judge l p.point (s.propose l scale p) r)) cosine i
  rw [hlog'] at hlog
  cases hlog
  exact ⟨r, i, hfinite, hr, rfl⟩

def Finds (s : Setting α n m k) (p : Iterate α n m k) (target : Vector α k) (r : Vector α m) : Prop :=
  ∃ j i, (s.residualsAt .trial (s.withFree p.x target)).resume j = (.ok r, i)

/-- A step leaves the point or accepts its target. -/
theorem tryStep_point {p : Progress α n m k} {result : TrialResult α n m k} {j j' : Journal α n}
    (h : (s.tryStep l scale cosine p).resume j = (.ok result, j')) :
    result.progress.point = p.point ∨
      ∃ target r, s.Finds p.point target r ∧
        result.progress.point = s.accept p.point scale target r := by
  obtain ⟨r, i, -, hr, rfl⟩ := tryStep_ok h
  simp only [resultOf, pointAfter]
  split
  · exact .inr ⟨_, r, ⟨j, i, hr⟩, rfl⟩
  · exact .inl rfl

/-- An accepted step counts as an iteration. -/
theorem tryStep_accepted {p : Progress α n m k} {result : TrialResult α n m k} {j j' : Journal α n}
    (h : (s.tryStep l scale cosine p).resume j = (.ok result, j'))
    (haccepted : result.accepted = true) :
    result.progress.point.iterations = p.point.iterations + 1 := by
  obtain ⟨r, i, -, -, rfl⟩ := tryStep_ok h
  simp only [resultOf, pointAfter] at haccepted ⊢
  rw [if_pos haccepted]
  rfl

theorem tryStep_rejected {p : Progress α n m k} {result : TrialResult α n m k} {j j' : Journal α n}
    (h : (s.tryStep l scale cosine p).resume j = (.ok result, j'))
    (hrejected : result.accepted = false) : result.progress.point = p.point := by
  obtain ⟨r, i, -, -, rfl⟩ := tryStep_ok h
  simp only [resultOf, pointAfter] at hrejected ⊢
  exact if_neg (by simp [hrejected])

/-- The progress of an iteration through steps that were rejected and gave no reason to stop. -/
inductive Tries (s : Setting α n m k) (l : Linearization α m k) (scale : Vector α k) (cosine : α)
    (p : Progress α n m k) (j : Journal α n) : Progress α n m k → Journal α n → Prop
  | first : Tries s l scale cosine p j p j
  | next {q : Progress α n m k} {result : TrialResult α n m k} {i i' : Journal α n} :
      Tries s l scale cosine p j q i →
      (s.tryStep l scale cosine q).resume i = (.ok result, i') →
      result.accepted = false → result.status.isEmpty = true →
      Tries s l scale cosine p j result.progress i'

theorem Tries.point_eq {p q : Progress α n m k} {j j' : Journal α n}
    (h : s.Tries l scale cosine p j q j') : q.point = p.point := by
  induction h with
  | first => rfl
  | next _ hstep hrejected _ ih => rw [tryStep_rejected hstep hrejected, ih]

/-- The step that ends an iteration comes after rejected ones only. -/
theorem tryUntilAccepted_ok {p q : Progress α n m k} {result : TrialResult α n m k}
    {j i j' : Journal α n} (hq : s.Tries l scale cosine p j q i)
    (h : (s.tryUntilAccepted l scale cosine trials q).resume i = (.ok result, j')) :
    ∃ q' i', s.Tries l scale cosine p j q' i' ∧
      (s.tryStep l scale cosine q').resume i' = (.ok result, j') ∧
      (result.accepted = true ∨ result.status.isEmpty = false) := by
  induction trials generalizing q i with
  | zero => simp [tryUntilAccepted] at h
  | succ trials ih =>
      obtain ⟨tried, i', htried, hrest⟩ := Run.bind_ok.1 h
      by_cases hend : (tried.accepted || !tried.status.isEmpty) = true
      · rw [if_pos hend, Run.resume_pure] at hrest
        cases hrest
        exact ⟨q, i, hq, htried, by simpa using hend⟩
      · rw [if_neg hend] at hrest
        simp only [Bool.or_eq_true, Bool.not_eq_true', not_or, Bool.not_eq_true,
          Bool.not_eq_false] at hend
        exact ih (hq.next htried hend.1 hend.2) hrest

/-- The three ways in which an iteration can end: the gradient test, an iteration limit of zero, and
the last of its steps. Only steps change the journal. -/
theorem advance_cases {c : Checkpoint α n m k} {outcome : Finish α n m k ⊕ Checkpoint α n m k}
    {j j' : Journal α n} (h : (s.advance l trials c).resume j = (.ok outcome, j')) :
    (∃ status, status.isEmpty = false ∧ outcome = .inl ⟨c.point, l, l.r, status⟩ ∧ j' = j ∧
      (status = s.options.gradientStatus (l.gradientCosine c.point.norm) ∨
        s.options.maxIterations = 0 ∧ status = .ofReason .maxIterations)) ∨
    (s.options.gradientStatus (l.gradientCosine c.point.norm)).isEmpty = true ∧
      s.options.maxIterations ≠ 0 ∧
      ∃ q i result,
        s.Tries l (s.stepScale l c.scale) (l.gradientCosine c.point.norm)
          ⟨c.point, c.region, l.r⟩ j q i ∧
        (s.tryStep l (s.stepScale l c.scale) (l.gradientCosine c.point.norm) q).resume i =
          (.ok result, j') ∧
        (result.status.isEmpty = false ∧ outcome =
            .inl ⟨result.progress.point, l, result.progress.workspace, result.status⟩ ∨
          result.status.isEmpty = true ∧ result.accepted = true ∧ outcome =
            .inr ⟨s.stepScale l c.scale, result.progress.region, result.progress.point⟩) := by
  unfold advance at h
  by_cases hgradient :
      (s.options.gradientStatus (l.gradientCosine c.point.norm)).isEmpty = true
  · simp only [hgradient, Bool.not_true, Bool.false_eq_true, if_false] at h
    by_cases hlimit : s.options.maxIterations = 0
    · rw [if_pos hlimit, Run.resume_pure] at h
      cases h
      exact .inl ⟨_, by decide, rfl, rfl, .inr ⟨hlimit, rfl⟩⟩
    · rw [if_neg hlimit] at h
      obtain ⟨result, i, htries, hrest⟩ := Run.bind_ok.1 h
      obtain ⟨q, i', hq, hstep, hend⟩ := tryUntilAccepted_ok .first htries
      by_cases hstatus : result.status.isEmpty = true
      · simp only [hstatus, Bool.not_true, Bool.false_eq_true, if_false, Run.resume_pure] at hrest
        cases hrest
        have haccepted : result.accepted = true := hend.resolve_right (by simp [hstatus])
        exact .inr ⟨hgradient, hlimit, q, i', result, hq, hstep, .inr ⟨hstatus, haccepted, rfl⟩⟩
      · simp only [hstatus, Bool.not_false, if_true, Run.resume_pure] at hrest
        cases hrest
        exact .inr ⟨hgradient, hlimit, q, i', result, hq, hstep, .inl ⟨by simpa using hstatus, rfl⟩⟩
  · simp only [hgradient, Bool.not_false, if_true, Run.resume_pure] at h
    cases h
    exact .inl ⟨_, by simpa using hgradient, rfl, rfl, .inl rfl⟩

/-- How an iteration can end, whatever was counted. -/
theorem advance_ok {c : Checkpoint α n m k} {outcome : Finish α n m k ⊕ Checkpoint α n m k}
    {j j' : Journal α n} (h : (s.advance l trials c).resume j = (.ok outcome, j')) :
    (∃ status, status.isEmpty = false ∧ outcome = .inl ⟨c.point, l, l.r, status⟩ ∧
      (status = s.options.gradientStatus (l.gradientCosine c.point.norm) ∨
        s.options.maxIterations = 0 ∧ status = .ofReason .maxIterations)) ∨
    (s.options.gradientStatus (l.gradientCosine c.point.norm)).isEmpty = true ∧
      ∃ q i result,
        s.Tries l (s.stepScale l c.scale) (l.gradientCosine c.point.norm)
          ⟨c.point, c.region, l.r⟩ j q i ∧
        (s.tryStep l (s.stepScale l c.scale) (l.gradientCosine c.point.norm) q).resume i =
          (.ok result, j') ∧
        (result.status.isEmpty = false ∧ outcome =
            .inl ⟨result.progress.point, l, result.progress.workspace, result.status⟩ ∨
          result.status.isEmpty = true ∧ result.accepted = true ∧ outcome =
            .inr ⟨s.stepScale l c.scale, result.progress.region, result.progress.point⟩) := by
  rcases advance_cases h with ⟨status, hstatus, hend, -, hreason⟩ | ⟨hgradient, -, hsteps⟩
  · exact .inl ⟨status, hstatus, hend, hreason⟩
  · exact .inr ⟨hgradient, hsteps⟩

/-- The gradient test ends an iteration before any step. -/
theorem advance_of_gradient {c : Checkpoint α n m k} (j : Journal α n)
    (h : (s.options.gradientStatus (l.gradientCosine c.point.norm)).isEmpty = false) :
    (s.advance l trials c).resume j =
      (.ok (.inl ⟨c.point, l, l.r, s.options.gradientStatus (l.gradientCosine c.point.norm)⟩), j) := by
  unfold advance
  simp only [h, Bool.not_false, if_true, Run.resume_pure]

theorem advance_of_no_iterations (trials : Nat) (c : Checkpoint α n m k) (j : Journal α n)
    (hlimit : s.options.maxIterations = 0) :
    ∃ f, (s.advance l trials c).resume j = (.ok (.inl f), j) := by
  cases hgradient : (s.options.gradientStatus (l.gradientCosine c.point.norm)).isEmpty with
  | false => exact ⟨_, advance_of_gradient j hgradient⟩
  | true =>
    unfold advance
    simp only [hgradient, hlimit, if_true]
    exact ⟨_, rfl⟩

/-- The first step of an iteration is its last when it is accepted or gives a reason to stop. -/
theorem advance_of_step (trials : Nat) {c : Checkpoint α n m k} {result : TrialResult α n m k}
    {j j' : Journal α n}
    (hgradient : (s.options.gradientStatus (l.gradientCosine c.point.norm)).isEmpty = true)
    (hlimit : s.options.maxIterations ≠ 0)
    (hstep : (s.tryStep l (s.stepScale l c.scale) (l.gradientCosine c.point.norm)
      ⟨c.point, c.region, l.r⟩).resume j = (.ok result, j'))
    (hend : result.accepted = true ∨ result.status.isEmpty = false) :
    (s.advance l (trials + 1) c).resume j =
      (.ok (if result.status.isEmpty = true
        then .inr ⟨s.stepScale l c.scale, result.progress.region, result.progress.point⟩
        else .inl ⟨result.progress.point, l, result.progress.workspace, result.status⟩), j') := by
  have htries : (s.tryUntilAccepted l (s.stepScale l c.scale) (l.gradientCosine c.point.norm)
      (trials + 1) ⟨c.point, c.region, l.r⟩).resume j = (.ok result, j') := by
    refine Run.bind_ok.2 ⟨result, j', hstep, ?_⟩
    rw [if_pos (by simpa using hend), Run.resume_pure]
  unfold advance
  simp only [hgradient, Bool.not_true, Bool.false_eq_true, if_false, if_neg hlimit]
  refine Run.bind_ok.2 ⟨result, j', htries, ?_⟩
  by_cases hstatus : result.status.isEmpty = true
  · simp only [hstatus, Bool.not_true, Bool.false_eq_true, if_false, if_true, Run.resume_pure]
  · simp only [hstatus, Bool.not_false, Bool.false_eq_true, if_false, if_true, Run.resume_pure]

end Steps

section Iterations

variable {tall : k ≤ m} {trials : Nat}

/-- Rescaling stays at the point, which is only measured anew. -/
theorem rescale_point (l : Linearization α m k) (c : Checkpoint α n m k) :
    ∃ v, (s.rescale l c).point = { c.point with scaledNorm := v } := by
  unfold rescale
  split
  · exact ⟨_, rfl⟩
  · exact ⟨c.point.scaledNorm, rfl⟩

theorem iteration_ok {c : Checkpoint α n m k} {outcome : Finish α n m k ⊕ Checkpoint α n m k}
    {j j' : Journal α n} (h : (s.iteration tall trials c).resume j = (.ok outcome, j')) :
    ∃ a i, (s.jacobianAt c.point.x c.point.residuals).resume j = (.ok a, i) ∧
      (s.advance (.ofJacobian s.limits c.point a tall) trials
        (s.rescale (.ofJacobian s.limits c.point a tall) c)).resume i = (.ok outcome, j') :=
  Run.bind_ok.1 h

/-- The checkpoints that a search from `x` passes, each with the journal at that time. -/
inductive Visits (s : Setting α n m k) (tall : k ≤ m) (trials : Nat) (x : Vector α n) :
    Checkpoint α n m k → Journal α n → Prop
  | start {p : Iterate α n m k} {j : Journal α n} :
      (s.startAt x).resume .empty = (.ok p, j) → Visits s tall trials x (s.firstCheckpoint p) j
  | next {c c' : Checkpoint α n m k} {j j' : Journal α n} :
      Visits s tall trials x c j →
      (s.iteration tall trials c).resume j = (.ok (.inr c'), j') → Visits s tall trials x c' j'

/-- A property of points that neither rescaling nor a step destroys. -/
structure Preserves (s : Setting α n m k) (I : Iterate α n m k → Prop) : Prop where
  scaledNorm : ∀ p scaledNorm, I p → I { p with scaledNorm }
  step : ∀ {l scale cosine p result j j'},
    (s.tryStep l scale cosine p).resume j = (.ok result, j') → I p.point → I result.progress.point

namespace Preserves

variable {x : Vector α n} {I : Iterate α n m k → Prop}

/-- A step leaves the point or accepts its target, so only accepted targets have to be looked at. -/
theorem of_accept (hscaledNorm : ∀ p scaledNorm, I p → I { p with scaledNorm })
    (haccept : ∀ p scale target r, s.Finds p target r → I p → I (s.accept p scale target r)) :
    s.Preserves I where
  scaledNorm := hscaledNorm
  step := by
    intro l scale cosine p result j j' h hp
    rcases tryStep_point h with heq | ⟨target, r, hr, heq⟩
    · rw [heq]
      exact hp
    · rw [heq]
      exact haccept _ _ _ _ hr hp

/-- Steps are all that changes the point of an iteration, but for its scaled norm. -/
theorem iteration (h : s.Preserves I) {c : Checkpoint α n m k}
    {outcome : Finish α n m k ⊕ Checkpoint α n m k} {j j' : Journal α n} (hc : I c.point)
    (hiteration : (s.iteration tall trials c).resume j = (.ok outcome, j')) :
    I (outcome.elim Finish.point Checkpoint.point) := by
  obtain ⟨a, i, -, hadvance⟩ := iteration_ok hiteration
  have hrescaled : I (s.rescale (.ofJacobian s.limits c.point a tall) c).point := by
    obtain ⟨v, hpoint⟩ := rescale_point (s := s) (.ofJacobian s.limits c.point a tall) c
    rw [hpoint]
    exact h.scaledNorm _ v hc
  rcases advance_ok hadvance with ⟨_, -, rfl, -⟩ | ⟨-, q, i', result, hq, hstep, hend⟩
  · exact hrescaled
  · have hpoint : I q.point := by
      rw [hq.point_eq]
      exact hrescaled
    rcases hend with ⟨-, rfl⟩ | ⟨-, -, rfl⟩
    · exact h.step hstep hpoint
    · exact h.step hstep hpoint

/-- What every step preserves holds at every point of a search. -/
theorem visits (h : s.Preserves I)
    (hstart : ∀ p j, (s.startAt x).resume .empty = (.ok p, j) → I p)
    {c : Checkpoint α n m k} {j : Journal α n} (hc : s.Visits tall trials x c j) : I c.point := by
  induction hc with
  | start hp => exact hstart _ _ hp
  | next _ hstep ih => exact h.iteration ih hstep

end Preserves

theorem visits_point {x : Vector α n} {I : Iterate α n m k → Prop}
    (hstart : ∀ p j, (s.startAt x).resume .empty = (.ok p, j) → I p)
    (hscaledNorm : ∀ p scaledNorm, I p → I { p with scaledNorm })
    (haccept : ∀ p scale target r, s.Finds p target r → I p → I (s.accept p scale target r))
    {c : Checkpoint α n m k} {j : Journal α n} (h : s.Visits tall trials x c j) : I c.point :=
  (Preserves.of_accept hscaledNorm haccept).visits hstart h

/-- The norm that a point carries is that of its residuals. -/
theorem norm_eq_of_visits {x : Vector α n} {c : Checkpoint α n m k} {j : Journal α n}
    (h : s.Visits tall trials x c j) : c.point.norm = s.normOf c.point.residuals := by
  refine visits_point (I := fun p => p.norm = s.normOf p.residuals) ?_ ?_ ?_ h
  · intro p j hp
    obtain ⟨r, i, -, rfl⟩ := startAt_ok hp
    rfl
  · exact fun _ _ h => h
  · exact fun _ _ _ _ _ _ => rfl

/-- A point has its ties in place and carries the residuals found there. -/
structure Settled (s : Setting α n m k) (p : Iterate α n m k) : Prop where
  ties : s.applyTies p.x = p.x
  residuals : ∃ f, s.eval p.x = .ok f ∧ p.residuals = f.map s.dampen

section Settled

variable (hties : ∀ x, s.applyTies (s.applyTies x) = s.applyTies x)

include hties

theorem settled_startAt {x : Vector α n} {p : Iterate α n m k} {j j' : Journal α n}
    (h : (s.startAt x).resume j = (.ok p, j')) : s.Settled p := by
  obtain ⟨r, i, hr, rfl⟩ := startAt_ok h
  obtain ⟨f, hf, rfl, -, -⟩ := residualsAt_ok.1 hr
  rw [hties] at hf
  exact ⟨hties x, f, hf, rfl⟩

theorem preserves_settled : s.Preserves s.Settled := by
  refine .of_accept (fun _ _ h => ⟨h.ties, h.residuals⟩) ?_
  rintro p scale target r ⟨j, i, hr⟩ -
  obtain ⟨f, hf, rfl, -, -⟩ := residualsAt_ok.1 hr
  exact ⟨hties _, f, hf, rfl⟩

theorem settled_of_visits {x : Vector α n} {c : Checkpoint α n m k} {j : Journal α n}
    (h : s.Visits tall trials x c j) : s.Settled c.point :=
  (preserves_settled hties).visits (fun _ _ => settled_startAt hties) h

end Settled

/-- Where nothing is tied or damped, the residuals that a point carries are those of the function. -/
theorem eval_of_visits {x : Vector α n} (hties : ∀ x, s.applyTies x = x)
    (hdamp : ∀ r, s.dampen r = r) {c : Checkpoint α n m k} {j : Journal α n}
    (h : s.Visits tall trials x c j) : s.eval c.point.x = .ok c.point.residuals := by
  obtain ⟨f, hf, hresiduals⟩ := (settled_of_visits (fun x => hties _) h).residuals
  rw [hf, hresiduals, show s.dampen = id from funext hdamp, Vector.map_id]

theorem iterate_ok {x : Vector α n} {j j' : Journal α n} {c : Checkpoint α n m k}
    {f : Finish α n m k} {iterations : Nat} (hc : s.Visits tall trials x c j)
    (h : (s.iterate tall trials iterations c).resume j = (.ok f, j')) :
    ∃ c' i', s.Visits tall trials x c' i' ∧
      (s.iteration tall trials c').resume i' = (.ok (.inl f), j') := by
  induction iterations generalizing c j with
  | zero => simp [iterate] at h
  | succ iterations ih =>
      obtain ⟨outcome, i', hstep, hrest⟩ := Run.bind_ok.1 h
      cases outcome with
      | inl finish =>
          cases hrest
          exact ⟨c, j, hc, hstep⟩
      | inr next => exact ih (hc.next hstep) hrest

/-- The end of a search always comes to a solution, with the counts of the moment. -/
theorem conclude_counts (s : Setting α n m k) (names : Vector (Option String) n) (start : α)
    (f : Finish α n m k) (j : Journal α n) :
    ∃ log, (s.conclude names start f).resume j =
      (.ok (s.solutionOf names start f j.evaluations j.jacobians), { j with log }) := by
  have hlog : ∃ log, (s.logFinish start f).resume j = (.ok (), { j with log }) := by
    by_cases h : (s.covarianceAt f).2 < k
    · simp only [logFinish, h, if_true, Run.resume_bind, Run.resume_log, Run.resume_evaluations]
      exact ⟨_, rfl⟩
    · simp only [logFinish, h, if_false, Run.resume_bind, Run.resume_log, Run.resume_evaluations]
      exact ⟨_, rfl⟩
  obtain ⟨log, hi⟩ := hlog
  exact ⟨_, Run.bind_ok.2 ⟨(), _, hi, rfl⟩⟩

theorem conclude_ok (s : Setting α n m k) (names : Vector (Option String) n) (start : α)
    (f : Finish α n m k) (j : Journal α n) :
    ∃ evaluations jacobians j', (s.conclude names start f).resume j =
      (.ok (s.solutionOf names start f evaluations jacobians), j') := by
  obtain ⟨log, h⟩ := conclude_counts s names start f j
  exact ⟨_, _, _, h⟩

/-- A search that returns a solution does so in the last of the iterations it visited. -/
theorem search_cases {names : Vector (Option String) n} {x : Vector α n} {solution : Solution α n m}
    {j : Journal α n} (h : (s.search tall trials names x).resume .empty = (.ok solution, j)) :
    ∃ p i₀ c i₁ f i₂, (s.startAt x).resume .empty = (.ok p, i₀) ∧
      s.Visits tall trials x c i₁ ∧ (s.iteration tall trials c).resume i₁ = (.ok (.inl f), i₂) ∧
      solution = s.solutionOf names p.norm f i₂.evaluations i₂.jacobians ∧
      ∃ log, j = { i₂ with log } := by
  obtain ⟨p, i₀, hp, h⟩ := Run.bind_ok.1 h
  obtain ⟨f, i₂, hf, h⟩ := Run.bind_ok.1 h
  obtain ⟨c, i₁, hc, hlast⟩ := iterate_ok (.start hp) hf
  obtain ⟨log, hconclude⟩ := conclude_counts s names p.norm f i₂
  cases hconclude.symm.trans h
  exact ⟨p, i₀, c, i₁, f, i₂, hp, hc, hlast, rfl, log, rfl⟩

theorem search_ok {names : Vector (Option String) n} {x : Vector α n} {solution : Solution α n m}
    {j : Journal α n} (h : (s.search tall trials names x).resume .empty = (.ok solution, j)) :
    ∃ p i₀ c i₁ f i₂, (s.startAt x).resume .empty = (.ok p, i₀) ∧
      s.Visits tall trials x c i₁ ∧ (s.iteration tall trials c).resume i₁ = (.ok (.inl f), i₂) ∧
      ∃ evaluations jacobians, solution = s.solutionOf names p.norm f evaluations jacobians := by
  obtain ⟨p, i₀, c, i₁, f, i₂, hp, hc, hlast, rfl, -⟩ := search_cases h
  exact ⟨p, i₀, c, i₁, f, i₂, hp, hc, hlast, _, _, rfl⟩

/-- Iterations that come to an end do so by way of every checkpoint that is visited. -/
theorem iterate_of_visits {x : Vector α n} {p : Iterate α n m k} {c : Checkpoint α n m k}
    {f : Finish α n m k} {i j j' : Journal α n} {iterations : Nat}
    (hp : (s.startAt x).resume .empty = (.ok p, i))
    (hf : (s.iterate tall trials iterations (s.firstCheckpoint p)).resume i = (.ok f, j'))
    (hc : s.Visits tall trials x c j) :
    ∃ rest, (s.iterate tall trials (rest + 1) c).resume j = (.ok f, j') := by
  have hnonzero : ∀ {rest : Nat} {c : Checkpoint α n m k} {j : Journal α n},
      (s.iterate tall trials rest c).resume j = (.ok f, j') →
        ∃ fewer, (s.iterate tall trials (fewer + 1) c).resume j = (.ok f, j') := by
    intro rest c j h
    cases rest with
    | zero => simp [iterate] at h
    | succ fewer => exact ⟨fewer, h⟩
  induction hc with
  | start hq =>
      cases hp.symm.trans hq
      exact hnonzero hf
  | next _ hstep ih =>
      obtain ⟨rest, hrest⟩ := ih
      obtain ⟨outcome, i', hiteration, hrest⟩ := Run.bind_ok.1 hrest
      cases hiteration.symm.trans hstep
      exact hnonzero hrest

theorem solution_of_last {names : Vector (Option String) n} {x : Vector α n}
    {solution : Solution α n m} {c : Checkpoint α n m k} {f : Finish α n m k} {i i' j : Journal α n}
    (h : (s.search tall trials names x).resume .empty = (.ok solution, j))
    (hc : s.Visits tall trials x c i)
    (hlast : (s.iteration tall trials c).resume i = (.ok (.inl f), i')) :
    ∃ start evaluations jacobians,
      solution = s.solutionOf names start f evaluations jacobians := by
  obtain ⟨p, i₀, hp, h⟩ := Run.bind_ok.1 h
  obtain ⟨g, i₁, hg, h⟩ := Run.bind_ok.1 h
  obtain ⟨rest, hrest⟩ := iterate_of_visits hp hg hc
  obtain ⟨outcome, i₂, hiteration, hrest⟩ := Run.bind_ok.1 hrest
  cases hiteration.symm.trans hlast
  cases hrest
  obtain ⟨log, hconclude⟩ := conclude_counts s names p.norm f i'
  cases hconclude.symm.trans h
  exact ⟨_, _, _, rfl⟩

/-- A search whose iterations end comes to a solution. -/
theorem search_of_iterate {x : Vector α n} (names : Vector (Option String) n)
    {p : Iterate α n m k} {f : Finish α n m k} {i i' : Journal α n}
    (hp : (s.startAt x).resume .empty = (.ok p, i))
    (hf : (s.iterate tall trials (s.options.maxIterations + 1) (s.firstCheckpoint p)).resume i =
      (.ok f, i')) :
    ∃ evaluations jacobians j, (s.search tall trials names x).resume .empty =
      (.ok (s.solutionOf names p.norm f evaluations jacobians), j) := by
  obtain ⟨evaluations, jacobians, j, h⟩ := conclude_ok s names p.norm f i'
  exact ⟨evaluations, jacobians, j, Run.bind_ok.2 ⟨p, i, hp, Run.bind_ok.2 ⟨f, i', hf, h⟩⟩⟩

theorem search_of_first {x : Vector α n} (names : Vector (Option String) n)
    {p : Iterate α n m k} {f : Finish α n m k} {i i' : Journal α n}
    (hp : (s.startAt x).resume .empty = (.ok p, i))
    (hf : (s.iteration tall trials (s.firstCheckpoint p)).resume i = (.ok (.inl f), i')) :
    ∃ evaluations jacobians j, (s.search tall trials names x).resume .empty =
      (.ok (s.solutionOf names p.norm f evaluations jacobians), j) :=
  search_of_iterate names hp (Run.bind_ok.2 ⟨.inl f, i', hf, rfl⟩)

end Iterations

end Setting

theorem except_bind_ok {ε β γ : Type} {e : Except ε β} {f : β → Except ε γ} {c : γ} :
    e >>= f = .ok c ↔ ∃ b, e = .ok b ∧ f b = .ok c := by
  cases e <;> simp [bind, Except.bind]

theorem forM_ok {ε β : Type} {l : List β} {f : β → Except ε Unit} {u : Unit} :
    l.forM f = .ok u ↔ ∀ b ∈ l, f b = .ok () := by
  induction l with
  | nil => simp [pure, Except.pure]
  | cons b l ih =>
      change (f b >>= fun _ => l.forM f) = .ok u ↔ _
      rw [except_bind_ok, List.forall_mem_cons, ← ih]
      constructor
      · rintro ⟨_, hb, hl⟩
        exact ⟨hb, hl⟩
      · rintro ⟨hb, hl⟩
        exact ⟨(), hb, hl⟩

theorem forM_eq_error {ε β : Type} {f : β → Except ε Unit} {before after : List β} {b : β}
    {cause : ε} (hb : f b = .error cause) (hbefore : ∀ a ∈ before, f a = .ok ()) :
    (before ++ b :: after).forM f = .error cause := by
  induction before with
  | nil =>
      change (f b >>= fun _ => after.forM f) = _
      rw [hb]
      rfl
  | cons a before ih =>
      change (f a >>= fun _ => (before ++ b :: after).forM f) = _
      rw [hbefore a (List.mem_cons_self ..)]
      exact ih fun a ha => hbefore a (List.mem_cons_of_mem _ ha)

/-- What a fit that was accepted has passed. -/
theorem prepare_ok {α : Type} [Scalar α] {store : Store α} {function : ResidualFunction α}
    {options : Options α} {initial : Option (Array α)} {start : Start store function}
    (h : prepare store function options initial = .ok start) :
    options.validate = .ok () ∧ store.startingVector initial = .ok start.x ∧
      store.check start.x = .ok () ∧ options.checkScale store.size = .ok () ∧
      options.mode? function = .ok start.mode := by
  simp only [prepare, except_bind_ok] at h
  obtain ⟨_, hvalid, x, hx, _, hcheck, h⟩ := h
  split at h
  · cases h
  · split at h
    · obtain ⟨_, hscale, h⟩ := except_bind_ok.1 h
      obtain ⟨mode, hmode, h⟩ := except_bind_ok.1 h
      cases h
      exact ⟨hvalid, hx, hcheck, hscale, hmode⟩
    · cases h

theorem free_ne_zero_of_prepare {α : Type} [Scalar α] {store : Store α}
    {function : ResidualFunction α} {options : Options α} {initial : Option (Array α)}
    {start : Start store function} (h : prepare store function options initial = .ok start) :
    store.free.size ≠ 0 := by
  intro hfree
  simp only [prepare, except_bind_ok, if_pos hfree] at h
  obtain ⟨_, -, _, -, _, -, _, hthrow, -⟩ := h
  cases hthrow

theorem prepare_eq_ok {α : Type} [Scalar α] {store : Store α} {function : ResidualFunction α}
    {options : Options α} {initial : Option (Array α)} {x : Vector α store.size}
    {mode : JacobianMode} (hvalid : options.validate = .ok ())
    (hx : store.startingVector initial = .ok x) (hcheck : store.check x = .ok ())
    (hfree : store.free.size ≠ 0) (tall : store.free.size ≤ function.count)
    (hscale : options.checkScale store.size = .ok ()) (hmode : options.mode? function = .ok mode) :
    prepare store function options initial = .ok ⟨mode, x, tall⟩ := by
  refine except_bind_ok.2 ⟨(), hvalid, except_bind_ok.2 ⟨x, hx, except_bind_ok.2 ⟨(), hcheck, ?_⟩⟩⟩
  simp only [if_neg hfree, dif_pos tall]
  exact except_bind_ok.2 ⟨(), hscale, except_bind_ok.2 ⟨mode, hmode, rfl⟩⟩

/-- A start is refused for what its check says, and for nothing else about it. -/
theorem prepare_of_check {α : Type} [Scalar α] {store : Store α} {function : ResidualFunction α}
    {options : Options α} {initial initial' : Option (Array α)} {x y : Vector α store.size}
    (hx : store.startingVector initial = .ok x) (hy : store.startingVector initial' = .ok y)
    (hcheck : store.check x = store.check y) :
    prepare store function options initial' =
      (prepare store function options initial).map fun start => { start with x := y } := by
  unfold prepare
  rw [hx, hy]
  simp only [bind, Except.bind, hcheck]
  cases options.validate with
  | error => rfl
  | ok =>
      cases store.check y with
      | error => rfl
      | ok =>
          by_cases hfree : store.free.size = 0
          · simp only [if_pos hfree]
            rfl
          · simp only [if_neg hfree]
            by_cases tall : store.free.size ≤ function.count
            · simp only [dif_pos tall]
              cases options.checkScale store.size with
              | error => rfl
              | ok => cases options.mode? function <;> rfl
            · simp only [dif_neg tall]
              rfl

theorem bind_ne_error {ε β γ : Type} {e : Except ε β} {f : β → Except ε γ} {cause : ε}
    (he : e ≠ .error cause) (hf : ∀ b, f b ≠ .error cause) : e >>= f ≠ .error cause := by
  cases e with
  | error => exact fun h => he (by cases h; rfl)
  | ok b => exact hf b

/-- A fit is refused for a parameter if its options are in range and a starting value is refused. -/
theorem prepare_eq_parameter_iff {α : Type} [Scalar α] {store : Store α}
    {function : ResidualFunction α} {options : Options α} {initial : Option (Array α)}
    {x : Vector α store.size} (hx : store.startingVector initial = .ok x)
    {cause : ParameterError α} :
    prepare store function options initial = .error (.parameter cause) ↔
      options.validate = .ok () ∧ store.check x = .error (.parameter cause) := by
  have hscale : options.checkScale store.size ≠ .error (.parameter cause) := by
    unfold Options.checkScale
    split
    · split <;> nofun
    · nofun
  have hmode : options.mode? function ≠ .error (.parameter cause) := by
    refine bind_ne_error ?_ fun mode => ?_
    · unfold JacobianChoice.mode?
      split <;> nofun
    · split <;> nofun
  rw [prepare, hx, Options.validate]
  cases options.check with
  | error => exact iff_of_false nofun fun h => nomatch h.1
  | ok =>
      rw [and_iff_right (show Except.mapError _ _ = .ok () from rfl)]
      change store.check x >>= _ = _ ↔ _
      cases store.check x with
      | error => constructor <;> rintro ⟨⟩ <;> rfl
      | ok =>
          -- what comes after the starting values is refused for other reasons
          refine iff_of_false ?_ nofun
          change (if _ then _ else _) ≠ _
          split
          · nofun
          · split
            · exact bind_ne_error hscale fun _ => bind_ne_error hmode fun _ => nofun
            · nofun

structure Options.InRange {α : Type} [Scalar α] (o : Options α) : Prop where
  ftol : isTolerance o.ftol = true
  xtol : isTolerance o.xtol = true
  gtol : isTolerance o.gtol = true
  damp : isTolerance o.damp = true
  rankTolerance : isTolerance o.rankTolerance = true
  factor : isPositive o.factor = true
  relativeError : ∀ e ∈ o.relativeError, isPositive e = true
  maxEvaluations : o.maxEvaluations ≠ some 0
  scale : ∀ d ∈ o.scale.getD [], isPositive d = true

namespace Status

theorem contains_eq_false {s : Status} (h : s.isEmpty = true) (r : Reason) :
    s.contains r = false := by
  rw [isEmpty, List.isEmpty_iff] at h
  rw [← Bool.not_eq_true, ← mem_reasons, h]
  exact List.not_mem_nil

theorem isEmpty_eq_false {s : Status} {r : Reason} (h : s.contains r = true) :
    s.isEmpty = false := by
  cases hempty : s.isEmpty with
  | false => rfl
  | true =>
      rw [contains_eq_false hempty] at h
      cases h

theorem contains_ofTests {tests : List (Reason × Bool)} {r : Reason} :
    (ofTests tests).contains r = true ↔ (r, true) ∈ tests := by
  simp only [ofTests, List.any_eq_true, Bool.and_eq_true, beq_iff_eq]
  constructor
  · rintro ⟨⟨q, fired⟩, hmem, rfl, rfl⟩
    exact hmem
  · intro hmem
    exact ⟨(r, true), hmem, rfl, rfl⟩

theorem converged_iff {s : Status} :
    s.converged = true ↔ s.contains .ftolConverged = true ∨ s.contains .xtolConverged = true ∨
      s.contains .gtolConverged = true := by
  simp only [converged, List.any_eq_true, mem_reasons]
  constructor
  · rintro ⟨r, hr, hconverged⟩
    cases r <;> simp_all [Reason.isConverged]
  · rintro (h | h | h)
    · exact ⟨_, h, rfl⟩
    · exact ⟨_, h, rfl⟩
    · exact ⟨_, h, rfl⟩

end Status

namespace Options

variable {α : Type} [Scalar α]

omit [Scalar α] in
theorem require_ok {ok : Bool} {cause : InvalidOption α} {u : Unit} :
    require ok cause = .ok u ↔ ok = true := by
  cases ok <;> simp [require]

theorem validate_ok {o : Options α} : o.validate = .ok () ↔ o.InRange := by
  have hcheck : o.validate = .ok () ↔ o.check = .ok () := by
    rw [validate]
    cases o.check <;> simp
  rw [hcheck]
  simp only [check, except_bind_ok, forM_ok, checkTolerance, require_ok, exists_const,
    Option.mem_toList, bne_iff_ne]
  constructor
  · rintro ⟨hftol, hxtol, hgtol, hdamp, hrank, hfactor, herror, hevaluations, hscale⟩
    exact ⟨hftol, hxtol, hgtol, hdamp, hrank, hfactor, herror, hevaluations, hscale⟩
  · intro h
    exact ⟨h.ftol, h.xtol, h.gtol, h.damp, h.rankTolerance, h.factor, h.relativeError,
      h.maxEvaluations, h.scale⟩

end Options

section Fits

variable {α : Type} [NormedScalar α] {store : Store α} {function : ResidualFunction α}
  {options : Options α} {initial : Option (Array α)}

/-- A fit that is refused calls nothing. -/
theorem minimizeWithin_of_error {cause : FitError α}
    (h : prepare store function options initial = .error cause) (trials : Nat) :
    minimizeWithin trials store function options initial = (.error (.failed cause), .empty) := by
  unfold minimizeWithin
  rw [h]

theorem minimizeWithin_of_start {start : Start store function}
    (h : prepare store function options initial = .ok start) (trials : Nat) :
    minimizeWithin trials store function options initial =
      ((Setting.ofStore store function options start.mode).search start.tall trials store.names
        start.x).resume .empty := by
  unfold minimizeWithin
  rw [h]
  rfl

theorem minimizeWithin_ok {trials : Nat} {solution : Solution α store.size function.count}
    {j : Journal α store.size}
    (h : minimizeWithin trials store function options initial = (.ok solution, j)) :
    ∃ start, prepare store function options initial = .ok start ∧
      ((Setting.ofStore store function options start.mode).search start.tall trials store.names
        start.x).resume .empty = (.ok solution, j) := by
  cases hprepare : prepare store function options initial with
  | error cause => cases (minimizeWithin_of_error hprepare trials).symm.trans h
  | ok start => exact ⟨start, rfl, (minimizeWithin_of_start hprepare trials).symm.trans h⟩

end Fits

end LeastSquares
