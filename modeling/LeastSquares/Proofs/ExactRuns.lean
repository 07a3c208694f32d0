import LeastSquares.Proofs.Reals

/-!
Runs in exact arithmetic. Every number is finite there, so a run fails only where a function it calls
does, and only for the bound on its loops otherwise. The lemmas here go from what the functions
return to what a run returns, the other way round than the lemmas that take a run apart.
-/

namespace LeastSquares

open Run

variable {n m k : ℕ}

theorem all_isFinite (x : Vector ℝ n) : x.all Scalar.isFinite = true :=
  Vector.all_eq_true.2 fun _ _ => rfl

@[simp] theorem Options.isTolerance_iff {x : ℝ} : Options.isTolerance x = true ↔ 0 ≤ x := by
  simp [isTolerance, Scalar.isFinite]

@[simp] theorem Options.isPositive_iff {x : ℝ} : Options.isPositive x = true ↔ 0 < x := by
  simp [isPositive, Scalar.isFinite]

theorem inRange_default : (Options.default : Options ℝ).InRange := by
  refine ⟨?_, ?_, ?_, ?_, ?_, ?_, ?_, ?_, ?_⟩ <;>
    simp [Options.default, Options.isTolerance, Options.isPositive, Scalar.isFinite]
  all_goals norm_num

theorem mode_default {function : ResidualFunction ℝ} (h : function.hasJacobian = true) :
    (Options.default : Options ℝ).mode? function = .ok .analytic := by
  simp [Options.mode?, JacobianChoice.mode?, Options.default, h]

namespace Setting

variable {s : Setting ℝ n m k} {x : Vector ℝ n} {f : Vector ℝ m} {j : Journal ℝ n}

theorem residualsAt_of_eval {purpose : Purpose} (h : s.eval (s.applyTies x) = .ok f) :
    (s.residualsAt purpose x).resume j = (.ok (f.map s.dampen), s.journalAfter purpose x j) :=
  residualsAt_of_finite h (all_isFinite _) j

theorem startAt_of_eval (h : s.eval (s.applyTies (s.applyTies x)) = .ok f) :
    ∃ j', (s.startAt x).resume j = (.ok ⟨s.applyTies x, s.freePart (s.applyTies x), f.map s.dampen,
      s.normOf (f.map s.dampen), 0, 0⟩, j') :=
  startAt_of_finite h (all_isFinite _) j

theorem jacobianAt_of_analytic (hmode : s.mode = .analytic) {full : Mat ℝ m n}
    (h : s.jacobian (s.applyTies x) = .ok full) (fx : Vector ℝ m) :
    ∃ j', (s.jacobianAt x fx).resume j = (.ok (Mat.ofFn fun i c => full[i][s.free[c]]), j') :=
  jacobianAt_of_finite hmode h (List.all_eq_true.2 fun _ _ => rfl) fx j

theorem tryStep_of_eval (l : Linearization ℝ m k) (scale : Vector ℝ k) (cosine : ℝ)
    (p : Progress ℝ n m k) (j : Journal ℝ n)
    (h : s.eval (s.applyTies (s.withFree p.point.x (s.propose l scale p).move.target)) = .ok f) :
    ∃ evaluations j', (s.tryStep l scale cosine p).resume j =
      (.ok (s.resultOf l scale cosine p (f.map s.dampen) evaluations), j') := by
  obtain ⟨log, hlog⟩ := logTrial_ok
    (s.judge l p.point (s.propose l scale p) (f.map s.dampen))
    (s.pointAfter p.point scale (s.propose l scale p) (f.map s.dampen)
      (s.judge l p.point (s.propose l scale p) (f.map s.dampen))) cosine
    (s.journalAfter .trial (s.withFree p.point.x (s.propose l scale p).move.target) j)
  exact ⟨_, _, bind_ok.2 ⟨(), _, require_ok.2 ⟨all_isFinite _, rfl⟩,
    bind_ok.2 ⟨_, _, residualsAt_of_eval h, bind_ok.2 ⟨(), _, hlog,
      bind_ok.2 ⟨_, _, resume_evaluations _, rfl⟩⟩⟩⟩⟩

end Setting

theorem Store.within_iff {store : Store ℝ} {x : Vector ℝ store.size} :
    store.Within x ↔ ∀ i, (store.get i).tie = none →
      (∀ l ∈ (store.get i).bounds.lower, l ≤ x[i]) ∧
        ∀ u ∈ (store.get i).bounds.upper, x[i] ≤ u := by
  simp [Store.Within, Bounds.contains, Scalar.isNumber, Scalar.isFinite, Option.all_eq_true]

/-- By default a fit is accepted from every start within the limits, if there is something to fit. -/
theorem prepare_default {store : Store ℝ} {function : ResidualFunction ℝ}
    {initial : Option (Array ℝ)} {x : Vector ℝ store.size} (hfunction : function.hasJacobian = true)
    (hx : store.startingVector initial = .ok x) (hwithin : store.Within x)
    (hfree : store.free.size ≠ 0) (tall : store.free.size ≤ function.count) :
    prepare store function .default initial = .ok ⟨.analytic, x, tall⟩ :=
  prepare_eq_ok (Options.validate_ok.2 inRange_default) hx (Store.check_ok.2 hwithin) hfree tall rfl
    (mode_default hfunction)

end LeastSquares
