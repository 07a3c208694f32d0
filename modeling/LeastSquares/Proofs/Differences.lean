import LeastSquares.Proofs.Gradient

/-!
Where a Jacobian by differences evaluates the residuals. Each column moves one free parameter by a
step, ahead or back, and central differences do both. The step leads back where a step ahead would
pass the upper limit, but no rule looks at the lower limit: a step back may pass it, and so may
either step of a central difference. The theorem says exactly when every probe stays within the
limits.
-/

namespace LeastSquares

/-! ### The points of one column -/

namespace DifferenceRule

section Points

variable {α : Type} [Scalar α]

def points (rule : DifferenceRule α) (x scale : α) : List α :=
  let h := rule.signedStep x scale
  if rule.side = .both then [x + h, x - h] else [x + h]

end Points

structure Positive (rule : DifferenceRule ℝ) : Prop where
  step : ∀ h ∈ rule.step, 0 < h
  maxStep : ∀ cap ∈ rule.maxStep, 0 < cap

/-- The step leads back: on the negative side, and where a step ahead would pass the upper limit. -/
def LeadsBack (rule : DifferenceRule ℝ) (x scale : ℝ) : Prop :=
  rule.side = .negative ∨ ∃ u ∈ rule.upper, u < x + rule.stepLength x scale

variable {rule : DifferenceRule ℝ} {x scale : ℝ}

/-- A step that comes out as zero is replaced, before the cap. -/
theorem exists_stepLength_eq (rule : DifferenceRule ℝ) (x : ℝ) (hscale : 0 ≤ scale) :
    ∃ t : ℝ, ((∀ h ∈ rule.step, 0 < h) → 0 ≤ t) ∧ rule.stepLength x scale =
      rule.maxStep.elim (if t = 0 then scale else t) (min (if t = 0 then scale else t)) := by
  cases hstep : rule.step with
  | none =>
      refine ⟨scale * |x|, fun _ => mul_nonneg hscale (abs_nonneg x), ?_⟩
      cases hcap : rule.maxStep <;>
        simp only [stepLength, hstep, hcap, beq_iff_eq, Option.elim_none, Option.elim_some] <;> rfl
  | some t =>
      refine ⟨if rule.relative then |t * x| else t, fun hpos => ?_, ?_⟩
      · split
        · exact abs_nonneg _
        · exact (hpos t rfl).le
      · cases hcap : rule.maxStep <;>
          simp only [stepLength, hstep, hcap, beq_iff_eq, Option.elim_none, Option.elim_some] <;> rfl

theorem stepLength_pos (h : rule.Positive) (hscale : 0 < scale) : 0 < rule.stepLength x scale := by
  obtain ⟨t, ht, hlength⟩ := exists_stepLength_eq rule x hscale.le
  have hreplaced : 0 < if t = 0 then scale else t := by
    split
    · exact hscale
    · next hne => exact lt_of_le_of_ne (ht h.step) (Ne.symm hne)
  rw [hlength]
  cases hcap : rule.maxStep with
  | none => exact hreplaced
  | some cap => exact lt_min hreplaced (h.maxStep cap hcap)

/-- A positive cap keeps a step away from zero, whatever step was chosen. -/
theorem stepLength_ne_zero (hcap : ∀ cap ∈ rule.maxStep, 0 < cap) (hscale : 0 < scale) :
    rule.stepLength x scale ≠ 0 := by
  obtain ⟨t, -, hlength⟩ := exists_stepLength_eq rule x hscale.le
  have hreplaced : (if t = 0 then scale else t) ≠ 0 := by
    split
    · exact hscale.ne'
    · next hne => exact hne
  rw [hlength]
  cases hmax : rule.maxStep with
  | none => exact hreplaced
  | some cap =>
      rcases min_choice (if t = 0 then scale else t) cap with hmin | hmin
      · exact hmin.trans_ne hreplaced
      · exact hmin.trans_ne (hcap cap hmax).ne'

theorem signedStep_of_leadsBack (h : rule.LeadsBack x scale) :
    rule.signedStep x scale = -rule.stepLength x scale := by
  refine if_pos (h.imp_right ?_)
  rintro ⟨u, hu, hlt⟩
  rw [Option.mem_def.1 hu, Option.any_some, decide_eq_true_eq]
  linarith

theorem signedStep_of_not_leadsBack (h : ¬ rule.LeadsBack x scale) :
    rule.signedStep x scale = rule.stepLength x scale := by
  refine if_neg fun hback => h (hback.imp_right fun hany => ?_)
  cases hu : rule.upper with
  | none =>
      rw [hu] at hany
      cases hany
  | some u =>
      rw [hu, Option.any_some, decide_eq_true_eq] at hany
      exact ⟨u, rfl, by linarith⟩

theorem signedStep_ne_zero (hcap : ∀ cap ∈ rule.maxStep, 0 < cap) (hscale : 0 < scale) :
    rule.signedStep x scale ≠ 0 := by
  have hne := stepLength_ne_zero (x := x) hcap hscale
  by_cases hback : rule.LeadsBack x scale
  · rw [signedStep_of_leadsBack hback]
    exact neg_ne_zero.2 hne
  · rw [signedStep_of_not_leadsBack hback]
    exact hne

theorem stepLength_le {cap : ℝ} (hcap : cap ∈ rule.maxStep) (hscale : 0 ≤ scale) :
    rule.stepLength x scale ≤ cap := by
  obtain ⟨t, -, hlength⟩ := exists_stepLength_eq rule x hscale
  rw [hlength, Option.mem_def.1 hcap]
  exact min_le_right _ _

theorem abs_signedStep (h : rule.Positive) (hscale : 0 < scale) :
    |rule.signedStep x scale| = rule.stepLength x scale := by
  have hpos := stepLength_pos (x := x) h hscale
  by_cases hback : rule.LeadsBack x scale
  · rw [signedStep_of_leadsBack hback, abs_neg, abs_of_pos hpos]
  · rw [signedStep_of_not_leadsBack hback, abs_of_pos hpos]

theorem contains_iff {b : Bounds ℝ} {v : ℝ} :
    b.contains v = true ↔ (∀ l ∈ b.lower, l ≤ v) ∧ ∀ u ∈ b.upper, v ≤ u := by
  simp [Bounds.contains, Scalar.isNumber, Option.all_eq_true]

/-- The points of a column stay within the limits just where the steps that may pass one do not. -/
theorem contains_points_iff {b : Bounds ℝ} (hupper : rule.upper = b.upper) (h : rule.Positive)
    (hscale : 0 < scale) (hx : b.contains x = true) :
    (∀ v ∈ rule.points x scale, b.contains v = true) ↔
      (rule.side = .both → ∀ u ∈ b.upper, x + rule.stepLength x scale ≤ u) ∧
      (rule.side = .both ∨ rule.LeadsBack x scale →
        ∀ l ∈ b.lower, l ≤ x - rule.stepLength x scale) := by
  have hpos := stepLength_pos (x := x) h hscale
  obtain ⟨hlower, hbelow⟩ := contains_iff.1 hx
  -- a step ahead keeps the lower limit, and a step back the upper one
  have hahead : b.contains (x + rule.stepLength x scale) = true ↔
      ∀ u ∈ b.upper, x + rule.stepLength x scale ≤ u := by
    rw [contains_iff]
    exact and_iff_right fun l hl => by linarith [hlower l hl]
  have hback : b.contains (x - rule.stepLength x scale) = true ↔
      ∀ l ∈ b.lower, l ≤ x - rule.stepLength x scale := by
    rw [contains_iff]
    exact and_iff_left fun u hu => by linarith [hbelow u hu]
  by_cases hboth : rule.side = .both
  · have hpoints : (∀ v ∈ rule.points x scale, b.contains v = true) ↔
        b.contains (x + rule.stepLength x scale) = true ∧
          b.contains (x - rule.stepLength x scale) = true := by
      by_cases hleads : rule.LeadsBack x scale
      · simp [points, hboth, signedStep_of_leadsBack hleads, ← sub_eq_add_neg, and_comm]
      · simp [points, hboth, signedStep_of_not_leadsBack hleads]
    rw [hpoints, hahead, hback]
    exact ⟨fun hall => ⟨fun _ => hall.1, fun _ => hall.2⟩,
      fun hall => ⟨hall.1 hboth, hall.2 (.inl hboth)⟩⟩
  · by_cases hleads : rule.LeadsBack x scale
    · have hpoints : rule.points x scale = [x - rule.stepLength x scale] := by
        simp [points, hboth, signedStep_of_leadsBack hleads, sub_eq_add_neg]
      rw [hpoints, List.forall_mem_singleton, hback]
      exact ⟨fun hall => ⟨fun h => absurd h hboth, fun _ => hall⟩, fun hall => hall.2 (.inr hleads)⟩
    · have hpoints : rule.points x scale = [x + rule.stepLength x scale] := by
        simp [points, hboth, signedStep_of_not_leadsBack hleads]
      rw [hpoints, List.forall_mem_singleton, hahead]
      refine ⟨fun _ => ⟨fun h => absurd h hboth, fun h => absurd h (not_or.2 ⟨hboth, hleads⟩)⟩,
        fun _ u hu => ?_⟩
      by_contra hlt
      exact hleads (.inr ⟨u, by rw [hupper]; exact hu, not_le.1 hlt⟩)

end DifferenceRule

/-! ### Steps that were set -/

/-- What `setStep` makes sure of: steps and caps are positive. -/
structure Parameter.StepsPositive (p : Parameter ℝ) : Prop where
  step : ∀ h ∈ p.step, 0 < h
  maxStep : ∀ cap ∈ p.maxStep, 0 < cap

namespace Parameter

theorem stepsPositive_setStep {p q : Parameter ℝ} {step maxStep : ℝ} {relative : Bool}
    (h : p.setStep step maxStep relative = .ok q) : q.StepsPositive := by
  unfold setStep at h
  split at h
  · cases h
  · split at h
    · cases h
    · next hcap =>
      cases h
      refine ⟨fun t ht => ?_, fun cap hcap' => ?_⟩
      · dsimp only at ht
        split at ht
        · next hpos =>
          cases ht
          exact hpos
        · cases ht
      · have hmax : 0 < maxStep := by simpa [Scalar.isNumber] using hcap
        cases hcap'
        exact hmax

theorem positive_differenceRule {p : Parameter ℝ} (h : p.StepsPositive) :
    p.differenceRule.Positive := ⟨h.step, h.maxStep⟩

end Parameter

theorem Options.differenceScale_pos (o : Options ℝ) : 0 < o.differenceScale :=
  Real.sqrt_pos.2 (epsilon_pos.trans_le (le_max_right _ _))

/-! ### The probes of a Jacobian -/

namespace Setting

section Probes

variable {α : Type} [Scalar α] {n m k : ℕ} (s : Setting α n m k)

def columnProbes (x : Vector α n) (c : Fin k) : List (Vector α n) :=
  (s.rules[c].points x[s.free[c]] s.options.differenceScale).map fun v =>
    s.applyTies (put x s.free[c] v)

def probes (x : Vector α n) : List (Vector α n) := (List.finRange k).flatMap (s.columnProbes x)

variable {s}

theorem mem_probes {x p : Vector α n} :
    p ∈ s.probes x ↔ ∃ c : Fin k,
      ∃ v ∈ s.rules[c].points x[s.free[c]] s.options.differenceScale,
        s.applyTies (put x s.free[c] v) = p := by
  simp [probes, columnProbes]

theorem respects_probes (hmode : s.mode = .finiteDifference) (x : Vector α n) (fx : Vector α m) :
    Run.Respects (fun call => ∃ p ∈ s.probes x, call = .residuals .probe p) (s.jacobianAt x fx)
      fun _ => True := by
  have hprobe : ∀ c : Fin k, ∀ v ∈ s.rules[c].points x[s.free[c]] s.options.differenceScale,
      Run.Respects (fun call => ∃ p ∈ s.probes x, call = .residuals .probe p)
        (s.residualsAt .probe (put x s.free[c] v)) fun _ => True := by
    intro c v hv
    refine .bind (.record ⟨_, mem_probes.2 ⟨c, v, hv, rfl⟩, rfl⟩) fun _ _ => ?_
    exact .bind .ofExcept fun _ _ => .bind .countEvaluation fun _ _ =>
      .bind .require fun _ _ => .pure trivial
  refine .bind .countJacobian fun _ _ => ?_
  rw [hmode]
  refine .bind (Q := fun _ => True) ?_ fun _ _ => .bind .require fun _ _ => .pure trivial
  rw [differenceJacobian_eq]
  refine .bind (.ofFnM fun c => ?_) fun _ _ => .pure trivial
  unfold differenceColumn
  dsimp only
  have hahead := hprobe c
    (x[s.free[c]] + s.rules[c].signedStep x[s.free[c]] s.options.differenceScale)
    (by simp only [DifferenceRule.points]; split <;> simp)
  refine .bind hahead fun _ _ => ?_
  split
  · next hboth =>
    refine .bind (hprobe c _ ?_) fun _ _ => .pure trivial
    simp [DifferenceRule.points, hboth]
  · exact .pure trivial

end Probes

end Setting

/-! ### Runs that do not fail -/

namespace Run

theorem resume_ofFnM {α β : Type} {n k : ℕ} {f : Fin k → Run α n β} {g : Fin k → β}
    {calls : Fin k → List (Call α n)}
    (h : ∀ c j, ∃ j', (f c).resume j = (.ok (g c), j') ∧
      j'.calls.toList = j.calls.toList ++ calls c) (j : Journal α n) :
    ∃ j', (Vector.ofFnM f).resume j = (.ok (Vector.ofFn g), j') ∧
      j'.calls.toList = j.calls.toList ++ (List.finRange k).flatMap calls := by
  induction k with
  | zero => exact ⟨j, by rw [Vector.ofFnM_zero, resume_pure]; congr, by simp⟩
  | succ k ih =>
      obtain ⟨i, hinit, hcalls⟩ := ih (fun c => h c.castSucc)
      obtain ⟨j', hlast, hcalls'⟩ := h (Fin.last k) i
      refine ⟨j', ?_, ?_⟩
      · rw [Vector.ofFnM_succ, Vector.ofFn_succ]
        exact bind_ok.2 ⟨_, i, hinit, bind_ok.2 ⟨_, j', hlast, rfl⟩⟩
      · rw [hcalls', hcalls, List.finRange_succ_last, List.flatMap_append, List.flatMap_map]
        simp

end Run

noncomputable def differenceOf {n m : ℕ} (f : Vector ℝ n → Vector ℝ m) (x : Vector ℝ n)
    (fx : Vector ℝ m) (j : Fin n) (rule : DifferenceRule ℝ) (scale : ℝ) : Vector ℝ m :=
  let h := rule.signedStep x[j] scale
  if rule.side = .both then
    Vector.zipWith (fun a b => (a - b) / (2.0 * h)) (f (put x j (x[j] + h)))
      (f (put x j (x[j] - h)))
  else Vector.zipWith (fun a f => (a - f) / h) (f (put x j (x[j] + h))) fx

/-- Difference quotients of a component that is affine in the parameter are exact, and those on both
sides also where it is quadratic. -/
theorem differenceOf_quadratic {n m : ℕ} {f : Vector ℝ n → Vector ℝ m} {x : Vector ℝ n}
    {fx : Vector ℝ m} {j : Fin n} {rule : DifferenceRule ℝ} {scale : ℝ} {i : Fin m} (p q r : ℝ)
    (hstep : rule.signedStep x[j] scale ≠ 0) (hside : r = 0 ∨ rule.side = .both)
    (hf : ∀ t, (f (put x j t))[i] = p + q * t + r * t ^ 2)
    (hfx : fx[i] = p + q * x[j] + r * x[j] ^ 2) :
    (differenceOf f x fx j rule scale)[i] = q + 2 * r * x[j] := by
  unfold differenceOf
  dsimp only
  split
  · rw [getElem_zipWith, hf, hf, div_eq_iff (mul_ne_zero (by norm_num) hstep)]
    norm_num
    ring
  · next hone =>
    obtain rfl := hside.resolve_right hone
    rw [getElem_zipWith, hf, hfx, div_eq_iff hstep]
    ring

namespace Setting

variable {n m k : ℕ} {s : Setting ℝ n m k} {residuals : Vector ℝ n → Vector ℝ m}

/-- The residuals as a search finds them, for a function that does not fail. -/
noncomputable def seen (s : Setting ℝ n m k) (residuals : Vector ℝ n → Vector ℝ m)
    (x : Vector ℝ n) : Vector ℝ m :=
  (residuals (s.applyTies x)).map s.dampen

theorem differenceColumn_of_eval (heval : ∀ x, s.eval x = .ok (residuals x)) (x : Vector ℝ n)
    (fx : Vector ℝ m) (c : Fin k) (j : Journal ℝ n) :
    ∃ j', (differenceColumn (s.residualsAt .probe) x fx s.free[c] s.rules[c]
        s.options.differenceScale).resume j =
      (.ok (differenceOf (s.seen residuals) x fx s.free[c] s.rules[c]
        s.options.differenceScale), j') ∧
      j'.calls.toList = j.calls.toList ++ (s.columnProbes x c).map (.residuals .probe) := by
  have hprobe : ∀ y i, (s.residualsAt .probe y).resume i =
      (.ok (s.seen residuals y), s.journalAfter .probe y i) :=
    fun y i => residualsAt_of_eval (heval _)
  set h := s.rules[c].signedStep x[s.free[c]] s.options.differenceScale with hh
  by_cases hboth : s.rules[c].side = .both
  · refine ⟨s.journalAfter .probe (put x s.free[c] (x[s.free[c]] - h))
      (s.journalAfter .probe (put x s.free[c] (x[s.free[c]] + h)) j), ?_, ?_⟩
    · simp only [differenceOf, if_pos hboth]
      refine Run.bind_ok.2 ⟨_, _, hprobe _ _, ?_⟩
      rw [if_pos hboth]
      exact Run.bind_ok.2 ⟨_, _, hprobe _ _, rfl⟩
    · simp [journalAfter, columnProbes, DifferenceRule.points, hboth, hh]
  · refine ⟨s.journalAfter .probe (put x s.free[c] (x[s.free[c]] + h)) j, ?_, ?_⟩
    · simp only [differenceOf, if_neg hboth]
      refine Run.bind_ok.2 ⟨_, _, hprobe _ _, ?_⟩
      rw [if_neg hboth]
      rfl
    · simp [journalAfter, columnProbes, DifferenceRule.points, hboth, hh]

theorem jacobianAt_of_eval (hmode : s.mode = .finiteDifference)
    (heval : ∀ x, s.eval x = .ok (residuals x)) (x : Vector ℝ n) (fx : Vector ℝ m)
    (j : Journal ℝ n) :
    ∃ j', (s.jacobianAt x fx).resume j =
      (.ok (Mat.ofFn fun i c => (differenceOf (s.seen residuals) x fx s.free[c] s.rules[c]
        s.options.differenceScale)[i]), j') ∧
      j'.calls.toList = j.calls.toList ++ (s.probes x).map (.residuals .probe) := by
  obtain ⟨j', hcolumns, hcalls⟩ := Run.resume_ofFnM
    (fun c => differenceColumn_of_eval heval x fx c) { j with jacobians := j.jacobians + 1 }
  have hfinite : ∀ a : Mat ℝ m k, a.entries.all Scalar.isFinite = true :=
    fun a => List.all_eq_true.2 fun _ _ => rfl
  refine ⟨j', ?_, ?_⟩
  · unfold jacobianAt
    refine Run.bind_ok.2 ⟨(), _, Run.resume_countJacobian j, ?_⟩
    rw [hmode, differenceJacobian_eq]
    refine Run.bind_ok.2 ⟨_, j', Run.bind_ok.2 ⟨_, j', hcolumns, rfl⟩, ?_⟩
    refine Run.bind_ok.2 ⟨(), j', Run.require_ok.2 ⟨hfinite _, rfl⟩, ?_⟩
    rw [Run.resume_pure, Mat.ofColumns]
    simp only [getElem_ofFn]
  · rw [hcalls, probes, List.map_flatMap]

end Setting

/-! ### Probes and limits -/

namespace Store

variable {store : Store ℝ} {function : ResidualFunction ℝ} {options : Options ℝ}
  {mode : JacobianMode} {x : Vector ℝ store.size}

theorem rules_ofStore (c : Fin store.free.size) :
    (Setting.ofStore store function options mode).rules[c] =
      (store.get store.freePlaces[c]).differenceRule := getElem_ofFn _ c

/-- A probe moves one free parameter, and no other free parameter. -/
theorem getElem_probe (c d : Fin store.free.size) (v : ℝ) :
    (store.applyTies (LeastSquares.put x store.freePlaces[c] v))[store.freePlaces[d]] =
      if c = d then v else x[store.freePlaces[d]] := by
  have huntied : (store.get store.freePlaces[d]).tie = none :=
    (isFree_eq_true.1 (store.isFree_freePlaces d)).2
  rw [store.getElem_applyTies_of_untied _ huntied, getElem_put]
  by_cases hcd : c = d
  · rw [if_pos hcd, if_pos (by rw [hcd])]
  · rw [if_neg hcd, if_neg fun h => hcd (store.distinct_freePlaces c d h)]

theorem contains_probes_iff (hx : ∀ c : Fin store.free.size,
      (store.get store.freePlaces[c]).bounds.contains x[store.freePlaces[c]] = true) :
    (∀ p ∈ (Setting.ofStore store function options mode).probes x, ∀ c : Fin store.free.size,
        (store.get store.freePlaces[c]).bounds.contains p[store.freePlaces[c]] = true) ↔
      ∀ c : Fin store.free.size,
        ∀ v ∈ (store.get store.freePlaces[c]).differenceRule.points x[store.freePlaces[c]]
          options.differenceScale,
        (store.get store.freePlaces[c]).bounds.contains v = true := by
  constructor
  · intro h c v hv
    have hprobe := h _ (Setting.mem_probes.2 ⟨c, v, by rw [rules_ofStore]; exact hv, rfl⟩) c
    rwa [show (Setting.ofStore store function options mode).applyTies = store.applyTies from rfl,
      show (Setting.ofStore store function options mode).free = store.freePlaces from rfl,
      getElem_probe, if_pos rfl] at hprobe
  · intro h p hp d
    obtain ⟨c, v, hv, rfl⟩ := Setting.mem_probes.1 hp
    rw [rules_ofStore] at hv
    rw [show (Setting.ofStore store function options mode).applyTies = store.applyTies from rfl,
      show (Setting.ofStore store function options mode).free = store.freePlaces from rfl,
      getElem_probe]
    split
    · next hcd =>
      subst hcd
      exact h c v hv
    · exact hx d

end Store

/-- In exact arithmetic, with steps as `setStep` leaves them and the free parameters within their
limits: a Jacobian by differences calls the residual function at its probes only, and at all of them
if it does not fail. They respect the limits if and only if no central difference passes an upper
limit and no step back passes a lower one. -/
theorem probes_within_iff {store : Store ℝ} (function : ResidualFunction ℝ) (options : Options ℝ)
    {x : Vector ℝ store.size} (fx : Vector ℝ function.count)
    (hsteps : ∀ i, (store.get i).StepsPositive)
    (hx : ∀ c : Fin store.free.size,
      (store.get store.freePlaces[c]).bounds.contains x[store.freePlaces[c]] = true) :
    (∀ call ∈ ((Setting.ofStore store function options .finiteDifference).jacobianAt x
        fx).outcome.2.calls,
      ∃ p ∈ (Setting.ofStore store function options .finiteDifference).probes x,
        call = .residuals .probe p) ∧
    ((∀ y : Vector ℝ store.size, ∃ r, function.eval y = .ok r) →
      ((Setting.ofStore store function options .finiteDifference).jacobianAt x
        fx).outcome.2.calls.toList =
        ((Setting.ofStore store function options .finiteDifference).probes x).map
          (.residuals .probe)) ∧
    ((∀ p ∈ (Setting.ofStore store function options .finiteDifference).probes x,
        ∀ c : Fin store.free.size,
          (store.get store.freePlaces[c]).bounds.contains p[store.freePlaces[c]] = true) ↔
      ∀ c : Fin store.free.size,
        let p := store.get store.freePlaces[c]
        let v := x[store.freePlaces[c]]
        let h := p.differenceRule.stepLength v options.differenceScale
        (p.side = .both → ∀ u ∈ p.bounds.upper, v + h ≤ u) ∧
        (p.side = .both ∨ p.side = .negative ∨ (∃ u ∈ p.bounds.upper, u < v + h) →
          ∀ l ∈ p.bounds.lower, l ≤ v - h)) := by
  refine ⟨?_, fun heval => ?_, (Store.contains_probes_iff hx).trans (forall_congr' fun c => ?_)⟩
  · exact (Setting.respects_probes rfl x fx .empty (by simp [Journal.empty])).1
  · choose residuals hresiduals using heval
    obtain ⟨j, hrun, hcalls⟩ := Setting.jacobianAt_of_eval
      (s := Setting.ofStore store function options .finiteDifference) rfl hresiduals x fx .empty
    rw [Run.outcome, hrun]
    exact hcalls.trans (by simp [Journal.empty])
  · have hupper : (store.get store.freePlaces[c]).differenceRule.upper =
        (store.get store.freePlaces[c]).bounds.upper := Store.finiteUpper_eq _
    refine (DifferenceRule.contains_points_iff hupper
      (Parameter.positive_differenceRule (hsteps _)) options.differenceScale_pos (hx c)).trans ?_
    unfold DifferenceRule.LeadsBack
    rw [hupper]
    exact Iff.rfl

noncomputable def excessOverTwo : ResidualFunction ℝ where
  count := 1
  eval x := .ok #v[x.toList.sum - 2]
  hasJacobian := true
  jacobian _ := .ok (Mat.ofFn fun _ _ => 1)

/-- A parameter between zero and one, with steps of a half on the given side. -/
noncomputable def halfSteps (side : Side) : Parameter ℝ where
  value := some 0
  bounds := ⟨some 0, some 1⟩
  step := some 0.5
  maxStep := some 1
  side := side

theorem halfSteps_of_setters (side : Side) :
    ∃ p q : Parameter ℝ, (Parameter.ofValue 0).setLimits 0 1 = .ok p ∧
      p.setStep 0.5 1 false = .ok q ∧ q.setSide side = halfSteps side := by
  have hlimits : Bounds.between (0 : ℝ) 1 = .ok ⟨some 0, some 1⟩ := by
    simp [Bounds.between, Bounds.make, Bounds.lowerLimit, Bounds.upperLimit, Scalar.isFinite,
      Scalar.isNumber, not_lt.2 (zero_le_one (α := ℝ))]
  refine ⟨{ value := some 0, bounds := ⟨some 0, some 1⟩ },
    { value := some 0, bounds := ⟨some 0, some 1⟩, step := some 0.5, maxStep := some 1 },
    ?_, ?_, rfl⟩
  · rw [Parameter.setLimits, hlimits]
    rfl
  · have hstep : ¬ (0.5 : ℝ) < 0 := by norm_num
    have hcap : ¬ (1 : ℝ) ≤ 0 := by norm_num
    have hpos : (0 : ℝ) < 0.5 := by norm_num
    simp [Parameter.setStep, Scalar.isFinite, Scalar.isNumber, hstep, hcap, hpos]

theorem isFree_halfSteps (side : Side) : (halfSteps side).isFree = true := by
  simp [Parameter.isFree, Parameter.isFixed, Parameter.isTied, halfSteps, Bounds.isDegenerate]

theorem stepsPositive_halfSteps (side : Side) : (halfSteps side).StepsPositive := by
  obtain ⟨p, q, -, hq, hside⟩ := halfSteps_of_setters side
  have hpositive := Parameter.stepsPositive_setStep hq
  rw [← hside]
  exact ⟨hpositive.step, hpositive.maxStep⟩

theorem stepLength_halfSteps (side : Side) (x scale : ℝ) :
    (halfSteps side).differenceRule.stepLength x scale = 0.5 := by
  have hne : ¬ (0.5 : ℝ) = 0 := by norm_num
  have hmin : min (0.5 : ℝ) 1 = 0.5 := min_eq_left (by norm_num)
  simp only [DifferenceRule.stepLength, Parameter.differenceRule, halfSteps, beq_iff_eq,
    Bool.false_eq_true, if_false, if_neg hne]
  exact hmin

/-- Next to the upper limit a step that leads back stays within the limits. -/
theorem probes_within_at_one :
    (∀ i, ((⟨#[halfSteps .auto]⟩ : Store ℝ).get i).StepsPositive) ∧
    ∀ p ∈ (Setting.ofStore ⟨#[halfSteps .auto]⟩ excessOverTwo .default .finiteDifference).probes
        #v[1],
      ∀ c : Fin (⟨#[halfSteps .auto]⟩ : Store ℝ).free.size, (halfSteps .auto).bounds.contains
        p[(⟨#[halfSteps .auto]⟩ : Store ℝ).freePlaces[c]] = true := by
  have hget : ∀ i, (⟨#[halfSteps .auto]⟩ : Store ℝ).get i = halfSteps .auto := by
    intro i
    rw [show i = (0 : Fin 1) from Subsingleton.elim (α := Fin 1) _ _]
    rfl
  have hone : ∀ i : Fin 1, (#v[1] : Vector ℝ 1)[i] = 1 := by
    intro i
    rw [Subsingleton.elim i 0]
    rfl
  have hsteps : ∀ i, ((⟨#[halfSteps .auto]⟩ : Store ℝ).get i).StepsPositive := by
    intro i
    rw [hget]
    exact stepsPositive_halfSteps .auto
  refine ⟨hsteps, fun p hp c => ?_⟩
  have hwithin := (@probes_within_iff ⟨#[halfSteps .auto]⟩ excessOverTwo .default #v[1] #v[-1]
    hsteps fun c => by
      rw [hget, hone, DifferenceRule.contains_iff]
      simp [halfSteps]).2.2.2 fun c => by
      dsimp only
      rw [hget, hone, stepLength_halfSteps]
      simp only [halfSteps, Option.mem_def, Option.some.injEq, reduceCtorEq, false_or,
        IsEmpty.forall_iff, true_and]
      rintro - l rfl
      norm_num
  have hcontains := hwithin p hp c
  rwa [hget] at hcontains

/-- On the lower limit a step on the negative side passes it. -/
theorem exists_probe_below_limit :
    (∃ p q : Parameter ℝ, (Parameter.ofValue 0).setLimits 0 1 = .ok p ∧
      p.setStep 0.5 1 false = .ok q ∧ q.setSide .negative = halfSteps .negative) ∧
    (halfSteps .negative).bounds.contains 0 = true ∧
    Call.residuals .probe #v[-0.5] ∈ ((Setting.ofStore ⟨#[halfSteps .negative]⟩ excessOverTwo
      .default .finiteDifference).jacobianAt #v[0] #v[-2]).outcome.2.calls ∧
    (halfSteps .negative).isFree = true ∧
    (halfSteps .negative).bounds.contains (-0.5) = false := by
  refine ⟨halfSteps_of_setters .negative, ?_, ?_, isFree_halfSteps .negative, ?_⟩
  · rw [DifferenceRule.contains_iff]
    simp [halfSteps]
  · have heval : ∀ x, (Setting.ofStore ⟨#[halfSteps .negative]⟩ excessOverTwo .default
        .finiteDifference).eval x = .ok #v[x.toList.sum - 2] := fun _ => rfl
    obtain ⟨j, hrun, hcalls⟩ := Setting.jacobianAt_of_eval rfl heval #v[0] #v[-2] .empty
    rw [Run.outcome, hrun, ← Array.mem_toList_iff, hcalls]
    refine List.mem_append_right _ (List.mem_map_of_mem (Setting.mem_probes.2 ?_))
    obtain ⟨c, hc⟩ := Store.exists_freePlaces (s := ⟨#[halfSteps .negative]⟩) (i := (0 : Fin 1))
      (isFree_halfSteps .negative)
    refine ⟨c, -0.5, ?_, ?_⟩
    · rw [Store.rules_ofStore, show (Setting.ofStore ⟨#[halfSteps .negative]⟩ excessOverTwo .default
        .finiteDifference).free[c] = (0 : Fin 1) from hc, hc]
      have hpoints : ∀ scale : ℝ, (halfSteps .negative).differenceRule.points 0 scale = [-0.5] := by
        intro scale
        have hback : (halfSteps .negative).differenceRule.LeadsBack 0 scale := .inl rfl
        simp only [DifferenceRule.points, DifferenceRule.signedStep_of_leadsBack hback,
          stepLength_halfSteps, zero_add]
        exact if_neg (by simp [halfSteps, Parameter.differenceRule])
      exact List.mem_of_mem_head? (Option.mem_def.2 (congrArg List.head? (hpoints _)))
    · refine ext_getElem fun i => ?_
      rw [show i = (0 : Fin 1) from Subsingleton.elim (α := Fin 1) _ _]
      refine (Store.getElem_applyTies_of_untied (s := ⟨#[halfSteps .negative]⟩) _
        (i := (0 : Fin 1)) rfl).trans ((getElem_put _ _ _ _).trans (if_pos hc))
  · rw [← Bool.not_eq_true, DifferenceRule.contains_iff]
    intro h
    have hlower := h.1 0 rfl
    norm_num at hlower

end LeastSquares
