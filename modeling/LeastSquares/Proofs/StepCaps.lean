import LeastSquares.Proofs.ExactModel

/-!
How far one iteration moves a parameter that has a largest step. The cap is part of the factor by
which a step is shortened, so the shortened step keeps to it whatever the limits do. Afterwards the
trial point is moved once more: a value within rounding of a limit is put onto the limit. That can
carry a parameter past its cap, by no more than the tolerance of the limit it is put onto, and it is
the only way a cap is passed.
-/

namespace LeastSquares

open Matrix

variable {n m k : ℕ}

namespace StepLimits

/-! ### The shortened step -/

/-- Every component of a shortened step keeps to its cap. -/
theorem abs_restrict_le {limits : StepLimits ℝ k} {c : Fin k} {cap : ℝ}
    (hcap : limits.maxStep[c] = some cap) (hpos : 0 < cap) (x step : Vector ℝ k) :
    |(limits.restrict x step).2[c]| ≤ cap := by
  have hratio := ratio_le_capRatio limits x step hcap
  have hone := one_pos.trans_le (one_le_capRatio limits x step)
  rw [abs_div, abs_of_pos hpos, div_le_iff₀ hpos] at hratio
  rw [getElem_restrict_snd, restrict_fst, mul_div_assoc', abs_div, abs_of_pos hone, div_le_iff₀ hone,
    mul_comm (limits.dropOutward x step c), mul_comm cap]
  exact hratio

/-! ### Rounding onto a limit -/

theorem snapToUpper_cases (u value : ℝ) :
    snapToUpper u value = value ∨ snapToUpper u value = u ∧ u ≤ value + tolerance u := by
  unfold snapToUpper
  split
  · next hle =>
    rw [upperThreshold_eq] at hle
    exact .inr ⟨rfl, sub_le_iff_le_add.1 hle⟩
  · exact .inl rfl

theorem snapToLower_cases (l value : ℝ) :
    snapToLower l value = value ∨ snapToLower l value = l ∧ value ≤ l + tolerance l := by
  unfold snapToLower
  split
  · next hle =>
    rw [lowerThreshold_eq] at hle
    exact .inr ⟨rfl, hle⟩
  · exact .inl rfl

/-- The change from `old` to `new` keeps to the cap, or `new` is a limit and the change exceeds the
cap by no more than the tolerance of that limit. -/
def CapsChange (lower upper : Option ℝ) (cap old new : ℝ) : Prop :=
  |new - old| ≤ cap ∨
    ((lower = some new ∨ upper = some new) ∧ |new - old| ≤ cap + tolerance new)

section Rounding

variable {lower upper : Option ℝ} {cap old value : ℝ} (h : |value - old| ≤ cap)

include h

theorem capsChange_snapToUpper (hupper : ∀ u ∈ upper, old ≤ u) :
    CapsChange lower upper cap old (upper.elim value (snapToUpper · value)) := by
  cases upper with
  | none => exact .inl h
  | some u =>
      change CapsChange lower (some u) cap old (snapToUpper u value)
      rcases snapToUpper_cases u value with heq | ⟨heq, hle⟩
      · rw [heq]
        exact .inl h
      · rw [heq]
        refine .inr ⟨.inr rfl, ?_⟩
        rw [abs_of_nonneg (sub_nonneg.2 (hupper u rfl))]
        linarith [(abs_le.1 h).2]

/-- Rounding onto the upper limit does not carry a value down past the cap. -/
theorem sub_le_snapToUpper (hupper : ∀ u ∈ upper, old ≤ u) :
    old - cap ≤ upper.elim value (snapToUpper · value) := by
  have hvalue := (abs_le.1 h).1
  cases upper with
  | none =>
      change old - cap ≤ value
      linarith
  | some u =>
      change old - cap ≤ snapToUpper u value
      rcases snapToUpper_cases u value with heq | ⟨heq, -⟩
      · rw [heq]
        linarith
      · rw [heq]
        linarith [hupper u rfl, (abs_nonneg _).trans h]

/-- A change that keeps to the cap still does, but for the tolerance of a limit, when the value is
put onto a limit that it is within rounding of. -/
theorem capsChange_snapValue (hlower : ∀ l ∈ lower, l ≤ old) (hupper : ∀ u ∈ upper, old ≤ u) :
    CapsChange lower upper cap old (snapValue lower upper value) := by
  cases lower with
  | none => exact capsChange_snapToUpper h hupper
  | some l =>
      change CapsChange (some l) upper cap old
        (snapToLower l (upper.elim value (snapToUpper · value)))
      rcases snapToLower_cases l (upper.elim value (snapToUpper · value)) with heq | ⟨heq, hle⟩
      · rw [heq]
        exact capsChange_snapToUpper h hupper
      · -- the upper limit may have been put on before; it is no further from `old` than the lower one
        have hdown := sub_le_snapToUpper h hupper
        rw [heq]
        refine .inr ⟨.inl rfl, ?_⟩
        rw [abs_of_nonpos (sub_nonpos.2 (hlower l rfl))]
        linarith

end Rounding

/-- The most that rounding onto a limit adds to a change. -/
noncomputable def slack (lower upper : Option ℝ) : ℝ :=
  max (lower.elim 0 tolerance) (upper.elim 0 tolerance)

theorem slack_nonneg (lower upper : Option ℝ) : 0 ≤ slack lower upper := by
  refine le_max_of_le_left ?_
  cases lower with
  | none => exact le_rfl
  | some l => exact tolerance_nonneg l

theorem CapsChange.abs_le {lower upper : Option ℝ} {cap old new : ℝ}
    (h : CapsChange lower upper cap old new) : |new - old| ≤ cap + slack lower upper := by
  rcases h with hle | ⟨rfl | rfl, hle⟩
  · exact hle.trans (le_add_of_nonneg_right (slack_nonneg _ _))
  · exact hle.trans (add_le_add le_rfl (le_max_left _ _))
  · exact hle.trans (add_le_add le_rfl (le_max_right _ _))

end StepLimits

namespace Setting

variable {s : Setting ℝ n m k}

/-- A move from a point within the limits changes each parameter by no more than its cap, but for the
tolerance of a limit that it is put onto. -/
theorem capsChange_move {free : Vector ℝ k} {c : Fin k} {cap : ℝ}
    (hlower : ∀ l ∈ s.limits.lower[c], l ≤ free[c]) (hupper : ∀ u ∈ s.limits.upper[c], free[c] ≤ u)
    (hcap : s.limits.maxStep[c] = some cap) (hpos : 0 < cap) (x : Vector ℝ k) :
    StepLimits.CapsChange s.limits.lower[c] s.limits.upper[c] cap free[c]
      (s.move free x).target[c] := by
  rw [getElem_move_target]
  refine StepLimits.capsChange_snapValue ?_ hlower hupper
  rw [add_sub_cancel_left]
  exact StepLimits.abs_restrict_le hcap hpos _ _

/-! ### An iteration -/

theorem tryStep_move {l : Linearization ℝ m k} {scale : Vector ℝ k} {cosine : ℝ}
    {p : Progress ℝ n m k} {result : TrialResult ℝ n m k} {j j' : Journal ℝ n}
    (h : (s.tryStep l scale cosine p).resume j = (.ok result, j'))
    (haccepted : result.accepted = true) :
    ∃ x, result.progress.point.x =
      s.applyTies (s.withFree p.point.x (s.move p.point.free x).target) := by
  obtain ⟨r, i, -, -, rfl⟩ := tryStep_ok h
  exact ⟨(s.propose l scale p).damped.x, congrArg Iterate.x (if_pos haccepted)⟩

variable {tall : k ≤ m} {trials : ℕ} {c : Checkpoint ℝ n m k}
  {outcome : Finish ℝ n m k ⊕ Checkpoint ℝ n m k} {j j' : Journal ℝ n}

/-- An iteration accepts no step and ends where it began, or it accepts one and ends one move from
there. -/
theorem iteration_point (h : (s.iteration tall trials c).resume j = (.ok outcome, j')) :
    ((outcome.elim Finish.point Checkpoint.point).iterations = c.point.iterations ∧
      (outcome.elim Finish.point Checkpoint.point).x = c.point.x) ∨
    ((outcome.elim Finish.point Checkpoint.point).iterations = c.point.iterations + 1 ∧
      ∃ x, (outcome.elim Finish.point Checkpoint.point).x =
        s.applyTies (s.withFree c.point.x (s.move c.point.free x).target)) := by
  obtain ⟨a, i, -, hadvance⟩ := iteration_ok h
  obtain ⟨v, hrescaled⟩ := rescale_point (s := s) (.ofJacobian s.limits c.point a tall) c
  rcases advance_ok hadvance with ⟨_, -, rfl, -⟩ | ⟨-, q, i', result, hq, hstep, hend⟩
  · refine .inl ?_
    change (s.rescale _ c).point.iterations = _ ∧ (s.rescale _ c).point.x = _
    rw [hrescaled]
    exact ⟨rfl, rfl⟩
  · have hpoint : q.point = { c.point with scaledNorm := v } := hq.point_eq.trans hrescaled
    have hresult : outcome.elim Finish.point Checkpoint.point = result.progress.point := by
      rcases hend with ⟨-, rfl⟩ | ⟨-, -, rfl⟩
      · rfl
      · rfl
    rw [hresult]
    cases haccepted : result.accepted with
    | false =>
        rw [tryStep_rejected hstep haccepted, hpoint]
        exact .inl ⟨rfl, rfl⟩
    | true =>
        refine .inr ⟨?_, ?_⟩
        · rw [tryStep_accepted hstep haccepted, hpoint]
        · obtain ⟨x, hx⟩ := tryStep_move hstep haccepted
          rw [hpoint] at hx
          exact ⟨x, hx⟩

end Setting

/-! ### Every iteration of a fit -/

section Fit

variable {store : Store ℝ} {function : ResidualFunction ℝ} {options : Options ℝ}
  {initial : Option (Array ℝ)} {start : Start store function} {trials : ℕ}
  {c : Checkpoint ℝ store.size function.count store.free.size}
  {outcome : Finish ℝ store.size function.count store.free.size ⊕
    Checkpoint ℝ store.size function.count store.free.size}
  {j j' : Journal ℝ store.size}

/-- In exact arithmetic, in whatever iteration of a fit and whatever came of it: a free parameter
with a largest step changes by no more than that between the point the iteration began at and the
point it ended at, but where it ends on one of its limits the change may be larger by the tolerance
of that limit. -/
theorem capsChange_of_iteration (hstart : prepare store function options initial = .ok start)
    (hc : (Setting.ofStore store function options start.mode).Visits start.tall trials start.x c j)
    (h : ((Setting.ofStore store function options start.mode).iteration start.tall trials
      c).resume j = (.ok outcome, j'))
    {d : Fin store.free.size} {cap : ℝ} (hcap : (store.get store.freePlaces[d]).maxStep = some cap)
    (hpos : 0 < cap) :
    StepLimits.CapsChange (store.get store.freePlaces[d]).bounds.lower
      (store.get store.freePlaces[d]).bounds.upper cap c.point.x[store.freePlaces[d]]
      (outcome.elim Finish.point Checkpoint.point).x[store.freePlaces[d]] := by
  have htie := (Store.isFree_eq_true.1 (store.isFree_freePlaces d)).2
  obtain ⟨hlower, hupper⟩ :=
    Store.within_iff.1 (constraints_of_visits hstart hc).2 store.freePlaces[d] htie
  have hfree := Store.free_eq_of_visits hc d
  rcases Setting.iteration_point h with ⟨-, hx⟩ | ⟨-, x, hx⟩
  -- without an accepted step nothing changes
  · rw [hx]
    refine .inl ?_
    rw [sub_self, abs_zero]
    exact hpos.le
  · rw [hx]
    -- the parameter has no tie, so it is where the move put it
    change StepLimits.CapsChange _ _ _ _
      (store.applyTies (overwrite c.point.x store.freePlaces _))[store.freePlaces[d]]
    rw [store.getElem_applyTies_of_untied _ htie, getElem_overwrite_place store.distinct_freePlaces,
      ← hfree, ← Store.lower_ofStore d, ← Store.upper_ofStore d]
    refine Setting.capsChange_move ?_ ?_ ?_ hpos x
    · rw [Store.lower_ofStore, hfree]
      exact hlower
    · rw [Store.upper_ofStore, hfree]
      exact hupper
    · rw [Store.maxStep_ofStore]
      exact hcap

section Distance

variable (hstart : prepare store function options initial = .ok start) {d : Fin store.free.size}
  {cap : ℝ} (hcap : (store.get store.freePlaces[d]).maxStep = some cap) (hpos : 0 < cap)

include hstart hcap hpos

/-- An iteration takes a parameter no further from the start than the steps accepted so far can have
taken it. -/
theorem distance_of_iteration
    (hc : (Setting.ofStore store function options start.mode).Visits start.tall trials start.x c j)
    (h : ((Setting.ofStore store function options start.mode).iteration start.tall trials
      c).resume j = (.ok outcome, j'))
    (hle : |c.point.x[store.freePlaces[d]] - start.x[store.freePlaces[d]]| ≤
      c.point.iterations * (cap + StepLimits.slack (store.get store.freePlaces[d]).bounds.lower
        (store.get store.freePlaces[d]).bounds.upper)) :
    |(outcome.elim Finish.point Checkpoint.point).x[store.freePlaces[d]] -
        start.x[store.freePlaces[d]]| ≤
      (outcome.elim Finish.point Checkpoint.point).iterations *
        (cap + StepLimits.slack (store.get store.freePlaces[d]).bounds.lower
          (store.get store.freePlaces[d]).bounds.upper) := by
  have hchange := (capsChange_of_iteration hstart hc h hcap hpos).abs_le
  rcases Setting.iteration_point h with ⟨hiterations, hx⟩ | ⟨hiterations, -⟩
  · rw [hiterations, hx]
    exact hle
  · have htriangle := abs_sub_le
      (outcome.elim Finish.point Checkpoint.point).x[store.freePlaces[d]]
      c.point.x[store.freePlaces[d]] start.x[store.freePlaces[d]]
    rw [hiterations, Nat.cast_succ, add_one_mul]
    linarith

theorem distance_of_visits
    (hc : (Setting.ofStore store function options start.mode).Visits start.tall trials start.x c j) :
    |c.point.x[store.freePlaces[d]] - start.x[store.freePlaces[d]]| ≤
      c.point.iterations * (cap + StepLimits.slack (store.get store.freePlaces[d]).bounds.lower
        (store.get store.freePlaces[d]).bounds.upper) := by
  induction hc with
  | start hp =>
      obtain ⟨r, i, -, rfl⟩ := Setting.startAt_ok hp
      have hx : (store.applyTies start.x)[store.freePlaces[d]] = start.x[store.freePlaces[d]] :=
        store.getElem_applyTies_of_untied _ (Store.isFree_eq_true.1 (store.isFree_freePlaces d)).2
      show |(store.applyTies start.x)[store.freePlaces[d]] - _| ≤ ((0 : ℕ) : ℝ) * _
      rw [hx, sub_self, abs_zero, Nat.cast_zero, zero_mul]
  | next hc hstep ih => exact distance_of_iteration hstart hcap hpos hc hstep ih

/-- A fit that ends far from its start has accepted many steps. -/
theorem distance_of_solution {solution : Solution ℝ store.size function.count}
    (h : minimizeWithin trials store function options initial = (.ok solution, j)) :
    |solution.parameters[store.freePlaces[d]] - start.x[store.freePlaces[d]]| ≤
      solution.iterations * (cap + StepLimits.slack (store.get store.freePlaces[d]).bounds.lower
        (store.get store.freePlaces[d]).bounds.upper) := by
  obtain ⟨start', hstart', hsearch⟩ := minimizeWithin_ok h
  cases hstart.symm.trans hstart'
  obtain ⟨p, i₀, c, i₁, f, i₂, -, hc, hlast, evaluations, jacobians, rfl⟩ := Setting.search_ok hsearch
  exact distance_of_iteration hstart hcap hpos hc hlast (distance_of_visits hstart hcap hpos hc)

end Distance

end Fit

/-! ### A step that is carried past its cap -/

namespace Snapped

/-- A parameter that starts within rounding of its lower limit, with a largest step of half the
distance. -/
noncomputable def store : Store ℝ :=
  ⟨#[{ value := some Scalar.epsilon, bounds := ⟨some 0, none⟩,
       maxStep := some (Scalar.epsilon / 2) }]⟩

noncomputable def columns : Mat ℝ 1 1 := Mat.ofFn fun _ _ => 1

noncomputable def function : ResidualFunction ℝ where
  count := 1
  eval x := .ok #v[x.toList.sum]
  hasJacobian := true
  jacobian _ := .ok (Mat.ofFn fun _ _ => 1)

noncomputable def options : Options ℝ := { (.default : Options ℝ) with maxIterations := 1 }

theorem prepared : prepare store function options (some #[Scalar.epsilon]) =
    .ok ⟨.analytic, #v[Scalar.epsilon], le_rfl⟩ := by
  refine prepare_eq_ok (Options.validate_ok.2 ?_) rfl (Store.check_ok.2 ?_) (by decide) le_rfl
    rfl (mode_default rfl)
  · exact { inRange_default with }
  · refine Store.within_iff.2 (Fin.forall_fin_one.2 fun _ => ⟨fun l hl => ?_, nofun⟩)
    obtain rfl : (0 : ℝ) = l := Option.some.inj hl
    exact epsilon_pos.le

noncomputable def setting : Setting ℝ 1 1 1 := .ofStore store function options .analytic

theorem untied (i : Fin store.size) : (store.get i).tie = none :=
  (Fin.forall_fin_one (p := fun i => (store.get i).tie = none)).2 rfl i

theorem applyTies_eq (x : Vector ℝ 1) : setting.applyTies x = x :=
  applyTies_of_untied untied x

theorem map_dampen (r : Vector ℝ 1) : r.map setting.dampen = r := Setting.map_dampen_eq rfl r

theorem ext_one {x y : Vector ℝ 1} (h : x[(0 : Fin 1)] = y[(0 : Fin 1)]) : x = y :=
  ext_getElem (Fin.forall_fin_one.2 h)

theorem eval_eq (x : Vector ℝ 1) : setting.eval x = .ok x := by
  refine congrArg Except.ok (ext_one ?_)
  exact (sum_toList x).trans (Fin.sum_univ_one _)

noncomputable def checkpoint : Checkpoint ℝ 1 1 1 := setting.firstCheckpoint
  ⟨#v[Scalar.epsilon], setting.freePart #v[Scalar.epsilon], #v[Scalar.epsilon],
    setting.normOf #v[Scalar.epsilon], 0, 0⟩

theorem tall : 1 ≤ 1 := le_rfl

noncomputable def scale : Vector ℝ 1 := setting.scaleAt tall checkpoint columns

noncomputable def model : Linearization ℝ 1 1 := setting.modelAt tall checkpoint columns

noncomputable def progress : Progress ℝ 1 1 1 := setting.progressAt tall checkpoint columns

theorem free_eq (e : Fin 1) : checkpoint.point.free[e] = Scalar.epsilon := by
  have hstart : ∀ i : Fin 1, (#v[(Scalar.epsilon : ℝ)])[i] = Scalar.epsilon := Fin.forall_fin_one.2 rfl
  exact (getElem_map _ _ e).trans (hstart _)

theorem residuals_eq (i : Fin 1) : checkpoint.point.residuals[i] = Scalar.epsilon :=
  (Fin.forall_fin_one (p := fun i => (#v[(Scalar.epsilon : ℝ)])[i] = Scalar.epsilon)).2 rfl i

theorem norm_eq : checkpoint.point.norm = Scalar.epsilon := by
  change setting.normOf checkpoint.point.residuals = _
  rw [Setting.normOf_eq, euclid_one, residuals_eq, abs_of_pos epsilon_pos]

/-- The start is not on its limit, although it is within rounding of it. -/
theorem not_atLower : setting.limits.atLower 0 checkpoint.point.free[(0 : Fin 1)] = false := by
  rw [free_eq]
  exact decide_eq_false (not_le.2 epsilon_pos)

theorem not_atUpper (x : ℝ) : setting.limits.atUpper 0 x = false := rfl

theorem held_eq : setting.limits.held checkpoint.point columns = ∅ := by
  refine Finset.filter_eq_empty_iff.2 (Fin.forall_fin_one.2 fun _ => ?_)
  simp [StepLimits.pointsOutward, not_atLower, not_atUpper]

theorem euclid_column (e : Fin 1) : euclid (columns.column e) = 1 := by
  rw [euclid_one, Mat.getElem_column, columns, Mat.getElem_ofFn, abs_one]

theorem radius_eq : progress.region.radius = 100 * Scalar.epsilon := by
  have hradius : progress.region.radius = _ :=
    Setting.radius_one (StepLimits.inward_of_held held_eq 0) rfl rfl (by simp [euclid_column])
      (by simpa [free_eq] using epsilon_pos.ne')
  rw [hradius, euclid_column, free_eq, abs_of_pos epsilon_pos, one_mul]
  show (100.0 : ℝ) * _ = 100 * _
  norm_num

/-- Without limits the first step would lead to zero. -/
theorem undamped_eq (e : Fin 1) : ((model.stepModel scale).undamped model.r)[e] = Scalar.epsilon := by
  have hstep : euclid (columns.column e) ^ 2 * ((model.stepModel scale).undamped model.r)[e] =
      dot (columns.column e) checkpoint.point.residuals := Setting.undamped_one held_eq _ e
  rwa [euclid_column, one_pow, one_mul, dot_eq, Fin.sum_univ_one, Mat.getElem_column, columns,
    Mat.getElem_ofFn, one_mul, residuals_eq] at hstep

noncomputable def step : Proposal ℝ 1 := setting.propose model scale progress

theorem damped_eq : step.damped = ⟨0, (model.stepModel scale).undamped model.r, model.r⟩ := by
  have hlength (x : Vector ℝ 1) : (model.stepModel scale).scaledNorm x = _ :=
    Setting.scaledNorm_stepModel_one (StepLimits.inward_of_held held_eq 0) rfl rfl
      (by simp [euclid_column]) x
  refine StepModel.dampedStep_of_near ?_
  rw [radius_eq, hlength, euclid_column, one_mul]
  show |((model.stepModel scale).undamped model.r)[(0 : Fin 1)]| ≤ _
  rw [undamped_eq, abs_of_pos epsilon_pos]
  linarith [epsilon_pos]

theorem move_eq : step.move = setting.move checkpoint.point.free
    ((model.stepModel scale).undamped model.r) := by
  show setting.move checkpoint.point.free step.damped.x = _
  rw [damped_eq]

noncomputable def whole : Vector ℝ 1 := ((model.stepModel scale).undamped model.r).map (- ·)

theorem whole_eq (e : Fin 1) : whole[e] = -Scalar.epsilon := by
  rw [whole, getElem_map, undamped_eq]

theorem dropped_eq (e : Fin 1) :
    setting.limits.dropOutward checkpoint.point.free whole e = -Scalar.epsilon := by
  obtain rfl : e = 0 := Subsingleton.elim _ _
  unfold StepLimits.dropOutward
  rw [not_atLower, not_atUpper]
  simp [whole_eq]

/-- The cap lets through half of the step; the limit takes nothing away. -/
theorem part_eq : step.move.part = 1 / 2 := by
  have hlower : ∀ e : Fin 1, ∀ l ∈ setting.limits.lower[e], l ≤ checkpoint.point.free[e] := by
    refine Fin.forall_fin_one.2 fun l hl => ?_
    obtain rfl : (0 : ℝ) = l := Option.some.inj hl
    rw [free_eq]
    exact epsilon_pos.le
  have hupper : ∀ e : Fin 1, ∀ u ∈ setting.limits.upper[e], checkpoint.point.free[e] ≤ u :=
    Fin.forall_fin_one.2 nofun
  have hcap : ∀ e : Fin 1, setting.limits.maxStep[e] = some (Scalar.epsilon / 2) :=
    Fin.forall_fin_one.2 rfl
  -- a step of that length does not count for the limits
  have hnegligible : ∀ e : Fin 1, ¬ Scalar.epsilon < |whole[e]| := fun e => by
    rw [whole_eq, abs_neg, abs_of_pos epsilon_pos]
    exact lt_irrefl _
  have hadmits : ∀ t : ℝ, 0 < t → (|t * (setting.limits.inward checkpoint.point.free whole)[
      (0 : Fin 1)]| ≤ Scalar.epsilon / 2 ↔ t ≤ 1 / 2) := by
    intro t ht
    rw [← StepLimits.dropOutward_eq hlower hupper, dropped_eq, mul_neg, abs_neg,
      abs_of_pos (mul_pos ht epsilon_pos), div_eq_mul_one_div, mul_comm (Scalar.epsilon : ℝ),
      mul_le_mul_iff_left₀ epsilon_pos]
  rw [move_eq]
  show (setting.limits.restrict checkpoint.point.free whole).1 = 1 / 2
  refine (StepLimits.isGreatest_restrict_fst hlower hupper ?_).unique ⟨⟨⟨?_, ?_⟩, ?_⟩, ?_⟩
  · simp [hcap, epsilon_pos]
  · norm_num
  · norm_num
  · refine ⟨fun e h => absurd h (hnegligible e), fun e h => absurd h (hnegligible e), ?_⟩
    refine Fin.forall_fin_one.2 fun cap h => ?_
    obtain rfl : Scalar.epsilon / 2 = cap := Option.some.inj h
    exact (hadmits _ one_half_pos).2 le_rfl
  · rintro t ⟨ht, h⟩
    exact (hadmits t ht.1).1 (h.cap 0 _ (hcap 0))

theorem step_eq (e : Fin 1) : step.move.step[e] = -(Scalar.epsilon / 2) := by
  have hpart := part_eq
  rw [move_eq] at hpart ⊢
  rw [Setting.getElem_move_step, hpart]
  change setting.limits.dropOutward checkpoint.point.free whole e * (1 / 2) = _
  rw [dropped_eq]
  ring

theorem target_eq (e : Fin 1) : step.move.target[e] = 0 := by
  obtain rfl : e = 0 := Subsingleton.elim _ _
  rw [move_eq, Setting.getElem_move_target, ← move_eq, free_eq, step_eq]
  show StepLimits.snapToLower 0 (Scalar.epsilon + -(Scalar.epsilon / 2)) = 0
  rw [StepLimits.snapToLower, if_pos]
  rw [StepLimits.lowerThreshold_eq, StepLimits.tolerance, if_pos rfl]
  linarith [epsilon_pos]

theorem isUndamped : step.IsUndamped
    (.ofJacobian setting.limits progress.point columns le_rfl) scale := by
  have hstep : (model.stepModel scale).IsDampedStep model.r
      ⟨0, (model.stepModel scale).undamped model.r, model.r⟩ :=
    StepModel.isDampedStep_undamped
      (Linearization.distinct_ofJacobian setting.limits checkpoint.point columns le_rfl)
      (Linearization.revealsRank_ofJacobian setting.limits checkpoint.point columns le_rfl)
  refine Setting.isUndamped_propose damped_eq hstep (fun e => ?_) ?_
  · rw [undamped_eq]
    exact dropped_eq e
  · change Scalar.minNormal ≤ step.move.part
    rw [part_eq]
    exact (minNormal_le_zpow (e := -1) (by norm_num)).trans (by norm_num)

noncomputable def verdict : Verdict ℝ := setting.judge model progress.point step #v[0]

theorem gain_eq : step.gain columns = Scalar.epsilon ^ 2 := by
  have himage : ∀ i : Fin 1, (columns.toMatrix *ᵥ coords step.damped.x) i = Scalar.epsilon := by
    intro i
    rw [mulVec, dotProduct, Fin.sum_univ_one, coords_apply, damped_eq, undamped_eq,
      Mat.toMatrix_apply, columns, Mat.getElem_ofFn, one_mul]
  rw [Proposal.gain, dotProduct, Fin.sum_univ_one, himage, pow_two]

theorem predicted_eq : verdict.predicted.reduction = 3 / 4 := by
  have hreduction : verdict.predicted.reduction = _ := isUndamped.isShortened.predicted_reduction
  have hmasked : Linearization.masked setting.limits progress.point columns = columns :=
    StepLimits.masked_of_held_eq_empty held_eq
  have hnorm : progress.point.norm = Scalar.epsilon := norm_eq
  rw [hreduction, isUndamped.descent_eq, hmasked, gain_eq, part_eq, hnorm]
  rw [mul_div_assoc, div_self (pow_ne_zero 2 epsilon_pos.ne')]
  norm_num

theorem actual_eq : verdict.actual = 1 := by
  have hnorm : progress.point.norm = Scalar.epsilon := norm_eq
  have hzero : setting.normOf #v[(0 : ℝ)] = 0 := by
    rw [Setting.normOf_eq, euclid_one]
    exact abs_zero
  show TrustRegion.actualReduction progress.point.norm (setting.normOf #v[(0 : ℝ)]) = 1
  rw [hnorm, hzero, TrustRegion.actualReduction, if_pos (by simpa using epsilon_pos)]
  norm_num

theorem accepted : verdict.accepted = true := by
  have hratio : verdict.ratio = 4 / 3 := by
    show TrustRegion.gainRatio verdict.actual verdict.predicted.reduction = _
    rw [TrustRegion.gainRatio, predicted_eq, actual_eq, if_pos (by norm_num)]
    norm_num
  rw [Verdict.accepted, hratio, Verdict.acceptRatio]
  norm_num

theorem lt_cosine : setting.options.gtol < setting.cosineAt le_rfl checkpoint columns := by
  refine Setting.lt_cosineAt (e := (0 : Fin 1)) ?_ (StepLimits.inward_of_held held_eq 0)
    (Setting.normOf_eq setting _) ?_
  · show (0 : ℝ) ≤ 1e-10
    norm_num
  · rw [euclid_column, euclid_one, dot_eq, Fin.sum_univ_one, residuals_eq, Mat.getElem_column,
      columns, Mat.getElem_ofFn, mul_one, mul_one, abs_of_pos epsilon_pos]
    show (1e-10 : ℝ) * Scalar.epsilon < Scalar.epsilon
    linarith [epsilon_pos]

theorem withFree_target : setting.withFree progress.point.x step.move.target = #v[0] :=
  (Setting.withFree_one setting _ _).trans (ext_one (target_eq 0))

theorem tryStep_eq (cosine : ℝ) (j : Journal ℝ 1) : ∃ result j',
    (setting.tryStep model scale cosine progress).resume j = (.ok result, j') ∧
    result.status.isEmpty = false ∧ result.progress.point.iterations = 1 ∧
    result.progress.point.x = #v[0] := by
  obtain ⟨evaluations, j', hstep⟩ := Setting.tryStep_of_eval model scale cosine progress j
    (eval_eq (setting.applyTies (setting.withFree progress.point.x step.move.target)))
  rw [applyTies_eq, withFree_target, map_dampen] at hstep
  have hpoint : (setting.resultOf model scale cosine progress #v[0] evaluations).progress.point =
      setting.accept progress.point scale step.move.target #v[0] := if_pos accepted
  have hiterations : (setting.resultOf model scale cosine progress #v[0]
      evaluations).progress.point.iterations = 1 := congrArg Iterate.iterations hpoint
  refine ⟨_, j', hstep, ?_, hiterations, ?_⟩
  · rw [← Bool.not_eq_true]
    intro hempty
    exact (Options.of_stepStatus_isEmpty hempty).1.ne hiterations
  · rw [hpoint]
    exact (applyTies_eq _).trans withFree_target

/-- The search visits its start, and the iteration from there is its last and leads to zero. -/
theorem iteration_eq : ∃ i f i',
    (setting.startAt #v[Scalar.epsilon]).resume .empty = (.ok checkpoint.point, i) ∧
    (setting.iteration le_rfl 1 checkpoint).resume i = (.ok (.inl f), i') ∧
    f.point.iterations = 1 ∧ f.point.x = #v[0] := by
  obtain ⟨i, hp⟩ := Setting.startAt_of_eval (s := setting) (x := #v[Scalar.epsilon]) (j := .empty)
    (eval_eq _)
  rw [applyTies_eq, applyTies_eq, map_dampen] at hp
  have hjacobian : setting.jacobian (setting.applyTies checkpoint.point.x) = .ok columns := rfl
  obtain ⟨i', ha⟩ := Setting.jacobianAt_one (s := setting) (j := i) rfl hjacobian
    checkpoint.point.residuals
  obtain ⟨result, i'', hstep, hstatus, hiterations, hx⟩ :=
    tryStep_eq (setting.cosineAt le_rfl checkpoint columns) i'
  have hiteration := Setting.iteration_of_first_step (s := setting) (c := checkpoint) 0 ha lt_cosine
    one_ne_zero hstep hstatus
  exact ⟨i, _, i'', hp, hiteration, hiterations, hx⟩

end Snapped

/-- The change of the snapped parameter is within the tolerance of its limit, zero. -/
theorem capsChange_of_iteration_snapped :
    prepare Snapped.store Snapped.function Snapped.options (some #[Scalar.epsilon]) =
      .ok ⟨.analytic, #v[Scalar.epsilon], le_rfl⟩ ∧
    (Snapped.store.get (0 : Fin 1)).maxStep = some (Scalar.epsilon / 2) ∧
    0 < (Scalar.epsilon / 2 : ℝ) ∧
    ∃ i f i', Snapped.setting.Visits le_rfl 1 #v[Scalar.epsilon] Snapped.checkpoint i ∧
      (Snapped.setting.iteration le_rfl 1 Snapped.checkpoint).resume i = (.ok (.inl f), i') ∧
      StepLimits.CapsChange (some 0) none (Scalar.epsilon / 2)
        Snapped.checkpoint.point.x[(0 : Fin 1)] f.point.x[(0 : Fin 1)] := by
  obtain ⟨i, f, i', hp, hlast, -, -⟩ := Snapped.iteration_eq
  exact ⟨Snapped.prepared, rfl, half_pos epsilon_pos, i, f, i', .start hp, hlast,
    capsChange_of_iteration (d := (0 : Fin 1)) Snapped.prepared (.start hp) hlast rfl
      (half_pos epsilon_pos)⟩

/-- A single accepted step can change a parameter by twice its cap: from within rounding of zero, the
lower limit, it is put onto it. -/
theorem exists_change_beyond_cap : ∃ solution j,
    minimize Snapped.store Snapped.function Snapped.options (some #[Scalar.epsilon]) =
      (.ok solution, j) ∧
    solution.iterations = 1 ∧
    ∃ cap, (Snapped.store.get (0 : Fin 1)).maxStep = some cap ∧ 0 < cap ∧
      cap < |solution.parameters[(0 : Fin 1)] - Scalar.epsilon| := by
  obtain ⟨i, f, i', hp, hlast, hiterations, hx⟩ := Snapped.iteration_eq
  obtain ⟨evaluations, jacobians, j, hsearch⟩ := Setting.search_of_first Snapped.store.names hp hlast
  set solution := Snapped.setting.solutionOf Snapped.store.names Snapped.checkpoint.point.norm f
    evaluations jacobians
  have hrun : minimizeWithin 1 Snapped.store Snapped.function Snapped.options
      (some #[Scalar.epsilon]) = (.ok solution, j) := by
    rw [minimizeWithin, Snapped.prepared]
    exact hsearch
  refine ⟨solution, j, ?_, hiterations, _, rfl, half_pos epsilon_pos, ?_⟩
  · rw [← hrun]
    exact minimizeWithin_eq_of_le (by decide) (by simp [hrun])
  · show Scalar.epsilon / 2 < |f.point.x[(0 : Fin 1)] - Scalar.epsilon|
    have hzero : f.point.x[(0 : Fin 1)] = 0 := by
      rw [hx]
      rfl
    rw [hzero, zero_sub, abs_neg, abs_of_pos epsilon_pos]
    exact half_lt_self epsilon_pos

end LeastSquares
