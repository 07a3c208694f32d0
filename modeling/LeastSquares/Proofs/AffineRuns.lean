import LeastSquares.Proofs.ShortSteps

/-!
Runs on affine residuals. The linear model of such a run is exact: it gives the residuals at every
point that the limits allow, not just near by. No call of such a residual function fails, so how a
search goes on can be told from the model as well. Two ends of a search are worked out here, at a
start with hardly any slope and at a first step that is cut short.
-/

namespace LeastSquares

open Matrix

variable {n m k : ℕ}

noncomputable def affine (a : Mat ℝ m n) (b : Vector ℝ m) (x : Vector ℝ n) : Vector ℝ m :=
  Vector.ofFn fun i => ∑ j : Fin n, a[i][j] * x[j] + b[i]

/-- A residual function that is affine in `n` parameters, with its exact Jacobian. -/
structure ResidualFunction.IsAffine (function : ResidualFunction ℝ) (a : Mat ℝ function.count n)
    (b : Vector ℝ function.count) : Prop where
  eval : ∀ x : Vector ℝ n, function.eval x = .ok (affine a b x)
  hasJacobian : function.hasJacobian = true
  jacobian : ∀ x : Vector ℝ n, function.jacobian x = .ok a

noncomputable def ResidualFunction.ofAffine (a : Mat ℝ m n) (b : Vector ℝ m) :
    ResidualFunction ℝ where
  count := m
  eval {l} x :=
    if h : l = n then .ok (affine a b (x.cast h)) else .error (.sizes (.parameterValues n l))
  hasJacobian := true
  jacobian {l} _ := if h : l = n then .ok (h ▸ a) else .error (.sizes (.parameterValues n l))

theorem ResidualFunction.isAffine_ofAffine (a : Mat ℝ m n) (b : Vector ℝ m) :
    (ofAffine a b).IsAffine a b :=
  ⟨fun _ => dif_pos rfl, rfl, fun _ => dif_pos rfl⟩

namespace Store

variable {store : Store ℝ} {start x y : Vector ℝ store.size}

/-! ### Displacements -/

/-- The points a fit may end at: within the limits, with the fixed parameters where they started. -/
def Feasible (store : Store ℝ) (start y : Vector ℝ store.size) : Prop :=
  store.Holds start y ∧ store.Within y

noncomputable def displacement (store : Store ℝ) (x y : Vector ℝ store.size)
    (c : Fin store.free.size) : ℝ :=
  y[store.freePlaces[c]] - x[store.freePlaces[c]]

noncomputable def freeColumns (store : Store ℝ) (a : Mat ℝ m store.size) :
    Mat ℝ m store.free.size :=
  Mat.ofFn fun i c => a[i][store.freePlaces[c]]

theorem column_freeColumns (a : Mat ℝ m store.size) (c : Fin store.free.size) :
    (store.freeColumns a).column c = a.column store.freePlaces[c] := by
  refine ext_getElem fun i => ?_
  rw [Mat.getElem_column, Mat.getElem_column, freeColumns, Mat.getElem_ofFn]

theorem sum_freePlaces {g : Fin store.size → ℝ} (hg : ∀ i, (store.get i).isFree = false → g i = 0) :
    ∑ i, g i = ∑ c : Fin store.free.size, g store.freePlaces[c] := by
  have hinjective : Function.Injective fun c : Fin store.free.size => store.freePlaces[c] :=
    store.distinct_freePlaces
  rw [← Finset.sum_image (f := g) (s := Finset.univ) hinjective.injOn]
  refine (Finset.sum_subset (Finset.subset_univ _) fun i _ hi => hg i ?_).symm
  rw [← Bool.not_eq_true]
  intro hfree
  obtain ⟨c, rfl⟩ := store.exists_freePlaces hfree
  exact hi (Finset.mem_image_of_mem _ (Finset.mem_univ c))

theorem eq_of_feasible (huntied : ∀ i, (store.get i).tie = none) (hx : store.Feasible start x)
    (hy : store.Feasible start y) {i : Fin store.size} (hi : (store.get i).isFree = false) :
    y[i] = x[i] := by
  have hfixed : (store.get i).isFixed = true := by
    by_contra hnot
    rw [Bool.not_eq_true] at hnot
    rw [isFree_eq_true.2 ⟨hnot, huntied i⟩] at hi
    cases hi
  rw [hx.1.fixed i (huntied i) hfixed, hy.1.fixed i (huntied i) hfixed]

theorem coords_affine (a : Mat ℝ m store.size) (b : Vector ℝ m)
    (h : ∀ i, (store.get i).isFree = false → y[i] = x[i]) :
    coords (affine a b y) =
      coords (affine a b x) + (store.freeColumns a).toMatrix *ᵥ store.displacement x y := by
  ext l
  have hsum : ∑ i : Fin store.size, a[l][i] * (y[i] - x[i]) =
      ((store.freeColumns a).toMatrix *ᵥ store.displacement x y) l := by
    rw [sum_freePlaces fun i hi => by rw [h i hi, sub_self, mul_zero]]
    simp only [mulVec, dotProduct, Mat.toMatrix_apply, freeColumns, Mat.getElem_ofFn, displacement]
  rw [Pi.add_apply, ← hsum, coords_apply, coords_apply, affine, affine, getElem_ofFn, getElem_ofFn]
  simp only [mul_sub, Finset.sum_sub_distrib]
  ring

theorem coords_affine_overwrite (a : Mat ℝ m store.size) (b : Vector ℝ m)
    {step target : Vector ℝ store.free.size}
    (htarget : ∀ e : Fin store.free.size, target[e] = x[store.freePlaces[e]] + step[e]) :
    coords (affine a b (overwrite x store.freePlaces target)) =
      coords (affine a b x) + (store.freeColumns a).toMatrix *ᵥ coords step := by
  have hstep : store.displacement x (overwrite x store.freePlaces target) = coords step := by
    ext e
    rw [displacement, getElem_overwrite_place store.distinct_freePlaces, htarget,
      add_sub_cancel_left, coords_apply]
  rw [← hstep]
  refine coords_affine a b fun i hi => getElem_overwrite_of_forall_ne ?_ _ _
  rintro e rfl
  exact absurd ((store.isFree_freePlaces e).symm.trans hi) (by decide)

theorem allows_displacement {function : ResidualFunction ℝ} {options : Options ℝ}
    {mode : JacobianMode} {free : Vector ℝ store.free.size} (hx : store.Within x)
    (hfree : ∀ c : Fin store.free.size, free[c] = x[store.freePlaces[c]]) (hy : store.Within y) :
    (Setting.ofStore store function options mode).limits.Allows free (store.displacement x y) := by
  intro c
  have hcontains := (hy _ (isFree_eq_true.1 (store.isFree_freePlaces c)).2).2
  simp only [Bounds.contains, Bool.and_eq_true] at hcontains
  rw [atLower_iff hx (hfree c), atUpper_iff hx (hfree c), displacement]
  refine ⟨fun hlower => ?_, fun hupper => ?_⟩
  · rw [hlower, Option.all_some, decide_eq_true_eq] at hcontains
    exact sub_nonneg.2 hcontains.1.2
  · rw [hupper, Option.all_some, decide_eq_true_eq] at hcontains
    exact sub_nonpos.2 hcontains.2

end Store

/-! ### Runs -/

section Runs

variable {store : Store ℝ} {function : ResidualFunction ℝ} {a : Mat ℝ function.count store.size}
  {b : Vector ℝ function.count} {initial : Option (Array ℝ)} {start : Start store function}
  {trials : ℕ}

theorem applyTies_of_untied (huntied : ∀ i, (store.get i).tie = none) (x : Vector ℝ store.size) :
    store.applyTies x = x :=
  ext_getElem fun i => store.getElem_applyTies_of_untied x (huntied i)

theorem dampen_default {mode : JacobianMode} (r : ℝ) :
    (Setting.ofStore store function .default mode).dampen r = r :=
  Setting.dampen_eq rfl r

theorem mode_of_prepare (hfunction : function.hasJacobian = true)
    (hstart : prepare store function .default initial = .ok start) : start.mode = .analytic := by
  obtain ⟨-, -, -, -, hmode⟩ := prepare_ok hstart
  exact Except.ok.inj (hmode.symm.trans (mode_default hfunction))

theorem jacobianAt_affine (hfunction : function.IsAffine a b)
    (hstart : prepare store function .default initial = .ok start) {x : Vector ℝ store.size}
    {fx : Vector ℝ function.count} {jacobian : Mat ℝ function.count store.free.size}
    {j j' : Journal ℝ store.size}
    (h : ((Setting.ofStore store function .default start.mode).jacobianAt x fx).resume j =
      (.ok jacobian, j')) : jacobian = store.freeColumns a := by
  have hmode := mode_of_prepare hfunction.hasJacobian hstart
  obtain ⟨full, hfull, rfl⟩ := Setting.jacobianAt_analytic_ok hmode h
  cases hfull.symm.trans (hfunction.jacobian _)
  rfl

theorem exists_jacobianAt_affine (hfunction : function.IsAffine a b) (x : Vector ℝ store.size)
    (fx : Vector ℝ function.count) (j : Journal ℝ store.size) :
    ∃ i, ((Setting.ofStore store function .default .analytic).jacobianAt x fx).resume j =
      (.ok (store.freeColumns a), i) :=
  Setting.jacobianAt_of_analytic rfl (hfunction.jacobian _) fx

section Affine

theorem map_dampen_default {mode : JacobianMode} (r : Vector ℝ function.count) :
    r.map (Setting.ofStore store function .default mode).dampen = r :=
  Setting.map_dampen_eq rfl r

variable (huntied : ∀ i, (store.get i).tie = none) (hfunction : function.IsAffine a b)

include huntied hfunction

theorem residualsAt_affine {mode : JacobianMode} {purpose : Purpose} {x : Vector ℝ store.size}
    {r : Vector ℝ function.count} {j j' : Journal ℝ store.size}
    (h : ((Setting.ofStore store function .default mode).residualsAt purpose x).resume j =
      (.ok r, j')) : r = affine a b x := by
  obtain ⟨f, hf, rfl, -, -⟩ := Setting.residualsAt_ok.1 h
  change function.eval (store.applyTies x) = .ok f at hf
  rw [applyTies_of_untied huntied, hfunction.eval] at hf
  cases hf
  exact map_dampen_default _

theorem residuals_of_visits {mode : JacobianMode} {tall : store.free.size ≤ function.count}
    {x : Vector ℝ store.size} {c : Checkpoint ℝ store.size function.count store.free.size}
    {j : Journal ℝ store.size}
    (h : (Setting.ofStore store function .default mode).Visits tall trials x c j) :
    c.point.residuals = affine a b c.point.x := by
  have heval := Setting.eval_of_visits (applyTies_of_untied huntied) dampen_default h
  exact Except.ok.inj (heval.symm.trans (hfunction.eval c.point.x))

theorem startAt_affine (mode : JacobianMode) (x : Vector ℝ store.size) :
    ∃ j, ((Setting.ofStore store function .default mode).startAt x).resume .empty =
      (.ok ⟨x, (Setting.ofStore store function .default mode).freePart x, affine a b x,
        euclid (affine a b x), 0, 0⟩, j) := by
  obtain ⟨j, h⟩ := Setting.startAt_of_eval (s := Setting.ofStore store function .default mode)
    (x := x) (j := .empty) (hfunction.eval _)
  have hties : (Setting.ofStore store function .default mode).applyTies x = x :=
    applyTies_of_untied huntied x
  rw [hties, hties, map_dampen_default, Setting.normOf_eq] at h
  exact ⟨j, h⟩

theorem tryStep_affine (mode : JacobianMode) (l : Linearization ℝ function.count store.free.size)
    (scale : Vector ℝ store.free.size) (cosine : ℝ)
    (p : Progress ℝ store.size function.count store.free.size) (j : Journal ℝ store.size) :
    ∃ evaluations j',
      ((Setting.ofStore store function .default mode).tryStep l scale cosine p).resume j =
        (.ok ((Setting.ofStore store function .default mode).resultOf l scale cosine p
          (affine a b ((Setting.ofStore store function .default mode).withFree p.point.x
            ((Setting.ofStore store function .default mode).propose l scale p).move.target))
          evaluations), j') := by
  obtain ⟨evaluations, j', h⟩ := Setting.tryStep_of_eval l scale cosine p j
    (s := Setting.ofStore store function .default mode) (hfunction.eval _)
  have hties : ∀ x, (Setting.ofStore store function .default mode).applyTies x = x :=
    applyTies_of_untied huntied
  rw [hties, map_dampen_default] at h
  exact ⟨evaluations, j', h⟩

variable (hstart : prepare store function .default initial = .ok start)

include hstart

/-- Wherever a search is, the linear model there is exact. -/
theorem model_of_visits {c : Checkpoint ℝ store.size function.count store.free.size}
    {jacobian : Mat ℝ function.count store.free.size} {j i i' : Journal ℝ store.size}
    (h : (Setting.ofStore store function .default start.mode).Visits start.tall trials start.x c j)
    (hjacobian : ((Setting.ofStore store function .default start.mode).jacobianAt c.point.x
      c.point.residuals).resume i = (.ok jacobian, i'))
    {y : Vector ℝ store.size} (hy : store.Feasible start.x y) :
    (Setting.ofStore store function .default start.mode).limits.Allows c.point.free
        (store.displacement c.point.x y) ∧
      coords (affine a b y) =
        coords c.point.residuals + jacobian.toMatrix *ᵥ store.displacement c.point.x y := by
  have hx := constraints_of_visits hstart h
  refine ⟨Store.allows_displacement hx.2 (Store.free_eq_of_visits h) hy.2, ?_⟩
  rw [residuals_of_visits huntied hfunction h,
    jacobianAt_affine hfunction hstart hjacobian]
  exact Store.coords_affine a b fun i hi => Store.eq_of_feasible huntied hx hy hi

end Affine

/-! ### Searches that end at once -/

noncomputable def firstPoint (store : Store ℝ) (function : ResidualFunction ℝ)
    (a : Mat ℝ function.count store.size) (b : Vector ℝ function.count) (x : Vector ℝ store.size) :
    Iterate ℝ store.size function.count store.free.size :=
  ⟨x, (Setting.ofStore store function .default .analytic).freePart x, affine a b x,
    euclid (affine a b x), 0, 0⟩

noncomputable def firstProposal (store : Store ℝ) (function : ResidualFunction ℝ)
    (a : Mat ℝ function.count store.size) (b : Vector ℝ function.count)
    (tall : store.free.size ≤ function.count) (x : Vector ℝ store.size) :
    Proposal ℝ store.free.size :=
  let s := Setting.ofStore store function .default .analytic
  let c := s.firstCheckpoint (firstPoint store function a b x)
  let jacobian := store.freeColumns a
  s.propose (s.modelAt tall c jacobian) (s.scaleAt tall c jacobian) (s.progressAt tall c jacobian)

noncomputable def firstScale (store : Store ℝ) (function : ResidualFunction ℝ)
    (a : Mat ℝ function.count store.size) (b : Vector ℝ function.count)
    (tall : store.free.size ≤ function.count) (x : Vector ℝ store.size) :
    Vector ℝ store.free.size :=
  let s := Setting.ofStore store function .default .analytic
  s.scaleAt tall (s.firstCheckpoint (firstPoint store function a b x)) (store.freeColumns a)

section Ends

variable (huntied : ∀ i, (store.get i).tie = none) (hfunction : function.IsAffine a b)

include huntied hfunction

/-- A search that starts where no slope counts stays there. -/
theorem search_of_flat (tall : store.free.size ≤ function.count) (trials : ℕ)
    {x : Vector ℝ store.size}
    (hflat : ∀ i, |dot (affine a b x) (a.column i)| ≤
      1e-10 * euclid (a.column i) * euclid (affine a b x)) :
    ∃ solution j, ((Setting.ofStore store function .default .analytic).search tall trials store.names
        x).resume .empty = (.ok solution, j) ∧
      solution.status.contains .gtolConverged = true ∧
      solution.chiSquare = euclid (affine a b x) ^ 2 ∧
      solution.startChiSquare = euclid (affine a b x) ^ 2 := by
  have hstationary : ∀ d, (Setting.ofStore store function .default .analytic).limits.IsStationaryAt
      (firstPoint store function a b x) (store.freeColumns a) 1e-10 d := by
    intro d
    refine .inr (.inr (.inr ?_))
    rw [Store.column_freeColumns]
    exact hflat store.freePlaces[d]
  obtain ⟨j, hp⟩ := startAt_affine huntied hfunction .analytic x
  obtain ⟨i, ha⟩ := exists_jacobianAt_affine hfunction x (affine a b x) j
  have htolerance : (0 : ℝ) ≤ 1e-10 := by norm_num
  obtain ⟨f, v, evaluations, jacobians, j', hsearch, hpoint, hstatus⟩ :=
    Setting.search_of_stationary store.names tall trials hp ha rfl htolerance hstationary
  have hmeasured : f.point.norm = euclid f.point.residuals := by rw [hpoint]
  refine ⟨_, j', hsearch, hstatus, ?_, (pow_two _).symm⟩
  rw [Setting.chiSquare_solutionOf hmeasured, hpoint]

/-- A search whose first step gives a reason to stop ends with it. -/
theorem search_of_first_step (tall : store.free.size ≤ function.count) (trials : ℕ)
    {x : Vector ℝ store.size} {P : TrialResult ℝ store.size function.count store.free.size → Prop} :
    let s := Setting.ofStore store function .default .analytic
    let c := s.firstCheckpoint (firstPoint store function a b x)
    let l := s.modelAt tall c (store.freeColumns a)
    1e-10 < s.cosineAt tall c (store.freeColumns a) →
    (∀ i, ∃ result i', (s.tryStep l (s.scaleAt tall c (store.freeColumns a))
        (s.cosineAt tall c (store.freeColumns a))
        (s.progressAt tall c (store.freeColumns a))).resume i = (.ok result, i') ∧
      result.status.isEmpty = false ∧ P result) →
    ∃ result, P result ∧
      let f := ⟨result.progress.point, l, result.progress.workspace, result.status⟩
      (∃ j i i', s.Visits tall (trials + 1) x c j ∧
        (s.jacobianAt c.point.x c.point.residuals).resume j = (.ok (store.freeColumns a), i) ∧
        (s.iteration tall (trials + 1) c).resume j = (.ok (.inl f), i')) ∧
      ∃ evaluations jacobians j, (s.search tall (trials + 1) store.names x).resume .empty =
        (.ok (s.solutionOf store.names (euclid (affine a b x)) f evaluations jacobians), j) := by
  intro s c l hgradient hstep
  obtain ⟨j, hp⟩ := startAt_affine huntied hfunction .analytic x
  obtain ⟨i, ha⟩ := exists_jacobianAt_affine hfunction x (affine a b x) j
  obtain ⟨result, i', hresult, hstatus, hP⟩ := hstep i
  have hlimit : (Options.default : Options ℝ).maxIterations ≠ 0 := by
    simp [Options.default]
  have hiteration := Setting.iteration_of_first_step (s := s) (c := c) trials ha hgradient hlimit
    hresult hstatus
  exact ⟨result, hP, ⟨j, i, i', .start hp, ha, hiteration⟩,
    Setting.search_of_first store.names hp hiteration⟩

end Ends

section Cut

variable (store function a b) (tall : store.free.size ≤ function.count) (x : Vector ℝ store.size)

/-- A first step that a limit or a cap cuts to less than half of the tolerance, and that is
otherwise taken as the linear model gives it. -/
structure CutsFirstStep : Prop where
  slope : 1e-10 < (Linearization.ofJacobian
    (Setting.ofStore store function .default .analytic).limits (firstPoint store function a b x)
    (store.freeColumns a) tall).gradientCosine (euclid (affine a b x))
  undamped : (firstProposal store function a b tall x).IsUndamped
    (.ofJacobian (Setting.ofStore store function .default .analytic).limits
      (firstPoint store function a b x) (store.freeColumns a) tall)
    (firstScale store function a b tall x)
  gain : 0 < (firstProposal store function a b tall x).gain (store.freeColumns a)
  held : (Setting.ofStore store function .default .analytic).limits.held
    (firstPoint store function a b x) (store.freeColumns a) = ∅
  target : ∀ e : Fin store.free.size, (firstProposal store function a b tall x).move.target[e] =
    x[store.freePlaces[e]] + (firstProposal store function a b tall x).move.step[e]
  cut : 2 * (firstProposal store function a b tall x).move.part ≤ 1e-10

variable {store function a b tall x} (trials : ℕ)
  (huntied : ∀ i, (store.get i).tie = none) (hfunction : function.IsAffine a b)
  (h : CutsFirstStep store function a b tall x)

include huntied hfunction h

omit huntied hfunction in
theorem CutsFirstStep.coords_target {q : Iterate ℝ store.size function.count store.free.size} {v : ℝ}
    (hq : q = { firstPoint store function a b x with scaledNorm := v }) :
    let s := Setting.ofStore store function .default .analytic
    let t := firstProposal store function a b tall x
    coords (affine a b (s.withFree q.x t.move.target)) = coords q.residuals +
      (Linearization.masked s.limits q (store.freeColumns a)).toMatrix *ᵥ coords t.move.step := by
  intro s t
  have hmasked : Linearization.masked s.limits q (store.freeColumns a) = store.freeColumns a := by
    rw [hq]
    exact StepLimits.masked_of_held_eq_empty h.held
  rw [hmasked, hq]
  exact Store.coords_affine_overwrite a b h.target

theorem CutsFirstStep.tryStep {q : Progress ℝ store.size function.count store.free.size} {v : ℝ}
    (hq : q.point = { firstPoint store function a b x with scaledNorm := v })
    (hpropose : (Setting.ofStore store function .default .analytic).propose
      (.ofJacobian (Setting.ofStore store function .default .analytic).limits q.point
        (store.freeColumns a) tall) (firstScale store function a b tall x) q =
      firstProposal store function a b tall x)
    (cosine : ℝ) (j : Journal ℝ store.size) :
    ∃ result j', ((Setting.ofStore store function .default .analytic).tryStep
        (.ofJacobian (Setting.ofStore store function .default .analytic).limits q.point
          (store.freeColumns a) tall) (firstScale store function a b tall x) cosine q).resume j =
        (.ok result, j') ∧
      result.status.contains .ftolConverged = true ∧
      ((firstProposal store function a b tall x).length / 0.5 ≤
          1e-10 * (Setting.ofStore store function .default .analytic).scaledNorm
            (firstScale store function a b tall x)
            (firstProposal store function a b tall x).move.target →
        result.status.contains .xtolConverged = true) ∧
      result.progress.point.norm = euclid result.progress.point.residuals ∧
      (1 - 1e-10) * euclid (affine a b x) ^ 2 ≤ result.progress.point.norm ^ 2 := by
  set s := Setting.ofStore store function .default .analytic
  set t := firstProposal store function a b tall x
  set r := affine a b (s.withFree q.point.x t.move.target)
  have hresiduals : q.point.residuals = affine a b x := by rw [hq]; rfl
  have hnorm : q.point.norm = euclid q.point.residuals := by rw [hq]; rfl
  have hundamped : t.IsUndamped (.ofJacobian s.limits q.point (store.freeColumns a) tall)
      (firstScale store function a b tall x) := by
    rw [hq]
    exact h.undamped
  have hgain : 0 < t.gain (Linearization.masked s.limits q.point (store.freeColumns a)) := by
    rw [hq]
    exact h.gain.trans_eq (congrArg t.gain (StepLimits.masked_of_held_eq_empty h.held).symm)
  have hexact : coords r = _ := h.coords_target hq
  obtain ⟨evaluations, j', hstep⟩ := tryStep_affine huntied hfunction .analytic
    (.ofJacobian s.limits q.point (store.freeColumns a) tall) (firstScale store function a b tall x)
    cosine q j
  rw [hpropose] at hstep
  have haccepted : (s.judge (.ofJacobian s.limits q.point (store.freeColumns a) tall) q.point
      (s.propose (.ofJacobian s.limits q.point (store.freeColumns a) tall)
        (firstScale store function a b tall x) q) r).accepted = true := by
    rw [hpropose]
    exact hundamped.isShortened.accepted hnorm (hundamped.descent_pos hgain) hexact
  refine ⟨_, j', hstep, ?_, ?_, ((Setting.tryStep_descends hstep).1 haccepted).1, ?_⟩
  · exact Setting.contains_ftolConverged_of_cut (s := s) cosine evaluations hpropose hnorm hexact
      hundamped hgain h.cut
  · exact Setting.contains_xtolConverged_of_short (s := s) cosine evaluations hpropose hnorm hexact
      hundamped hgain
  · have hpoint : (s.resultOf (.ofJacobian s.limits q.point (store.freeColumns a) tall)
        (firstScale store function a b tall x) cosine q r evaluations).progress.point =
          s.accept q.point (firstScale store function a b tall x) _ r :=
      if_pos haccepted
    have hsquares := hundamped.isShortened.squares_eq hexact
    have hsmall := hundamped.descent_le_of_cut h.cut
    rw [hresiduals] at hsquares hsmall
    rw [hpoint]
    change _ ≤ (s.normOf r) ^ 2
    rw [Setting.normOf_eq, hsquares]
    linarith

/-- A search whose first step is cut short ends with it. -/
theorem CutsFirstStep.search :
    ∃ solution j, ((Setting.ofStore store function .default .analytic).search tall (trials + 1)
        store.names x).resume .empty = (.ok solution, j) ∧
      solution.status.contains .ftolConverged = true ∧
      ((firstProposal store function a b tall x).length / 0.5 ≤
          1e-10 * (Setting.ofStore store function .default .analytic).scaledNorm
            (firstScale store function a b tall x)
            (firstProposal store function a b tall x).move.target →
        solution.status.contains .xtolConverged = true) ∧
      solution.startChiSquare = euclid (affine a b x) ^ 2 ∧
      (1 - 1e-10) * euclid (affine a b x) ^ 2 ≤ solution.chiSquare := by
  set s := Setting.ofStore store function .default .analytic
  set c := s.firstCheckpoint (firstPoint store function a b x)
  set l := s.modelAt tall c (store.freeColumns a)
  obtain ⟨v, hpoint⟩ := Setting.rescale_point (s := s) l c
  have hl : l = .ofJacobian s.limits (s.progressAt tall c (store.freeColumns a)).point
      (store.freeColumns a) tall := by
    change _ = Linearization.ofJacobian s.limits (s.rescale l c).point (store.freeColumns a) tall
    rw [hpoint]
    rfl
  have hgradient : 1e-10 < s.cosineAt tall c (store.freeColumns a) := by
    change 1e-10 < l.gradientCosine (s.rescale l c).point.norm
    rw [hpoint]
    exact h.slope
  have hstep := h.tryStep huntied hfunction (q := s.progressAt tall c (store.freeColumns a))
    hpoint (by rw [← hl]; rfl) (s.cosineAt tall c (store.freeColumns a))
  rw [← hl] at hstep
  obtain ⟨result, ⟨hftol, hxtol, hmeasured, hsquares⟩, -, _, _, j', hsearch⟩ :=
    search_of_first_step huntied hfunction tall trials hgradient fun i =>
      (hstep i).imp fun _ => .imp fun _ h => ⟨h.1, Status.isEmpty_eq_false h.2.1, h.2⟩
  refine ⟨_, j', hsearch, hftol, hxtol, (pow_two _).symm, ?_⟩
  rw [Setting.chiSquare_solutionOf hmeasured]
  exact hsquares

end Cut

end Runs

end LeastSquares
