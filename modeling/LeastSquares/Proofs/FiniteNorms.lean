import LeastSquares.Problem
import LeastSquares.Proofs.DoubleQuotients

/-!
Residual norms that are not finite. No test of a search asks whether the norm of the residuals is an
infinity or NaN, but two of them answer. A gain ratio that such a norm goes into is not positive, so
no step is accepted onto it. The gradient test divides by the norm, which leaves zeros and NaN, and
its maximum drops NaN: a search that starts with such a norm ends at once, and reports convergence.
-/

open Float.Model Float.Model.UnpackedFloat

namespace LeastSquares

open Double

/-! ### Norms -/

theorem isFinite_foldl_add {l : List Float} {a : Float}
    (h : Scalar.isFinite a = false ∨ ∃ x ∈ l, Scalar.isFinite x = false) :
    Scalar.isFinite (l.foldl (· + ·) a) = false := by
  induction l generalizing a with
  | nil => exact h.resolve_right (by simp)
  | cons y l ih =>
      refine ih ?_
      rcases h with ha | ⟨x, hx, hinfinite⟩
      · exact .inl (isFinite_add_eq_false (.inl ha))
      · rcases List.mem_cons.1 hx with rfl | hx
        · exact .inl (isFinite_add_eq_false (.inr hinfinite))
        · exact .inr ⟨x, hx, hinfinite⟩

namespace Norm

theorem isFinite_fast_eq_false {v : List Float} (h : ∃ x ∈ v, Scalar.isFinite x = false) :
    Scalar.isFinite (fast v) = false := by
  obtain ⟨x, hx, hinfinite⟩ := h
  have hsquare : Scalar.isFinite (x * x) = false := isFinite_mul_eq_false (.inl hinfinite)
  refine isFinite_sqrt_eq_false ?_
  cases v with
  | nil => cases hx
  | cons y v =>
      refine isFinite_foldl_add ?_
      rcases List.mem_cons.1 hx with rfl | hx
      · exact .inl hsquare
      · exact .inr ⟨x * x, List.mem_map_of_mem hx, hsquare⟩

namespace Sums

/-- The sums after a component that is not finite: the sum of the large components is not finite, or
it is one, in units of infinity. -/
def Overflowed (s : Sums Float) : Prop :=
  Scalar.isFinite s.large = false ∨
    unpacked s.largeMax = .infinity .positive ∧ unpacked s.large = unpacked 1

variable {s : Sums Float} {limit v : Float}

theorem Overflowed.add (h : s.Overflowed) : (s.add limit v).Overflowed := by
  unfold Sums.add
  dsimp only
  split_ifs with hmiddle hsmall hmax hzero hlarge
  -- only the last two cases, of a large component, touch the sum that overflowed
  · exact h
  · exact h
  · exact h
  · exact h
  · rcases h with hinfinite | ⟨hmax, -⟩
    · exact .inl (isFinite_add_eq_false (.inr (isFinite_mul_eq_false (.inl
        (isFinite_mul_eq_false (.inl hinfinite))))))
    · exact absurd hlarge (not_lt_of_infinity hmax _)
  · rcases h with hinfinite | ⟨hmax, hone⟩
    · exact .inl (isFinite_add_eq_false (.inl hinfinite))
    · -- in units of infinity a further component counts for nothing
      have hunit : Scalar.isFinite s.largeMax = false := by
        rw [isFinite_iff, hmax]
        rfl
      have hvanishes := vanishes_mul (Scalar.abs v / s.largeMax)
        (vanishes_div_of_infinite (Scalar.abs v) hunit)
      rcases one_add_of_vanishes hone hvanishes with hlarge | hlarge
      · exact .inr ⟨hmax, hlarge⟩
      · exact .inl hlarge

/-- A component that is not finite overflows the sums, whatever they are. -/
theorem overflowed_add (s : Sums Float) (limit : Float) (hv : Scalar.isFinite v = false) :
    (s.add limit v).Overflowed := by
  have hsmallest : Scalar.isFinite (smallest : Float) = true := by decide +kernel
  unfold Sums.add
  dsimp only
  rw [if_neg fun h => not_abs_lt hv _ h.2, if_neg (not_abs_le hv hsmallest)]
  -- neither middle nor small: an infinity becomes the unit, NaN goes into the sum by its ratio
  split_ifs with hlarge
  · have hunit : unpacked (Scalar.abs v) = .infinity .positive :=
      (unpacked_abs_of_infinite hv).resolve_right fun hnan => not_lt_of_notANumber _ hnan hlarge
    have hvanishes := vanishes_mul (s.large * (s.largeMax / Scalar.abs v))
      (vanishes_div_of_infinite s.largeMax (isFinite_abs_eq_false hv))
    rcases one_add_of_vanishes rfl hvanishes with hone | hinfinite
    · exact .inr ⟨hunit, hone⟩
    · exact .inl hinfinite
  · have hratio := isFinite_div_eq_false (isFinite_abs_eq_false hv) s.largeMax
    exact .inl (isFinite_add_eq_false (.inr (isFinite_mul_eq_false (.inl hratio))))

theorem Overflowed.foldl {l : List Float} (h : s.Overflowed) :
    (l.foldl (Sums.add limit) s).Overflowed := by
  induction l generalizing s with
  | nil => exact h
  | cons v l ih => exact ih h.add

theorem overflowed_foldl {l : List Float} (h : ∃ x ∈ l, Scalar.isFinite x = false) :
    (l.foldl (add limit) s).Overflowed := by
  induction l generalizing s with
  | nil => simp at h
  | cons v l ih =>
      obtain ⟨x, hx, hinfinite⟩ := h
      rcases List.mem_cons.1 hx with rfl | hx
      · exact (overflowed_add s limit hinfinite).foldl
      · exact ih ⟨x, hx, hinfinite⟩

theorem Overflowed.norm (h : s.Overflowed) : Scalar.isFinite s.norm = false := by
  have hlarge : (s.large != 0) = true := by
    rcases h with hinfinite | ⟨-, hone⟩
    · exact bne_zero_of_infinite hinfinite
    · rw [bne_zero_iff, hone, unpacked_one]
      simp
  unfold Sums.norm
  rw [if_pos hlarge]
  rcases h with hinfinite | ⟨hmax, -⟩
  · have hsum := isFinite_add_eq_false (b := s.middle / s.largeMax / s.largeMax) (.inl hinfinite)
    exact isFinite_mul_eq_false (.inr (isFinite_sqrt_eq_false hsum))
  · refine isFinite_mul_eq_false (.inl ?_)
    rw [isFinite_iff, hmax]
    rfl

end Sums

/-- The careful norm does not hide a component either. -/
theorem isFinite_careful_eq_false {v : List Float} (h : ∃ x ∈ v, Scalar.isFinite x = false) :
    Scalar.isFinite (careful v) = false := by
  have hne : v.isEmpty = false := by
    cases v with
    | nil => simp at h
    | cons => rfl
  unfold careful
  rw [hne]
  exact (Sums.overflowed_foldl h).norm

end Norm

theorem NormMethod.isFinite_norm_eq_false (method : NormMethod) {v : List Float}
    (h : ∃ x ∈ v, Scalar.isFinite x = false) : Scalar.isFinite (method.norm v) = false := by
  cases method with
  | careful => exact Norm.isFinite_careful_eq_false h
  | fast => exact Norm.isFinite_fast_eq_false h

/-! ### The gradient test -/

theorem vanishes_foldl_add {l : List Float} {a : Float} (ha : Vanishes (unpacked a))
    (h : ∀ x ∈ l, Vanishes (unpacked x)) : Vanishes (unpacked (l.foldl (· + ·) a)) := by
  induction l generalizing a with
  | nil => exact ha
  | cons x l ih =>
      rw [List.forall_mem_cons] at h
      exact ih (vanishes_add ha h.1) h.2

theorem vanishes_sum {l : List Float} (h : ∀ x ∈ l, Vanishes (unpacked x)) :
    Vanishes (unpacked (Scalar.sum l)) := by
  cases l with
  | nil => trivial
  | cons x l =>
      rw [List.forall_mem_cons] at h
      exact vanishes_foldl_add h.1 h.2

theorem max_zero_of_vanishes {a : Float} (h : Vanishes (unpacked a)) : Scalar.max 0 a = 0 := by
  have hlt : ¬ (0 : Float) < a := not_lt_of_hasSign trivial (h.hasSign _)
  change (if (decide ((0 : Float) < a) || (0 : Float) != 0) = true then a else 0) = 0
  rw [decide_eq_false hlt]
  rfl

namespace Linearization

variable {m k : ℕ} {norm : Float}

theorem vanishes_cosineAt (l : Linearization Float m k) (h : Scalar.isFinite norm = false)
    (j : Fin k) : Vanishes (unpacked (l.cosineAt norm j)) := by
  refine vanishes_abs (vanishes_div (vanishes_sum fun x hx => ?_) _)
  obtain ⟨i, -, rfl⟩ := List.mem_map.1 hx
  exact vanishes_mul _ (vanishes_div_of_infinite _ h)

/-- Where the norm of the residuals is not finite, no cosine is seen. -/
theorem gradientCosine_eq_zero (l : Linearization Float m k) (h : Scalar.isFinite norm = false) :
    l.gradientCosine norm = 0 := by
  have hfold : ∀ js : List (Fin k), js.foldl (fun largest j =>
      if l.columnNorms[l.pivot[j]] != 0 then Scalar.max largest (l.cosineAt norm j)
      else largest) 0 = 0 := by
    intro js
    induction js with
    | nil => rfl
    | cons j js ih =>
        rw [List.foldl_cons, max_zero_of_vanishes (l.vanishes_cosineAt h j), ite_self]
        exact ih
  unfold gradientCosine
  split
  · rfl
  · exact hfold _

end Linearization

/-! ### Shortening a step -/

namespace StepLimits

variable {k : ℕ} (limits : StepLimits Float k) (x step dropped : Vector Float k)

omit limits x step dropped in
theorem min_le_one {a : Float} (ha : a ≤ 1) (b : Float) : Scalar.min a b ≤ 1 := by
  change (if (decide (b < a) || a != a) = true then b else a) ≤ 1
  have hnumber : (a != a) = false := by
    have := (LimitArithmetic.isNumber_of_le ha).1
    rw [bne, show (a == a) = true from this]
    rfl
  rw [hnumber, Bool.or_false]
  split
  · next hlt => exact LimitArithmetic.le_trans (Double.le_of_lt (of_decide_eq_true hlt)) ha
  · exact ha

omit limits x step dropped in
theorem partAbove_le_one (lower : Option Float) (x step : Float) {part : Float} (h : part ≤ 1) :
    partAbove lower x step part ≤ 1 := by
  unfold partAbove
  split
  · split
    · exact min_le_one h _
    · exact h
  · exact h

omit limits x step dropped in
theorem partBelow_le_one (upper : Option Float) (x step : Float) {part : Float} (h : part ≤ 1) :
    partBelow upper x step part ≤ 1 := by
  unfold partBelow
  split
  · split
    · exact min_le_one h _
    · exact h
  · exact h

theorem foldl_partWithin_le_one (l : List (Fin k)) {part : Float} (h : part ≤ 1) :
    l.foldl (limits.partWithin x step dropped) part ≤ 1 := by
  induction l generalizing part with
  | nil => exact h
  | cons c l ih =>
      refine ih ?_
      unfold partWithin
      split
      · exact partBelow_le_one _ _ _ (partAbove_le_one _ _ _ h)
      · exact h

/-- No step is made longer; its part may be NaN, but is not above one. -/
theorem not_one_lt_part : ¬ 1 < (limits.restrict x step).1 := by
  have hone : (1 : Float) ≤ 1 := by decide
  have hpart := foldl_partWithin_le_one limits x step (Vector.ofFn (limits.dropOutward x step))
    (List.finRange k) hone
  unfold restrict
  dsimp only
  -- the caps divide the part, but only by an excess above one
  split
  · next hexcess => exact not_one_lt_div hpart hexcess
  · exact Double.not_lt_of_le hpart

end StepLimits

/-! ### One trial step -/

theorem max_minNormal_mem {part : Float} (h : ¬ 1 < part) :
    0 < Scalar.max part Scalar.minNormal ∧ Scalar.max part Scalar.minNormal ≤ (1 : Float) := by
  have hpos : (0 : Float) < Scalar.minNormal := by decide +kernel
  have hnormal : Scalar.isNumber (Scalar.minNormal : Float) = true := by decide +kernel
  change 0 < (if (decide (part < Scalar.minNormal) || part != part) = true then Scalar.minNormal
    else part) ∧ (if (decide (part < Scalar.minNormal) || part != part) = true then Scalar.minNormal
    else part) ≤ 1
  split
  · exact ⟨hpos, by decide +kernel⟩
  · next hlarge =>
    rw [Bool.or_eq_true, not_or, decide_eq_true_iff] at hlarge
    have hnumber : Scalar.isNumber part = true := by simpa [bne, Scalar.isNumber] using hlarge.2
    exact ⟨Double.lt_of_lt_of_le hpos (Double.le_of_not_lt hnumber hnormal hlarge.1),
      Double.le_of_not_lt (by decide) hnumber h⟩

/-- A norm that is not finite is no reduction, whatever the norm before. -/
theorem hasSign_actualReduction (before : Float) {after : Float}
    (h : Scalar.isFinite after = false) :
    HasSign .negative (unpacked (TrustRegion.actualReduction before after)) := by
  unfold TrustRegion.actualReduction
  split
  · exact hasSign_one_sub (hasSign_mul_self _)
      (isFinite_mul_eq_false (.inl (isFinite_div_eq_false h before)))
  · rfl

namespace Setting

variable {n m k : ℕ} {s : Setting Float n m k} {l : Linearization Float m k}
  {scale : Vector Float k} {cosine : Float}

/-- No part of a damped step is predicted to do harm, in doubles either. -/
theorem hasSign_predict (norm damping length : Float) (image : Vector Float k) {part : Float}
    (hpos : 0 < part) (hle : part ≤ 1) :
    HasSign .positive (unpacked (s.predict norm damping part length image).reduction) := by
  have hsquare : ∀ b : Float, HasSign .positive (unpacked (2.0 * b * b)) := by
    intro b
    obtain ⟨t, ht⟩ := exists_hasSign (unpacked b)
    have htwo : HasSign .positive (unpacked 2.0) := by
      rw [unpacked_two]
      rfl
    have hproduct := hasSign_mul (hasSign_mul htwo ht) ht
    rwa [positive_mul_sign, sign_mul_self] at hproduct
  exact hasSign_add (hasSign_mul (hasSign_mul_self _) (hasSign_two_div_sub_one hpos hle))
    (hasSign_div (hsquare _) (hasSign_of_pos hpos) (bne_zero_of_pos hpos))

/-- A step is accepted only onto residuals of finite norm. -/
theorem isFinite_of_accepted {point : Iterate Float n m k} {t : Proposal Float k}
    {r : Vector Float m} (hpart : ¬ 1 < t.move.part)
    (h : (s.judge l point t r).accepted = true) : Scalar.isFinite (s.normOf r) = true := by
  by_contra hinfinite
  rw [Bool.not_eq_true] at hinfinite
  obtain ⟨hpos, hle⟩ := max_minNormal_mem hpart
  have hpredicted := hasSign_predict (s := s) point.norm t.region.damping t.length
    (l.image t.damped.workspace t.move.step) hpos hle
  have hactual := hasSign_actualReduction point.norm hinfinite
  -- a quotient of these signs is not above zero, or it is NaN
  have hratio : HasSign .negative (unpacked (s.judge l point t r).ratio) := by
    simp only [judge, TrustRegion.gainRatio]
    split
    · next hne => exact hasSign_div hactual hpredicted hne
    · trivial
  have haccept : (0 : Float) < Verdict.acceptRatio := by decide +kernel
  have hlarge : Verdict.acceptRatio ≤ (s.judge l point t r).ratio := of_decide_eq_true h
  exact not_le_of_hasSign (hasSign_of_pos haccept) hratio (bne_zero_of_pos haccept) hlarge

structure Measured (s : Setting Float n m k) (p : Iterate Float n m k) : Prop where
  norm_eq : p.norm = s.normOf p.residuals
  isFinite : Scalar.isFinite p.norm = true

theorem tryStep_measured {p : Progress Float n m k} {result : TrialResult Float n m k}
    {j j' : Journal Float n} (h : (s.tryStep l scale cosine p).resume j = (.ok result, j'))
    (haccepted : result.accepted = true) : s.Measured result.progress.point := by
  obtain ⟨r, i, -, -, rfl⟩ := tryStep_ok h
  have hpart : ¬ 1 < (s.propose l scale p).move.part := StepLimits.not_one_lt_part _ _ _
  have hjudged : (s.judge l p.point (s.propose l scale p) r).accepted = true := haccepted
  simp only [resultOf, pointAfter, if_pos hjudged]
  exact ⟨rfl, isFinite_of_accepted hpart hjudged⟩

theorem preserves_measured : s.Preserves s.Measured where
  scaledNorm _ _ hp := ⟨hp.norm_eq, hp.isFinite⟩
  step {_ _ _ _ result _ _} h hp := by
    cases hresult : result.accepted with
    | true => exact tryStep_measured h hresult
    | false =>
        rw [tryStep_rejected h hresult]
        exact hp

theorem Measured.residuals {p : Iterate Float n m k} (h : s.Measured p) (i : Fin m) :
    Scalar.isFinite p.residuals[i] = true := by
  by_contra hinfinite
  rw [Bool.not_eq_true] at hinfinite
  have hnorm : Scalar.isFinite (s.normOf p.residuals) = false :=
    s.options.norm.isFinite_norm_eq_false
      ⟨_, by rw [Vector.mem_toList_iff]; exact Vector.getElem_mem i.isLt, hinfinite⟩
  rw [← h.norm_eq, h.isFinite] at hnorm
  cases hnorm

end Setting

/-! ### A whole run -/

theorem gradientStatus_zero {o : Options Float} (h : o.InRange) :
    o.gradientStatus 0 = .ofReason .gtolConverged := by
  have hgtol : Scalar.isFinite o.gtol = true ∧ ¬ o.gtol < 0 := by
    simpa [Options.isTolerance] using h.gtol
  have hle : (0 : Float) ≤ o.gtol :=
    Double.le_of_not_lt (isNumber_of_isFinite hgtol.1) (by decide) hgtol.2
  ext r
  cases r <;> simp [Options.gradientStatus, Status.ofTests, Status.ofReason, Status.insert,
    Status.empty, hle]

namespace Setting

variable {n m k : ℕ} {s : Setting Float n m k} {tall : k ≤ m} {trials : ℕ} {x : Vector Float n}

/-- An iteration from residuals whose norm is not finite is the last one. -/
theorem iteration_of_infinite (tall : k ≤ m) (trials : ℕ) (hoptions : s.options.InRange)
    {c : Checkpoint Float n m k} {a : Mat Float m k} {j i : Journal Float n}
    (hc : Scalar.isFinite c.point.norm = false)
    (ha : (s.jacobianAt c.point.x c.point.residuals).resume j = (.ok a, i)) :
    ∃ l : Linearization Float m k, ∃ scaledNorm,
      (s.iteration tall trials c).resume j =
        (.ok (.inl ⟨{ c.point with scaledNorm }, l, l.r, .ofReason .gtolConverged⟩), i) := by
  let l := Linearization.ofJacobian s.limits c.point a tall
  obtain ⟨v, hpoint⟩ := rescale_point (s := s) l c
  have hstatus : s.options.gradientStatus (l.gradientCosine (s.rescale l c).point.norm) =
      .ofReason .gtolConverged := by
    rw [hpoint, l.gradientCosine_eq_zero hc, gradientStatus_zero hoptions]
  have hend : (s.advance l trials (s.rescale l c)).resume i = _ :=
    advance_of_gradient i (by rw [hstatus]; decide)
  rw [hstatus, hpoint] at hend
  exact ⟨l, v, Run.bind_ok.2 ⟨a, i, ha, hend⟩⟩

theorem visits_of_infinite (hoptions : s.options.InRange) {p : Iterate Float n m k}
    {i : Journal Float n} (hp : (s.startAt x).resume .empty = (.ok p, i))
    (hinfinite : Scalar.isFinite p.norm = false) {c : Checkpoint Float n m k} {j : Journal Float n}
    (hc : s.Visits tall trials x c j) : c = s.firstCheckpoint p := by
  induction hc with
  | start hq =>
      cases hp.symm.trans hq
      rfl
  | next _ hstep ih =>
      -- the first iteration is the last one, so it leads to no other checkpoint
      subst ih
      obtain ⟨a, i', ha, -⟩ := iteration_ok hstep
      have hfirst : Scalar.isFinite (s.firstCheckpoint p).point.norm = false := hinfinite
      obtain ⟨_, _, hend⟩ := iteration_of_infinite tall trials hoptions hfirst ha
      cases hend.symm.trans hstep

theorem visits_measured {p : Iterate Float n m k} {i : Journal Float n}
    (hp : (s.startAt x).resume .empty = (.ok p, i)) (hfinite : Scalar.isFinite p.norm = true)
    {c : Checkpoint Float n m k} {j : Journal Float n} (hc : s.Visits tall trials x c j) :
    s.Measured c.point := by
  refine preserves_measured.visits (fun q j hq => ?_) hc
  cases hp.symm.trans hq
  obtain ⟨r, i', -, rfl⟩ := startAt_ok hp
  exact ⟨rfl, hfinite⟩

end Setting

/-- Whatever the residual function, its Jacobian and the options, a fit in doubles accepts no step
onto residuals whose norm is not finite. So when the norm of its first residuals is finite, so is
the norm that every later gradient test and gain ratio is taken with, and what it returns. When that
first norm is not finite, a solution is always one that claims convergence: the gradient test of the
first iteration passes, since its cosines are zero or NaN. -/
theorem finite_norms {store : Store Float} {function : ResidualFunction Float}
    {options : Options Float} {initial : Option (Array Float)} {start : Start store function}
    {p : Iterate Float store.size function.count store.free.size} {i : Journal Float store.size}
    (hstart : prepare store function options initial = .ok start)
    (hp : ((Setting.ofStore store function options start.mode).startAt start.x).resume .empty =
      (.ok p, i)) (trials : ℕ) :
    (∀ l scale cosine q result j j',
      ((Setting.ofStore store function options start.mode).tryStep l scale cosine q).resume j =
        (.ok result, j') →
      result.accepted = true → Scalar.isFinite result.progress.point.norm = true) ∧
    (Scalar.isFinite p.norm = true →
      (∀ c j, (Setting.ofStore store function options start.mode).Visits start.tall trials start.x
        c j → Scalar.isFinite c.point.norm = true) ∧
      ∀ solution, (minimizeWithin trials store function options initial).1 = .ok solution →
        Scalar.isFinite (options.norm.norm solution.residuals.toList) = true ∧
        ∀ e : Fin function.count, Scalar.isFinite solution.residuals[e] = true) ∧
    (Scalar.isFinite p.norm = false →
      ∀ solution, (minimizeWithin trials store function options initial).1 = .ok solution →
        solution.converged = true ∧ solution.status = .ofReason .gtolConverged ∧
        solution.iterations = 0 ∧ solution.residuals = p.residuals) := by
  refine ⟨fun _ _ _ _ _ _ _ h haccepted => (Setting.tryStep_measured h haccepted).isFinite,
    fun hfinite => ⟨fun c j hc => (Setting.visits_measured hp hfinite hc).isFinite,
      fun solution hsolution => ?_⟩, fun hinfinite solution hsolution => ?_⟩
  · obtain ⟨start', hstart', h⟩ := minimizeWithin_ok (Prod.ext hsolution rfl)
    cases hstart.symm.trans hstart'
    obtain ⟨q, i₀, c, i₁, f, i₂, -, hc, hlast, _, _, rfl⟩ := Setting.search_ok h
    have hmeasured : Setting.Measured _ f.point :=
      Setting.preserves_measured.iteration (Setting.visits_measured hp hfinite hc) hlast
    refine ⟨?_, hmeasured.residuals⟩
    rw [← hmeasured.isFinite, hmeasured.norm_eq]
    rfl
  · obtain ⟨start', hstart', h⟩ := minimizeWithin_ok (Prod.ext hsolution rfl)
    cases hstart.symm.trans hstart'
    obtain ⟨q, i₀, c, i₁, f, i₂, hq, hc, hlast, _, _, rfl⟩ := Setting.search_ok h
    have hoptions : (Setting.ofStore store function options start.mode).options.InRange :=
      Options.validate_ok.1 (prepare_ok hstart).1
    cases Setting.visits_of_infinite hoptions hp hinfinite hc
    have hfirst : Scalar.isFinite ((Setting.ofStore store function options
      start.mode).firstCheckpoint p).point.norm = false := hinfinite
    obtain ⟨a, i', ha, -⟩ := Setting.iteration_ok hlast
    obtain ⟨l, v, hend⟩ := Setting.iteration_of_infinite start.tall trials hoptions hfirst ha
    cases hend.symm.trans hlast
    obtain ⟨r, i', -, rfl⟩ := Setting.startAt_ok hp
    have hconverged : (Status.ofReason .gtolConverged).converged = true := by decide
    exact ⟨hconverged, rfl, rfl, rfl⟩

/-- Two equal residuals that are steep in one parameter, with the exact Jacobian. -/
def steep : ResidualFunction Float where
  count := 2
  eval x := .ok (Vector.replicate 2 (1e300 * Scalar.sum x.toList))
  hasJacobian := true
  jacobian _ := .ok (Mat.ofFn fun _ _ => 1e300)

def oneParameter : Store Float := ⟨#[.ofValue 1]⟩

theorem inRange_default_double : (Options.default : Options Float).InRange := by
  constructor <;> decide +kernel

theorem mode_steep : (Options.default : Options Float).mode? steep = .ok .analytic := by
  have hdamp : ¬ (0 : Float) < 0 := by decide
  simp [Options.mode?, JacobianChoice.mode?, Options.default, steep, hdamp]

theorem prepare_steep {x : Float} (hx : oneParameter.check #v[x] = .ok ()) :
    prepare oneParameter steep .default (some #[x]) = .ok ⟨.analytic, #v[x], by decide⟩ :=
  prepare_eq_ok (Options.validate_ok.2 inRange_default_double) rfl hx (by decide) (by decide) rfl
    mode_steep

def steepSetting : Setting Float 1 2 oneParameter.free.size :=
  .ofStore oneParameter steep .default .analytic

theorem startAt_steep {x : Float} (hx : Scalar.isFinite (1e300 * x) = true) :
    ∃ p i, (steepSetting.startAt #v[x]).resume .empty = (.ok p, i) ∧ p.x = #v[x] ∧
      p.residuals = Vector.replicate 2 (1e300 * x) ∧
      p.norm = Norm.careful [1e300 * x, 1e300 * x] := by
  have hdampen : steepSetting.dampen (1e300 * x) = 1e300 * x := if_neg (by decide)
  have hmap : (Vector.replicate 2 (1e300 * x)).map steepSetting.dampen =
      Vector.replicate 2 (1e300 * x) := by
    rw [Vector.map_replicate, hdampen]
  obtain ⟨i, hi⟩ := Setting.startAt_of_finite (s := steepSetting) (x := #v[x])
    (f := Vector.replicate 2 (1e300 * x)) rfl (by rw [hmap]; simp [hx]) .empty
  refine ⟨_, i, hi, rfl, hmap, ?_⟩
  rw [hmap]
  rfl

/-- Where the first norm is finite, every norm is: here the search starts at one. -/
theorem finite_norms_steep :
    ∃ p i, prepare oneParameter steep .default (some #[1]) = .ok ⟨.analytic, #v[1], by decide⟩ ∧
      (steepSetting.startAt #v[1]).resume .empty = (.ok p, i) ∧
      (∀ c j, steepSetting.Visits (by decide) 10 #v[1] c j →
        Scalar.isFinite c.point.norm = true) ∧
      ∀ solution, (minimizeWithin 10 oneParameter steep .default (some #[1])).1 = .ok solution →
        Scalar.isFinite (NormMethod.careful.norm solution.residuals.toList) = true ∧
        ∀ e : Fin 2, Scalar.isFinite solution.residuals[e] = true := by
  obtain ⟨p, i, hp, -, -, hnorm⟩ := startAt_steep (x := 1) (by decide +kernel)
  have hfinite : Scalar.isFinite p.norm = true := by
    rw [hnorm]
    decide +kernel
  have hstart := prepare_steep (x := 1) rfl
  exact ⟨p, i, hstart, hp, (finite_norms hstart hp 10).2.1 hfinite⟩

/-- From further away the squares of the residuals overflow, and the search stops where it started:
it reports convergence, with an infinite norm of residuals that are all in the direction of the
Jacobian. -/
theorem exists_converged_infinite_norm :
    ∃ solution, (minimize oneParameter steep .default (some #[1.5e8])).1 = .ok solution ∧
      solution.converged = true ∧ solution.parameters = #v[1.5e8] ∧
      Scalar.isFinite (NormMethod.careful.norm solution.residuals.toList) = false := by
  obtain ⟨p, i, hp, hx, hresiduals, hnorm⟩ := startAt_steep (x := 1.5e8) (by decide +kernel)
  have hinfinite : Scalar.isFinite (steepSetting.firstCheckpoint p).point.norm = false := by
    change Scalar.isFinite p.norm = false
    rw [hnorm]
    decide +kernel
  obtain ⟨i', ha⟩ := Setting.jacobianAt_of_finite (s := steepSetting) (x := p.x) rfl rfl
    (by decide +kernel) p.residuals i
  obtain ⟨l, v, hend⟩ := Setting.iteration_of_infinite (s := steepSetting) (by decide)
    (Options.default : Options Float).trialBound inRange_default_double hinfinite ha
  obtain ⟨evaluations, jacobians, j, hsearch⟩ :=
    Setting.search_of_first oneParameter.names hp hend
  have hminimize : (minimize oneParameter steep .default (some #[1.5e8])).1 =
      .ok (steepSetting.solutionOf oneParameter.names p.norm
        ⟨{ p with scaledNorm := v }, l, l.r, .ofReason .gtolConverged⟩ evaluations jacobians) := by
    unfold minimize minimizeWithin
    rw [prepare_steep rfl]
    exact congrArg Prod.fst hsearch
  have hconverged : (Status.ofReason .gtolConverged).converged = true := by decide
  refine ⟨_, hminimize, hconverged, hx, ?_⟩
  change Scalar.isFinite (NormMethod.careful.norm p.residuals.toList) = false
  rw [hresiduals]
  decide +kernel

end LeastSquares
