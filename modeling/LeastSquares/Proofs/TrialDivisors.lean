import LeastSquares.Proofs.Differences
import LeastSquares.Proofs.Rejections
import LeastSquares.Proofs.StepDivisors
import LeastSquares.Proofs.Trials

/-!
What a trial step divides by beside its damped step, and what a Jacobian by differences does. A step
can only cross a limit in a component that is not zero, since the point it starts from is within the
limits; the prediction is relative to residuals that the gradient test has found not to vanish.
-/

namespace LeastSquares

variable {n m k : ℕ} {q : ℝ → ℝ → ℝ}

/-! ### Keeping a step inside the limits -/

namespace StepLimits

section Lists

variable {α : Type} [Scalar α] (limits : StepLimits α k)

def partAboveDivisors (lower : Option α) (x step : α) : List α :=
  match lower with
  | some l => if x + step < l then [step] else []
  | none => []

def partBelowDivisors (upper : Option α) (x step : α) : List α :=
  match upper with
  | some u => if u < x + step then [step] else []
  | none => []

def partWithinDivisors (x step dropped : Vector α k) (c : Fin k) : List α :=
  if Scalar.epsilon < Scalar.abs step[c] then
    partAboveDivisors limits.lower[c] x[c] dropped[c] ++
      partBelowDivisors limits.upper[c] x[c] dropped[c]
  else []

def capExcessDivisors (dropped : Vector α k) (c : Fin k) : List α :=
  match limits.maxStep[c] with
  | some m => if dropped[c] != 0 then [m] else []
  | none => []

def restrictDivisors (x step : Vector α k) : List α :=
  let dropped := Vector.ofFn (limits.dropOutward x step)
  let part := (List.finRange k).foldl (limits.partWithin x step dropped) 1
  let excess := (List.finRange k).foldl (limits.capExcess dropped part) 1
  (List.finRange k).flatMap (limits.partWithinDivisors x step dropped) ++
    (List.finRange k).flatMap (limits.capExcessDivisors dropped) ++
      if 1 < excess then [excess] else []

end Lists

theorem zero_notMem_partAboveDivisors {lower : Option ℝ} {x step : ℝ} (h : ∀ l ∈ lower, l ≤ x) :
    0 ∉ partAboveDivisors lower x step := by
  cases lower with
  | none => exact List.not_mem_nil
  | some l =>
      have hle : l ≤ x := h l rfl
      unfold partAboveDivisors
      dsimp only
      split
      · next hlt =>
        rw [List.mem_singleton]
        intro hstep
        linarith
      · exact List.not_mem_nil

theorem zero_notMem_partBelowDivisors {upper : Option ℝ} {x step : ℝ} (h : ∀ u ∈ upper, x ≤ u) :
    0 ∉ partBelowDivisors upper x step := by
  cases upper with
  | none => exact List.not_mem_nil
  | some u =>
      have hle : x ≤ u := h u rfl
      unfold partBelowDivisors
      dsimp only
      split
      · next hlt =>
        rw [List.mem_singleton]
        intro hstep
        linarith
      · exact List.not_mem_nil

variable {limits : StepLimits ℝ k} {x step : Vector ℝ k}

/-- Keeping a step inside the limits does not divide by zero, from within the limits and with
positive caps. -/
theorem zero_notMem_restrictDivisors (hlower : ∀ c : Fin k, ∀ l ∈ limits.lower[c], l ≤ x[c])
    (hupper : ∀ c : Fin k, ∀ u ∈ limits.upper[c], x[c] ≤ u)
    (hcap : ∀ c : Fin k, ∀ cap ∈ limits.maxStep[c], 0 < cap) :
    0 ∉ limits.restrictDivisors x step := by
  simp only [restrictDivisors, List.mem_append, List.mem_flatMap, List.mem_finRange, true_and,
    not_or, not_exists]
  refine ⟨⟨fun c => ?_, fun c => ?_⟩, ?_⟩
  · unfold partWithinDivisors
    split
    · rw [List.mem_append, not_or]
      exact ⟨zero_notMem_partAboveDivisors (hlower c), zero_notMem_partBelowDivisors (hupper c)⟩
    · exact List.not_mem_nil
  · unfold capExcessDivisors
    split
    · next cap hsome =>
      split
      · simpa using (hcap c cap hsome).ne
      · exact List.not_mem_nil
    · exact List.not_mem_nil
  · split
    · next hexcess => simpa using (one_pos.trans hexcess).ne
    · exact List.not_mem_nil

theorem partAbove_dividing (hq : IsQuotient q) {lower : Option ℝ} {x step : ℝ} (part : ℝ)
    (h : 0 ∉ partAboveDivisors lower x step) :
    @partAbove ℝ (dividing q).toScalar lower x step part = partAbove lower x step part := by
  cases lower with
  | none => rfl
  | some l =>
      refine ite_congr rfl (fun hlt => ?_) fun _ => rfl
      simp only [partAboveDivisors, if_pos hlt, List.mem_singleton] at h
      exact congrArg (Scalar.min part) (hq.div_eq _ (Ne.symm h))

theorem partBelow_dividing (hq : IsQuotient q) {upper : Option ℝ} {x step : ℝ} (part : ℝ)
    (h : 0 ∉ partBelowDivisors upper x step) :
    @partBelow ℝ (dividing q).toScalar upper x step part = partBelow upper x step part := by
  cases upper with
  | none => rfl
  | some u =>
      refine ite_congr rfl (fun hlt => ?_) fun _ => rfl
      simp only [partBelowDivisors, if_pos hlt, List.mem_singleton] at h
      exact congrArg (Scalar.min part) (hq.div_eq _ (Ne.symm h))

theorem partWithin_dividing (hq : IsQuotient q) {dropped : Vector ℝ k} (part : ℝ) {c : Fin k}
    (h : 0 ∉ limits.partWithinDivisors x step dropped c) :
    @partWithin ℝ (dividing q).toScalar k limits x step dropped part c =
      limits.partWithin x step dropped part c := by
  refine ite_congr rfl (fun hlt => ?_) fun _ => rfl
  rw [partWithinDivisors, if_pos hlt, List.mem_append, not_or] at h
  rw [partAbove_dividing hq _ h.1, partBelow_dividing hq _ h.2]

theorem capExcess_dividing (hq : IsQuotient q) {dropped : Vector ℝ k} (part excess : ℝ) {c : Fin k}
    (h : 0 ∉ limits.capExcessDivisors dropped c) :
    @capExcess ℝ (dividing q).toScalar k limits dropped part excess c =
      limits.capExcess dropped part excess c := by
  unfold capExcessDivisors at h
  unfold capExcess
  cases hcap : limits.maxStep[c] with
  | none => rfl
  | some cap =>
      rw [hcap] at h
      refine ite_congr rfl (fun hne => ?_) fun _ => rfl
      simp only [if_pos hne, List.mem_singleton] at h
      exact congrArg (fun v => Scalar.max excess (Scalar.abs v)) (hq.div_eq _ (Ne.symm h))

theorem restrict_dividing (hq : IsQuotient q) (h : 0 ∉ limits.restrictDivisors x step) :
    @restrict ℝ (dividing q).toScalar k limits x step = limits.restrict x step := by
  simp only [restrictDivisors, List.mem_append, List.mem_flatMap, List.mem_finRange, true_and,
    not_or, not_exists] at h
  obtain ⟨⟨hwithin, hcap⟩, hexcess⟩ := h
  have hdropped : @dropOutward ℝ (dividing q).toScalar k limits = limits.dropOutward := rfl
  have hpart : @partWithin ℝ (dividing q).toScalar k limits x step
      (Vector.ofFn (limits.dropOutward x step)) =
      limits.partWithin x step (Vector.ofFn (limits.dropOutward x step)) :=
    funext fun part => funext fun c => partWithin_dividing hq part (hwithin c)
  have hlargest : ∀ part, @capExcess ℝ (dividing q).toScalar k limits
      (Vector.ofFn (limits.dropOutward x step)) part =
      limits.capExcess (Vector.ofFn (limits.dropOutward x step)) part :=
    fun part => funext fun excess => funext fun c => capExcess_dividing hq part excess (hcap c)
  unfold restrict
  dsimp only
  rw [hdropped, hpart, hlargest]
  refine congrArg (fun part => (part, (Vector.ofFn (limits.dropOutward x step)).map (· * part))) ?_
  refine ite_congr rfl (fun hlt => ?_) fun _ => rfl
  rw [if_pos hlt, List.mem_singleton] at hexcess
  exact hq.div_eq _ (Ne.symm hexcess)

end StepLimits

/-! ### The trust region -/

namespace TrustRegion

section Lists

variable {α : Type} [Scalar α]

def shrinkageDivisors (s : Trial α) : List α :=
  if 0 ≤ s.actual then [] else [s.slope + 0.5 * s.actual]

def updateDivisors (t : TrustRegion α) (s : Trial α) : List α :=
  if s.ratio ≤ 0.25 then shrinkageDivisors s ++ [0.1, shrinkage s]
  else if t.damping == 0 ∨ 0.75 ≤ s.ratio then [0.5]
  else []

end Lists

variable {t : TrustRegion ℝ} {s : Trial ℝ}

theorem shrinkage_pos (h : s.slope ≤ 0) : 0 < shrinkage s :=
  lt_of_lt_of_le (by norm_num) (shrinkage_mem h).1

/-- No update of the region divides by zero where the model falls along the step. -/
theorem zero_notMem_updateDivisors (h : s.slope ≤ 0) : 0 ∉ t.updateDivisors s := by
  unfold updateDivisors
  split
  · simp only [List.mem_append, List.mem_cons, List.not_mem_nil, or_false, not_or]
    refine ⟨?_, by norm_num, (shrinkage_pos h).ne⟩
    unfold shrinkageDivisors
    split
    · exact List.not_mem_nil
    · rw [List.mem_singleton]
      intro hsum
      norm_num at hsum
      linarith
  · split
    · rw [List.mem_singleton]
      norm_num
    · exact List.not_mem_nil

theorem update_damping_nonneg (hslope : s.slope ≤ 0) (h : 0 ≤ t.damping) :
    0 ≤ (t.update s).damping := by
  unfold update
  split
  · exact div_nonneg h (shrinkage_pos hslope).le
  · split
    · exact mul_nonneg h (by norm_num)
    · exact h

theorem shrinkage_dividing (hq : IsQuotient q) (h : 0 ∉ shrinkageDivisors s) :
    @shrinkage ℝ (dividing q).toScalar s = shrinkage s := by
  unfold shrinkageDivisors at h
  have hfactor : (if 0 ≤ s.actual then 0.5
      else @HDiv.hDiv ℝ ℝ ℝ (@instHDiv ℝ (dividing q).toDiv) (0.5 * s.slope)
        (s.slope + 0.5 * s.actual)) =
      if 0 ≤ s.actual then 0.5 else 0.5 * s.slope / (s.slope + 0.5 * s.actual) := by
    refine ite_congr rfl (fun _ => rfl) fun hneg => ?_
    rw [if_neg hneg, List.mem_singleton] at h
    exact hq.div_eq _ (Ne.symm h)
  unfold shrinkage
  dsimp only
  rw [← hfactor]

theorem update_dividing (hq : IsQuotient q) (h : 0 ∉ t.updateDivisors s) :
    @update ℝ (dividing q).toScalar t s = t.update s := by
  unfold updateDivisors at h
  unfold update
  refine ite_congr rfl (fun hlow => ?_) fun hhigh => ?_
  · simp only [if_pos hlow, List.mem_append, List.mem_cons, List.not_mem_nil, or_false, not_or] at h
    dsimp only
    rw [shrinkage_dividing hq h.1, hq.div_eq t.damping (Ne.symm h.2.2)]
    exact congrArg (fun l => TrustRegion.mk (shrinkage s * Scalar.min t.radius l) _)
      (hq.div_eq s.length (Ne.symm h.2.1))
  · rw [if_neg hhigh] at h
    refine ite_congr rfl (fun hgrow => ?_) fun _ => rfl
    rw [if_pos hgrow, List.mem_singleton] at h
    exact congrArg (fun l => TrustRegion.mk l _) (hq.div_eq s.length (Ne.symm h))

theorem actualReduction_dividing (hq : IsQuotient q) {before after : ℝ} (h : 0 ≤ after) :
    @actualReduction ℝ (dividing q).toScalar before after = actualReduction before after := by
  refine ite_congr rfl (fun hlt => ?_) fun _ => rfl
  have hbefore : before ≠ 0 := (lt_of_le_of_lt (mul_nonneg (by norm_num) h) hlt).ne'
  rw [hq.div_eq _ hbefore]

theorem gainRatio_dividing (hq : IsQuotient q) (actual predicted : ℝ) :
    @gainRatio ℝ (dividing q).toScalar actual predicted = gainRatio actual predicted := by
  refine ite_congr rfl (fun hne => ?_) fun _ => rfl
  exact hq.div_eq _ (by simpa using hne)

end TrustRegion

/-! ### Differences -/

def differenceDivisors {α : Type} [Scalar α] (x : Vector α n) (free : Vector (Fin n) k)
    (rules : Vector (DifferenceRule α) k) (scale : α) : List α :=
  (List.finRange k).map fun c =>
    let h := rules[c].signedStep x[free[c]] scale
    if rules[c].side = .both then 2.0 * h else h

section Differences

variable {x : Vector ℝ n} {free : Vector (Fin n) k} {rules : Vector (DifferenceRule ℝ) k} {scale : ℝ}

/-- Differences do not divide by zero when the caps on their steps are positive. -/
theorem zero_notMem_differenceDivisors (hcap : ∀ c : Fin k, ∀ cap ∈ rules[c].maxStep, 0 < cap)
    (hscale : 0 < scale) : 0 ∉ differenceDivisors x free rules scale := by
  simp only [differenceDivisors, List.mem_map, List.mem_finRange, true_and, not_exists]
  intro c
  have hne : rules[c].signedStep x[free[c]] scale ≠ 0 :=
    DifferenceRule.signedStep_ne_zero (hcap c) hscale
  split
  · exact mul_ne_zero (by norm_num) hne
  · exact hne

theorem differenceJacobian_dividing (hq : IsQuotient q)
    (h : 0 ∉ differenceDivisors x free rules scale) {M : Type → Type} [Monad M] [LawfulMonad M]
    (eval : Vector ℝ n → M (Vector ℝ m)) (fx : Vector ℝ m) :
    @differenceJacobian ℝ (dividing q).toScalar M _ n m k eval x fx free rules scale =
      differenceJacobian eval x fx free rules scale := by
  simp only [differenceDivisors, List.mem_map, List.mem_finRange, true_and, not_exists] at h
  have hcolumn : ∀ c : Fin k,
      @differenceColumn M _ ℝ n m (dividing q).toScalar eval x fx free[c] rules[c] scale =
        differenceColumn eval x fx free[c] rules[c] scale := by
    intro c
    have hc := h c
    refine congrArg (eval _ >>= ·) (funext fun ahead => ite_congr rfl (fun hside => ?_) fun hside => ?_)
    · rw [if_pos hside] at hc
      refine congrArg (eval _ >>= ·) (funext fun behind => congrArg pure ?_)
      exact ext_getElem fun i => by
        rw [getElem_zipWith, getElem_zipWith]
        exact hq.div_eq _ hc
    · rw [if_neg hside] at hc
      refine congrArg pure (ext_getElem fun i => ?_)
      rw [getElem_zipWith, getElem_zipWith]
      exact hq.div_eq _ hc
  have hcolumns :=
    @differenceJacobian_eq M _ ℝ n m k (dividing q).toScalar eval x fx _ free rules scale
  refine hcolumns.trans ?_
  rw [funext hcolumn, differenceJacobian_eq]

end Differences

/-! ### One trial step -/

namespace Setting

section Lists

variable {α : Type} [NormedScalar α] (s : Setting α n m k)

/-- The divisors of a proposal: those of the damped step and of keeping it inside the limits. -/
def proposeDivisors (l : Linearization α m k) (scale : Vector α k) (p : Progress α n m k) : List α :=
  let damped := (l.stepModel scale).dampedStep p.workspace p.region.radius p.region.damping
  (l.stepModel scale).dampedStepDivisors p.workspace p.region.radius p.region.damping ++
    s.limits.restrictDivisors p.point.free (damped.x.map (- ·))

def predictDivisors (norm part : α) : List α := [norm, part]

def judgeDivisors (l : Linearization α m k) (point : Iterate α n m k) (t : Proposal α k)
    (residuals : Vector α m) : List α :=
  let v := s.judge l point t residuals
  predictDivisors point.norm v.part ++
    t.region.updateDivisors
      ⟨v.ratio, v.actual, v.predicted.slope, point.norm, v.norm, t.length⟩

end Lists

variable {s : Setting ℝ n m k} {l : Linearization ℝ m k} {scale : Vector ℝ k} {cosine : ℝ}

theorem zero_notMem_judgeDivisors {point : Iterate ℝ n m k} (h : point.norm ≠ 0) (t : Proposal ℝ k)
    (r : Vector ℝ m) : 0 ∉ s.judgeDivisors l point t r := by
  have hpart : 0 < (s.judge l point t r).part := minNormal_pos.trans_le (le_max_right _ _)
  simp only [judgeDivisors, predictDivisors, List.mem_append, List.mem_cons, List.not_mem_nil,
    or_false, not_or]
  exact ⟨⟨h.symm, hpart.ne⟩,
    TrustRegion.zero_notMem_updateDivisors (predict_slope_nonpos _ _ _ _ hpart)⟩

theorem propose_dividing (hq : IsQuotient q) {p : Progress ℝ n m k}
    (h : 0 ∉ s.proposeDivisors l scale p) :
    @propose ℝ (dividing q) n m k s l scale p = s.propose l scale p := by
  rw [proposeDivisors, List.mem_append, not_or] at h
  have hmove : @move ℝ (dividing q) n m k s p.point.free
      ((l.stepModel scale).dampedStep p.workspace p.region.radius p.region.damping).x =
      s.move p.point.free
        ((l.stepModel scale).dampedStep p.workspace p.region.radius p.region.damping).x := by
    have hrestrict := StepLimits.restrict_dividing hq h.2
    unfold move
    rw [← hrestrict]
    rfl
  have hdamped := StepModel.dampedStep_dividing hq h.1
  unfold propose
  dsimp only
  rw [← hmove, ← hdamped]
  rfl

theorem predict_dividing (hq : IsQuotient q) {norm part : ℝ} (h : 0 ∉ predictDivisors norm part)
    (damping length : ℝ) (image : Vector ℝ k) :
    @predict ℝ (dividing q) n m k s norm damping part length image =
      s.predict norm damping part length image := by
  simp only [predictDivisors, List.mem_cons, List.not_mem_nil, or_false, not_or] at h
  unfold predict
  dsimp only
  simp only [hq.div_eq _ (Ne.symm h.1), hq.div_eq _ (Ne.symm h.2)]
  rfl

theorem judge_dividing (hq : IsQuotient q) {point : Iterate ℝ n m k} {t : Proposal ℝ k}
    {r : Vector ℝ m} (h : 0 ∉ s.judgeDivisors l point t r) :
    @judge ℝ (dividing q) n m k s l point t r = s.judge l point t r := by
  rw [judgeDivisors, List.mem_append, not_or] at h
  have hnorm : 0 ≤ s.normOf r := by
    rw [normOf_eq]
    exact euclid_nonneg r
  have hpredict := predict_dividing (s := s) hq h.1 t.region.damping t.length
    (l.image t.damped.workspace t.move.step)
  have hupdate := TrustRegion.update_dividing hq h.2
  unfold judge at hpredict hupdate ⊢
  dsimp only at hpredict hupdate ⊢
  rw [← hupdate, ← TrustRegion.gainRatio_dividing hq, ← TrustRegion.actualReduction_dividing hq hnorm,
    ← hpredict]
  rfl

end Setting

end LeastSquares
