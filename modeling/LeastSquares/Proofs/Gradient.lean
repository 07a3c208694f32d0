import LeastSquares.Proofs.Descent
import LeastSquares.Proofs.ExactRuns
import LeastSquares.Proofs.Factorization

/-!
The gradient test is the test of first-order optimality inside a box. The search never forms a
gradient: it clears the columns that point outward at a limit, factors what is left, and takes each
cosine from a column of `R`, the head of `Qᵗ·f` and the norm of the column. In exact arithmetic that
is the cosine between the residuals and the column, so the test fires when every free parameter is
held by a limit or has a gradient that counts as zero.
-/

namespace LeastSquares

variable {n m k : ℕ}

namespace Linearization

section OfJacobian

variable (limits : StepLimits ℝ k) (p : Iterate ℝ n m k) (jacobian : Mat ℝ m k) (tall : k ≤ m)

/-- The Jacobian that the linear model at a point is made of. -/
noncomputable abbrev masked : Mat ℝ m k := limits.maskJacobian p.free jacobian p.residuals

theorem distinct_ofJacobian : Distinct (ofJacobian limits p jacobian tall).pivot :=
  PivotedQR.distinct_factor _ tall

theorem columnNorms_ofJacobian (c : Fin k) :
    (ofJacobian limits p jacobian tall).columnNorms[c] =
      euclid ((masked limits p jacobian).column c) :=
  PivotedQR.columnNorms_factor _ tall c

theorem sum_r_qtf (j : Fin k) :
    ∑ i, upperPart (ofJacobian limits p jacobian tall).r i j *
        (ofJacobian limits p jacobian tall).qtf[i] =
      dot ((masked limits p jacobian).column (ofJacobian limits p jacobian tall).pivot[j])
        p.residuals :=
  PivotedQR.sum_upperPart_project _ tall _ _

theorem sum_r_r (i j : Fin k) :
    ∑ l, upperPart (ofJacobian limits p jacobian tall).r l i *
        upperPart (ofJacobian limits p jacobian tall).r l j =
      dot ((masked limits p jacobian).column (ofJacobian limits p jacobian tall).pivot[i])
        ((masked limits p jacobian).column (ofJacobian limits p jacobian tall).pivot[j]) :=
  PivotedQR.sum_upperPart_mul _ tall i j

theorem cosineAt_eq (norm : ℝ) (j : Fin k) :
    (ofJacobian limits p jacobian tall).cosineAt norm j =
      |dot ((masked limits p jacobian).column (ofJacobian limits p jacobian tall).pivot[j])
          p.residuals / norm /
        euclid ((masked limits p jacobian).column
          (ofJacobian limits p jacobian tall).pivot[j])| := by
  have hterm : ∀ i ∈ Finset.Iic j, (ofJacobian limits p jacobian tall).r[i][j] *
      ((ofJacobian limits p jacobian tall).qtf[i] / norm) =
      upperPart (ofJacobian limits p jacobian tall).r i j *
        (ofJacobian limits p jacobian tall).qtf[i] / norm := by
    intro i hi
    rw [upperPart, if_pos (Finset.mem_Iic.1 hi), mul_div_assoc]
  have hsum : ∑ i ∈ .Iic j, upperPart (ofJacobian limits p jacobian tall).r i j *
      (ofJacobian limits p jacobian tall).qtf[i] / norm =
      ∑ i, upperPart (ofJacobian limits p jacobian tall).r i j *
        (ofJacobian limits p jacobian tall).qtf[i] / norm := by
    refine Finset.sum_subset (Finset.subset_univ _) fun i _ hi => ?_
    rw [upperPart_of_lt _ (not_le.1 fun hle => hi (Finset.mem_Iic.2 hle)), zero_mul, zero_div]
  rw [← sum_r_qtf, ← columnNorms_ofJacobian limits p jacobian tall, Finset.sum_div, ← hsum,
    ← Finset.sum_congr rfl hterm, ← sum_map_upTo, ← sum_eq]
  rfl

end OfJacobian

/-! ### The largest cosine -/

theorem foldl_max_le {l : List (Fin k)} {used : Fin k → Bool} {g : Fin k → ℝ} {init b : ℝ} :
    l.foldl (fun largest j => if used j then Scalar.max largest (g j) else largest) init ≤ b ↔
      init ≤ b ∧ ∀ j ∈ l, used j = true → g j ≤ b := by
  induction l generalizing init with
  | nil => simp
  | cons j l ih =>
      rw [List.foldl_cons, ih]
      have hmax : (if used j then Scalar.max init (g j) else init) ≤ b ↔
          init ≤ b ∧ (used j = true → g j ≤ b) := by
        cases used j with
        | true =>
            rw [if_pos rfl]
            exact max_le_iff.trans (by simp)
        | false => simp
      rw [hmax]
      simp [and_assoc]

theorem gradientCosine_le_iff {l : Linearization ℝ m k} {norm b : ℝ} (hb : 0 ≤ b) :
    l.gradientCosine norm ≤ b ↔
      norm = 0 ∨ ∀ j : Fin k, l.columnNorms[l.pivot[j]] ≠ 0 → l.cosineAt norm j ≤ b := by
  unfold gradientCosine
  by_cases hnorm : norm = 0
  · rw [if_pos (by simpa using hnorm)]
    exact ⟨fun _ => .inl hnorm, fun _ => hb⟩
  · rw [if_neg (by simpa using hnorm), foldl_max_le]
    simp [hb, hnorm]

end Linearization

/-! ### First-order optimality -/

namespace StepLimits

/-- Parameter `c` cannot go against its slope, or has hardly any: the condition for a constrained
minimum, in which slopes up to `tolerance`, as cosines, count as zero. -/
def IsStationaryAt (limits : StepLimits ℝ k) (p : Iterate ℝ n m k) (jacobian : Mat ℝ m k)
    (tolerance : ℝ) (c : Fin k) : Prop :=
  (∀ i : Fin m, jacobian[i][c] = 0) ∨
  (limits.atLower c p.free[c] = true ∧ 0 < dot p.residuals (jacobian.column c)) ∨
  (limits.atUpper c p.free[c] = true ∧ dot p.residuals (jacobian.column c) < 0) ∨
  |dot p.residuals (jacobian.column c)| ≤
    tolerance * euclid (jacobian.column c) * euclid p.residuals

theorem getElem_maskJacobian (limits : StepLimits ℝ k) (x : Vector ℝ k) (jacobian : Mat ℝ m k)
    (residuals : Vector ℝ m) (i : Fin m) (c : Fin k) :
    (limits.maskJacobian x jacobian residuals)[i][c] =
      if limits.pointsOutward x jacobian residuals c = true then 0 else jacobian[i][c] := by
  rw [maskJacobian, Mat.getElem_ofFn, getElem_ofFn]

theorem column_maskJacobian (limits : StepLimits ℝ k) (x : Vector ℝ k) (jacobian : Mat ℝ m k)
    (residuals : Vector ℝ m) (c : Fin k) :
    (limits.maskJacobian x jacobian residuals).column c =
      if limits.pointsOutward x jacobian residuals c = true then Vector.replicate m 0
      else jacobian.column c := by
  refine ext_getElem fun i => ?_
  rw [Mat.getElem_column, getElem_maskJacobian]
  split
  · rw [getElem_replicate]
  · rw [Mat.getElem_column]

theorem pointsOutward_iff {limits : StepLimits ℝ k} {x : Vector ℝ k} {jacobian : Mat ℝ m k}
    {residuals : Vector ℝ m} {c : Fin k} :
    limits.pointsOutward x jacobian residuals c = true ↔
      (limits.atLower c x[c] = true ∧ 0 < dot residuals (jacobian.column c)) ∨
      (limits.atUpper c x[c] = true ∧ dot residuals (jacobian.column c) < 0) := by
  simp [pointsOutward, columnSlope_eq]

/-- The cosine of a column of the linear model is small just where the parameter is stationary. -/
theorem cosine_le_iff {limits : StepLimits ℝ k} {p : Iterate ℝ n m k} {jacobian : Mat ℝ m k}
    {tolerance : ℝ} (hresiduals : 0 < euclid p.residuals) (c : Fin k) :
    (euclid ((limits.maskJacobian p.free jacobian p.residuals).column c) ≠ 0 →
      |dot ((limits.maskJacobian p.free jacobian p.residuals).column c) p.residuals /
          euclid p.residuals /
        euclid ((limits.maskJacobian p.free jacobian p.residuals).column c)| ≤ tolerance) ↔
    limits.IsStationaryAt p jacobian tolerance c := by
  rw [column_maskJacobian]
  by_cases houtward : limits.pointsOutward p.free jacobian p.residuals c = true
  · have hzero : euclid (Vector.replicate m (0 : ℝ)) = 0 :=
      euclid_eq_zero.2 fun i => getElem_replicate 0 i
    rw [if_pos houtward, hzero]
    refine ⟨fun _ => ?_, fun _ h => absurd rfl h⟩
    exact (pointsOutward_iff.1 houtward).elim (fun h => .inr (.inl h)) fun h => .inr (.inr (.inl h))
  · rw [if_neg houtward, dot_comm]
    rw [pointsOutward_iff] at houtward
    by_cases hcolumn : euclid (jacobian.column c) = 0
    · refine ⟨fun _ => .inl fun i => ?_, fun _ h => absurd hcolumn h⟩
      rw [← Mat.getElem_column]
      exact euclid_eq_zero.1 hcolumn i
    · have hpos : 0 < euclid (jacobian.column c) := lt_of_le_of_ne (euclid_nonneg _) (Ne.symm hcolumn)
      have hsmall : |dot p.residuals (jacobian.column c) / euclid p.residuals /
          euclid (jacobian.column c)| ≤ tolerance ↔
          |dot p.residuals (jacobian.column c)| ≤
            tolerance * euclid (jacobian.column c) * euclid p.residuals := by
        rw [abs_div, abs_div, abs_of_pos hresiduals, abs_of_pos hpos, div_le_iff₀ hpos,
          div_le_iff₀ hresiduals]
      rw [hsmall]
      refine ⟨fun h => .inr (.inr (.inr (h hcolumn))), ?_⟩
      rintro (h | h | h | h) _
      · exact absurd (euclid_eq_zero.2 fun i => by rw [Mat.getElem_column, h i]) hcolumn
      · exact absurd (.inl h) houtward
      · exact absurd (.inr h) houtward
      · exact h

end StepLimits

/-! ### The test in a run -/

namespace Options

variable {o : Options ℝ}

theorem contains_gradientStatus {cosine : ℝ} :
    (o.gradientStatus cosine).contains .gtolConverged = true ↔ cosine ≤ o.gtol := by
  simp [gradientStatus, Status.ofTests]

theorem isEmpty_gradientStatus {cosine : ℝ} :
    (o.gradientStatus cosine).isEmpty = false ↔ cosine ≤ o.gtol := by
  rw [← contains_gradientStatus, Status.isEmpty, ← Bool.not_eq_true, List.isEmpty_iff]
  refine ⟨fun h => ?_, fun h hempty => ?_⟩
  · obtain ⟨r, hr⟩ := List.exists_mem_of_ne_nil _ h
    rw [Status.mem_reasons] at hr
    cases r <;> simp [gradientStatus, Status.ofTests] at hr ⊢
    exact hr
  · rw [← Status.mem_reasons, hempty] at h
    cases h

theorem isEmpty_gradientStatus_iff_lt {cosine : ℝ} :
    (o.gradientStatus cosine).isEmpty = true ↔ o.gtol < cosine := by
  rw [← Bool.not_eq_false, isEmpty_gradientStatus, not_le]

/-- No test of a step is the gradient test. -/
theorem contains_stepStatus (s : StepStatistics ℝ) (iterations evaluations : ℕ) :
    (o.stepStatus s iterations evaluations).contains .gtolConverged = false := by
  unfold stepStatus
  dsimp only
  split <;> simp [Status.ofTests]

end Options

namespace Setting

variable {s : Setting ℝ n m k} {tall : k ≤ m} {trials : ℕ}

theorem iteration_of_gradient (trials : ℕ) {c : Checkpoint ℝ n m k} {a : Mat ℝ m k} {i j : Journal ℝ n}
    (ha : (s.jacobianAt c.point.x c.point.residuals).resume j = (.ok a, i))
    (h : (Linearization.ofJacobian s.limits c.point a tall).gradientCosine c.point.norm ≤
      s.options.gtol) :
    ∃ f v, (s.iteration tall trials c).resume j = (.ok (.inl f), i) ∧
      f.point = { c.point with scaledNorm := v } ∧ f.status.contains .gtolConverged = true := by
  obtain ⟨v, hpoint⟩ := rescale_point (s := s) (.ofJacobian s.limits c.point a tall) c
  have hnorm : (s.rescale (.ofJacobian s.limits c.point a tall) c).point.norm = c.point.norm := by
    rw [hpoint]
  rw [← hnorm] at h
  exact ⟨_, v, Run.bind_ok.2 ⟨a, i, ha, advance_of_gradient i (Options.isEmpty_gradientStatus.2 h)⟩,
    hpoint, Options.contains_gradientStatus.2 h⟩

/-- An iteration ends with the gradient test just when the largest cosine is within tolerance. -/
theorem iteration_gtolConverged_iff {c : Checkpoint ℝ n m k} {a : Mat ℝ m k} {i j : Journal ℝ n}
    (ha : (s.jacobianAt c.point.x c.point.residuals).resume j = (.ok a, i)) :
    (∃ f j', (s.iteration tall trials c).resume j = (.ok (.inl f), j') ∧
      f.status.contains .gtolConverged = true) ↔
    (Linearization.ofJacobian s.limits c.point a tall).gradientCosine c.point.norm ≤
      s.options.gtol := by
  constructor
  · rintro ⟨f, j', h, hstatus⟩
    obtain ⟨a', i', ha', h⟩ := iteration_ok h
    cases ha.symm.trans ha'
    rcases advance_ok h with ⟨status, -, hf, hreason⟩ | ⟨-, q, i'', result, -, hstep, hend⟩
    · cases hf
      rcases hreason with rfl | ⟨-, rfl⟩
      · obtain ⟨v, hpoint⟩ := rescale_point (s := s) (.ofJacobian s.limits c.point a tall) c
        have hcosine := Options.contains_gradientStatus.1 hstatus
        rwa [hpoint] at hcosine
      · cases hstatus
    · rcases hend with ⟨-, hf⟩ | ⟨-, -, hf⟩
      · cases hf
        obtain ⟨r, _, -, -, rfl⟩ := tryStep_ok hstep
        exact absurd ((Options.contains_stepStatus _ _ _).symm.trans hstatus) (by decide)
      · cases hf
  · intro h
    obtain ⟨f, v, hf, -, hstatus⟩ := iteration_of_gradient trials ha h
    exact ⟨f, i, hf, hstatus⟩

theorem gradientCosine_le_iff {limits : StepLimits ℝ k} {p : Iterate ℝ n m k} {a : Mat ℝ m k}
    {tolerance : ℝ} (htolerance : 0 ≤ tolerance) (hnorm : p.norm = euclid p.residuals) :
    (Linearization.ofJacobian limits p a tall).gradientCosine p.norm ≤ tolerance ↔
      (∀ i : Fin m, p.residuals[i] = 0) ∨ ∀ c, limits.IsStationaryAt p a tolerance c := by
  rw [Linearization.gradientCosine_le_iff htolerance, hnorm, ← euclid_eq_zero]
  refine or_congr_right' fun hne => ?_
  have hpos : 0 < euclid p.residuals := lt_of_le_of_ne (euclid_nonneg _) (Ne.symm hne)
  have hinjective : Function.Injective
      fun j : Fin k => (Linearization.ofJacobian limits p a tall).pivot[j] :=
    Linearization.distinct_ofJacobian limits p a tall
  refine Iff.trans ?_ (Finite.surjective_of_injective hinjective).forall.symm
  refine forall_congr' fun j => ?_
  rw [Linearization.columnNorms_ofJacobian, Linearization.cosineAt_eq]
  exact StepLimits.cosine_le_iff hpos _

/-- A search that starts at a stationary point stays there. -/
theorem search_of_stationary (names : Vector (Option String) n) (tall : k ≤ m) (trials : ℕ)
    {x : Vector ℝ n} {p : Iterate ℝ n m k} {a : Mat ℝ m k} {i i' : Journal ℝ n}
    (hp : (s.startAt x).resume .empty = (.ok p, i))
    (ha : (s.jacobianAt p.x p.residuals).resume i = (.ok a, i'))
    (hnorm : p.norm = euclid p.residuals) (hgtol : 0 ≤ s.options.gtol)
    (hstationary : ∀ c, s.limits.IsStationaryAt p a s.options.gtol c) :
    ∃ f v evaluations jacobians j, (s.search tall trials names x).resume .empty =
        (.ok (s.solutionOf names p.norm f evaluations jacobians), j) ∧
      f.point = { p with scaledNorm := v } ∧ f.status.contains .gtolConverged = true := by
  have hcosine : (Linearization.ofJacobian s.limits p a tall).gradientCosine p.norm ≤
      s.options.gtol := (gradientCosine_le_iff hgtol hnorm).2 (.inr hstationary)
  obtain ⟨f, v, hf, hpoint, hstatus⟩ := iteration_of_gradient trials (c := s.firstCheckpoint p) ha
    hcosine
  obtain ⟨evaluations, jacobians, j, hsearch⟩ := search_of_first names hp hf
  exact ⟨f, v, evaluations, jacobians, j, hsearch, hpoint, hstatus⟩

end Setting

namespace Store

variable {store : Store ℝ} {function : ResidualFunction ℝ} {options : Options ℝ}
  {mode : JacobianMode} {x : Vector ℝ store.size} {free : Vector ℝ store.free.size}
  {d : Fin store.free.size}

theorem finiteLower_eq (b : Bounds ℝ) : b.finiteLower = b.lower := by
  cases h : b.lower <;> simp [Bounds.finiteLower, h, Scalar.isFinite]

theorem finiteUpper_eq (b : Bounds ℝ) : b.finiteUpper = b.upper := by
  cases h : b.upper <;> simp [Bounds.finiteUpper, h, Scalar.isFinite]

theorem lower_ofStore (d : Fin store.free.size) :
    (Setting.ofStore store function options mode).limits.lower[d] =
      (store.get store.freePlaces[d]).bounds.lower :=
  (getElem_ofFn _ d).trans (finiteLower_eq _)

theorem upper_ofStore (d : Fin store.free.size) :
    (Setting.ofStore store function options mode).limits.upper[d] =
      (store.get store.freePlaces[d]).bounds.upper :=
  (getElem_ofFn _ d).trans (finiteUpper_eq _)

theorem maxStep_ofStore (d : Fin store.free.size) :
    (Setting.ofStore store function options mode).limits.maxStep[d] =
      (store.get store.freePlaces[d]).maxStep := by
  refine (getElem_ofFn _ d).trans ?_
  change (store.get store.freePlaces[d]).maxStep.filter Scalar.isFinite = _
  cases (store.get store.freePlaces[d]).maxStep <;> rfl

theorem limits_of_within (hwithin : store.Within x) (hfree : free[d] = x[store.freePlaces[d]]) :
    (∀ l ∈ (Setting.ofStore store function options mode).limits.lower[d], l ≤ free[d]) ∧
      ∀ u ∈ (Setting.ofStore store function options mode).limits.upper[d], free[d] ≤ u := by
  rw [lower_ofStore, upper_ofStore, hfree]
  exact within_iff.1 hwithin _ (isFree_eq_true.1 (store.isFree_freePlaces d)).2

theorem atLower_iff (hwithin : store.Within x) (hfree : free[d] = x[store.freePlaces[d]]) :
    (Setting.ofStore store function options mode).limits.atLower d free[d] = true ↔
      (store.get store.freePlaces[d]).bounds.lower = some x[store.freePlaces[d]] := by
  rw [StepLimits.atLower_iff_eq (limits_of_within hwithin hfree).1, lower_ofStore, hfree]

theorem atUpper_iff (hwithin : store.Within x) (hfree : free[d] = x[store.freePlaces[d]]) :
    (Setting.ofStore store function options mode).limits.atUpper d free[d] = true ↔
      (store.get store.freePlaces[d]).bounds.upper = some x[store.freePlaces[d]] := by
  rw [StepLimits.atUpper_iff_eq (limits_of_within hwithin hfree).2, upper_ofStore, hfree]

end Store

/-- In exact arithmetic, wherever a fit is: the iteration there ends with the gradient test if and
only if the residuals vanish or every free parameter has a column that vanishes, is on a limit
beyond which its slope leads, or has a slope that is small beside its column and the residuals. -/
theorem gradient_test_iff {store : Store ℝ} {function : ResidualFunction ℝ} {options : Options ℝ}
    {initial : Option (Array ℝ)} {start : Start store function} {trials : ℕ}
    {c : Checkpoint ℝ store.size function.count store.free.size} {j i : Journal ℝ store.size}
    {a : Mat ℝ function.count store.free.size}
    (hstart : prepare store function options initial = .ok start)
    (hc : (Setting.ofStore store function options start.mode).Visits start.tall trials start.x c j)
    (ha : ((Setting.ofStore store function options start.mode).jacobianAt c.point.x
      c.point.residuals).resume j = (.ok a, i)) :
    (∃ f j', ((Setting.ofStore store function options start.mode).iteration start.tall trials
        c).resume j = (.ok (.inl f), j') ∧ f.status.contains .gtolConverged = true) ↔
      (∀ l : Fin function.count, c.point.residuals[l] = 0) ∨
      ∀ d : Fin store.free.size,
        (∀ l : Fin function.count, a[l][d] = 0) ∨
        ((store.get store.freePlaces[d]).bounds.lower = some c.point.x[store.freePlaces[d]] ∧
          0 < dot c.point.residuals (a.column d)) ∨
        ((store.get store.freePlaces[d]).bounds.upper = some c.point.x[store.freePlaces[d]] ∧
          dot c.point.residuals (a.column d) < 0) ∨
        |dot c.point.residuals (a.column d)| ≤
          options.gtol * euclid (a.column d) * euclid c.point.residuals := by
  obtain ⟨hvalid, -, -, -, -⟩ := prepare_ok hstart
  have hgtol : 0 ≤ options.gtol := by
    simpa [Options.isTolerance, Scalar.isFinite] using (Options.validate_ok.1 hvalid).gtol
  have hnorm : c.point.norm = euclid c.point.residuals := by
    rw [Setting.norm_eq_of_visits hc, Setting.normOf_eq]
  obtain ⟨-, hwithin⟩ := constraints_of_visits hstart hc
  rw [Setting.iteration_gtolConverged_iff ha]
  refine (Setting.gradientCosine_le_iff hgtol hnorm).trans
    (or_congr Iff.rfl (forall_congr' fun d => or_congr Iff.rfl (or_congr ?_ (or_congr ?_ Iff.rfl))))
  · rw [Store.atLower_iff hwithin (Store.free_eq_of_visits hc d)]
  · rw [Store.atUpper_iff hwithin (Store.free_eq_of_visits hc d)]

namespace Corner

/-- A parameter on its lower limit, one on its upper limit, and one without limits. -/
noncomputable def store : Store ℝ :=
  ⟨#[{ value := some 0, bounds := ⟨some 0, none⟩ }, { value := some 0, bounds := ⟨none, some 0⟩ },
    .ofValue 0]⟩

/-- A residual for each parameter. Those of the first two decrease only beyond their limits. -/
noncomputable def function : ResidualFunction ℝ where
  count := 3
  eval x := .ok (Vector.ofFn fun l => x.toList.getD l.val 0 + ![1, -1, 0] l)
  hasJacobian := true
  jacobian _ := .ok (Mat.ofFn fun l c => if l.val = c.val then 1 else 0)

noncomputable def setting : Setting ℝ 3 3 3 := .ofStore store function .default .analytic

variable (p : ℝ)

theorem prepared : prepare store function .default (some #[0, 0, p]) =
    .ok ⟨.analytic, #v[0, 0, p], by decide⟩ := by
  refine prepare_default rfl rfl (Store.within_iff.2 ?_) (by decide) (by decide)
  refine Fin.forall_fin_succ.2 ⟨fun _ => ⟨?_, nofun⟩, Fin.forall_fin_two.2 ⟨fun _ => ⟨nofun, ?_⟩,
    fun _ => ⟨nofun, nofun⟩⟩⟩
  · rintro l ⟨⟩
    exact le_rfl
  · rintro u ⟨⟩
    exact le_rfl

theorem exists_first : ∃ (point : Iterate ℝ 3 3 3) (j i : Journal ℝ 3) (a : Mat ℝ 3 3),
    (setting.startAt #v[0, 0, p]).resume .empty = (.ok point, j) ∧
    (setting.jacobianAt point.x point.residuals).resume j = (.ok a, i) ∧
    point.x = #v[0, 0, p] ∧ point.residuals = #v[1, -1, p] ∧
    ∀ l c : Fin 3, a[l][c] = if l = c then 1 else 0 := by
  obtain ⟨j, hp⟩ := Setting.startAt_of_eval (s := setting) (x := #v[0, 0, p]) (j := .empty) rfl
  obtain ⟨i, ha⟩ := Setting.jacobianAt_of_analytic (s := setting) (j := j)
    (x := setting.applyTies #v[0, 0, p]) rfl rfl _
  have hx : setting.applyTies #v[0, 0, p] = #v[0, 0, p] := rfl
  have hdampen : ∀ r, setting.dampen r = r := fun r => if_neg (lt_irrefl (0 : ℝ))
  refine ⟨_, j, i, _, hp, ha, hx, ext_getElem fun l => ?_, fun l c => ?_⟩
  · rw [getElem_map, hdampen]
    refine (getElem_ofFn _ l).trans ?_
    fin_cases l
    · exact zero_add 1
    · exact zero_add (-1)
    · exact add_zero p
  · refine (Mat.getElem_ofFn _ l c).trans ((Mat.getElem_ofFn _ l _).trans ?_)
    fin_cases c
    · exact if_congr Fin.ext_iff.symm rfl rfl
    · exact if_congr Fin.ext_iff.symm rfl rfl
    · exact if_congr Fin.ext_iff.symm rfl rfl

section Jacobian

variable {a : Mat ℝ 3 3} (ha : ∀ l c : Fin 3, a[l][c] = if l = c then 1 else 0) (c : Fin 3)

include ha

theorem slope_eq (r : Vector ℝ 3) : dot r (a.column c) = r[c] := by
  simp [ha]

theorem euclid_column : euclid (a.column c) = 1 := by
  simp [euclid, ha]

end Jacobian

end Corner

/-- Two parameters are held by their limits, and the third one decides the test. -/
theorem gradient_test_at_limits :
    (∃ start : Start Corner.store Corner.function, ∃ c j i a,
      prepare Corner.store Corner.function .default (some #[0, 0, 0]) = .ok start ∧
      Corner.setting.Visits start.tall 1 start.x c j ∧
      (Corner.setting.jacobianAt c.point.x c.point.residuals).resume j = (.ok a, i) ∧
      ∃ f j', (Corner.setting.iteration start.tall 1 c).resume j = (.ok (.inl f), j') ∧
        f.status.contains .gtolConverged = true) ∧
    ∃ start : Start Corner.store Corner.function, ∃ c j i a,
      prepare Corner.store Corner.function .default (some #[0, 0, 1]) = .ok start ∧
      Corner.setting.Visits start.tall 1 start.x c j ∧
      (Corner.setting.jacobianAt c.point.x c.point.residuals).resume j = (.ok a, i) ∧
      ¬ ∃ f j', (Corner.setting.iteration start.tall 1 c).resume j = (.ok (.inl f), j') ∧
        f.status.contains .gtolConverged = true := by
  constructor
  · obtain ⟨point, j, i, a, hp, ha, hx, hresiduals, hentry⟩ := Corner.exists_first 0
    refine ⟨_, Corner.setting.firstCheckpoint point, j, i, a, Corner.prepared 0, .start hp, ha, ?_⟩
    have hslope (d : Fin 3) :
        dot point.residuals (a.column d) = (#v[1, -1, 0] : Vector ℝ 3)[d] := by
      rw [Corner.slope_eq hentry, hresiduals]
    refine (gradient_test_iff (Corner.prepared 0) (.start hp) ha).2 (.inr ?_)
    refine Fin.forall_fin_succ.2 ⟨.inr (.inl ⟨?_, ?_⟩), Fin.forall_fin_two.2
      ⟨.inr (.inr (.inl ⟨?_, ?_⟩)), .inr (.inr (.inr ?_))⟩⟩
    · show some 0 = some point.x[(0 : Fin 3)]
      rw [hx]
      rfl
    · exact one_pos.trans_eq (hslope 0).symm
    · show some 0 = some point.x[(1 : Fin 3)]
      rw [hx]
      rfl
    · exact (hslope 1).trans_lt (neg_lt_zero.2 one_pos)
    · show |dot point.residuals (a.column 2)| ≤
        1e-10 * euclid (a.column 2) * euclid point.residuals
      have hzero : dot point.residuals (a.column 2) = 0 := hslope 2
      rw [hzero, abs_zero]
      exact mul_nonneg (mul_nonneg (by norm_num) (euclid_nonneg _)) (euclid_nonneg _)
  · obtain ⟨point, j, i, a, hp, ha, hx, hresiduals, hentry⟩ := Corner.exists_first 1
    refine ⟨_, Corner.setting.firstCheckpoint point, j, i, a, Corner.prepared 1, .start hp, ha, ?_⟩
    intro hends
    have hlast : point.residuals[(2 : Fin 3)] = 1 := by
      rw [hresiduals]
      rfl
    rcases (gradient_test_iff (Corner.prepared 1) (.start hp) ha).1 hends with hzero | hall
    · exact one_ne_zero (hlast.symm.trans (hzero (2 : Fin 3)))
    · rcases hall (2 : Fin 3) with h | ⟨hlimit, -⟩ | ⟨hlimit, -⟩ | h
      · have hdiagonal : a[(2 : Fin 3)][(2 : Fin 3)] = 1 := (hentry 2 2).trans (if_pos rfl)
        exact one_ne_zero (hdiagonal.symm.trans (h (2 : Fin 3)))
      · cases hlimit
      · cases hlimit
      · change |dot point.residuals (a.column 2)| ≤
          1e-10 * euclid (a.column 2) * euclid point.residuals at h
        have hnorm : euclid point.residuals ^ 2 = 3 := by
          rw [euclid_sq, Fin.sum_univ_three, hresiduals]
          change (1 : ℝ) ^ 2 + (-1) ^ 2 + 1 ^ 2 = 3
          norm_num
        rw [Corner.slope_eq hentry, hlast, Corner.euclid_column hentry, abs_one] at h
        nlinarith

end LeastSquares
