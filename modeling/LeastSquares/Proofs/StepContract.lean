import LeastSquares.Proofs.DampedSquares
import LeastSquares.Proofs.ProportionalRows
import LeastSquares.Proofs.StepDivisors

/-!
What the step for a trust region keeps to, in exact arithmetic and for every rank. The damping that
is returned is the one the step was computed with, so that the step minimizes the damped sum of
squares. There is no damping exactly if the basic solution is hardly longer than the radius, and then
that is the step. Otherwise the search for the damping ends with the first of its steps that is
acceptable, and such a step is hardly longer than the radius either; the exception is a search that
has used up its attempts.
-/

namespace LeastSquares

open Matrix

variable {m n : ℕ}

namespace StepModel

variable {model : StepModel ℝ n} {r : Mat ℝ n n} {radius : ℝ} {x y : Vector ℝ n}

/-! ### The basic solution -/

/-- A solution without damping whose components from the first zero on the diagonal of `R` on
vanish. -/
structure IsBasic (model : StepModel ℝ n) (r : Mat ℝ n n) (x : Vector ℝ n) : Prop where
  normal : model.SolvesNormal r 0 x
  zero : ∀ i j : Fin n, r[i][i] = 0 → i ≤ j → x[model.pivot[j]] = 0

theorem isBasic_undamped (hpivot : Distinct model.pivot) (hrank : RevealsRank r) :
    model.IsBasic r (model.undamped r) where
  normal := solvesNormal_undamped hpivot hrank
  zero i j hi hij := by
    have hle : rank r ≤ j.val := by
      by_contra hlt
      exact diagonal_ne_zero_of_lt_rank (lt_of_le_of_lt hij (not_le.1 hlt)) hi
    exact (getElem_unpermute hpivot _ j).trans ((subtracts_solveTriangle model r).zero j hle)

/-- There is no more than one basic solution: the leading part of `R` has no zero on its diagonal. -/
theorem IsBasic.eq (hpivot : Distinct model.pivot) (h : model.IsBasic r x) (h' : model.IsBasic r y) :
    x = y := by
  set z : Fin n → ℝ := fun j => x[model.pivot[j]] - y[model.pivot[j]] with hz
  have hgram : (upperMatrix r)ᵀ *ᵥ (upperMatrix r *ᵥ z) = 0 := by
    ext j
    have hrow : ((upperMatrix r)ᵀ *ᵥ (upperMatrix r *ᵥ z)) j =
        ∑ i, (∑ l, upperPart r l j * upperPart r l i) * z i := by
      rw [mulVec_mulVec]
      rfl
    have hx := h.normal j
    have hy := h'.normal j
    rw [zero_mul, zero_mul, add_zero] at hx hy
    rw [hrow]
    simp only [hz, mul_sub, Finset.sum_sub_distrib]
    rw [hx, hy, sub_self, Pi.zero_apply]
  have himage : upperMatrix r *ᵥ z = 0 := by
    rw [← dotProduct_self_eq_zero, mulVec_dotProduct_mulVec, hgram, dotProduct_zero]
  have hsame : ∀ l, z l = 0 := by
    refine eq_zero_of_triangle r (rank r) (fun _ hl => diagonal_ne_zero_of_lt_rank hl)
      (fun l _ => congrFun himage l) fun l hl => ?_
    obtain ⟨i, hi, hzero⟩ := DampedSolve.exists_eq_zero_of_findIdx_le hl
    rw [Mat.diagonal, getElem_ofFn] at hzero
    exact sub_eq_zero.2 ((h.zero i l hzero hi).trans (h'.zero i l hzero hi).symm)
  exact eq_of_pivot hpivot fun j => sub_eq_zero.1 (hsame j)

/-! ### The search, attempt by attempt -/

namespace Search

variable {s : Search ℝ n}

noncomputable def accepts (model : StepModel ℝ n) (radius : ℝ) (s : Search ℝ n) : Bool :=
  (s.attempt model radius).isAcceptable s radius

noncomputable def correct (model : StepModel ℝ n) (radius : ℝ) (s : Search ℝ n) : Search ℝ n :=
  s.advance model (s.attempt model radius) radius

/-- A search that may correct the damping `corrections` times refuses `i` steps, and then stops with
the step `d`: because that is acceptable, or because no correction is left. -/
structure StopsAt (model : StepModel ℝ n) (radius : ℝ) (corrections : ℕ) (s : Search ℝ n) (i : ℕ)
    (d : DampedStep ℝ n) : Prop where
  le : i ≤ corrections
  refused : ∀ j < i, accepts model radius ((correct model radius)^[j] s) = false
  accepted : i < corrections → accepts model radius ((correct model radius)^[i] s) = true
  step : d = (((correct model radius)^[i] s).attempt model radius).step

theorem exists_stopsAt (model : StepModel ℝ n) (radius : ℝ) (corrections : ℕ) (s : Search ℝ n) :
    ∃ i, StopsAt model radius corrections s i (s.run model radius corrections) := by
  induction corrections generalizing s with
  | zero =>
      exact ⟨0, le_rfl, fun _ hj => absurd hj (Nat.not_lt_zero _), fun h => absurd h (lt_irrefl _),
        rfl⟩
  | succ corrections ih =>
      cases haccepts : accepts model radius s with
      | true =>
          refine ⟨0, Nat.zero_le _, fun _ hj => absurd hj (Nat.not_lt_zero _), fun _ => haccepts, ?_⟩
          exact if_pos haccepts
      | false =>
          obtain ⟨i, hle, hrefused, haccepted, hstep⟩ := ih (correct model radius s)
          refine ⟨i + 1, Nat.succ_le_succ hle, fun j hj => ?_, fun hi => ?_, ?_⟩
          · cases j with
            | zero => exact haccepts
            | succ j => exact hrefused j (Nat.lt_of_succ_lt_succ hj)
          · exact haccepted (Nat.lt_of_succ_lt_succ hi)
          · refine Eq.trans (if_neg ?_) hstep
            exact ne_true_of_eq_false haccepts

theorem Sound.correct (h : s.Sound r) : (s.correct model radius).Sound r :=
  h.advance _ fun i j => (upperPart_dampedSolve _ _ _ i j).trans (h.workspace i j)

theorem Sound.iterate (h : s.Sound r) (i : ℕ) : ((Search.correct model radius)^[i] s).Sound r := by
  induction i generalizing s with
  | zero => exact h
  | succ i ih => exact ih h.correct

/-- An acceptable step is hardly longer than the radius: it is within a tenth of it, or shorter. -/
theorem scaledNorm_le_of_accepts (hradius : 0 < radius) (h : accepts model radius s = true) :
    model.scaledNorm (s.attempt model radius).step.x ≤ 1.1 * radius := by
  have hexcess : (s.attempt model radius).excess ≤ 0.1 * radius := by
    rcases of_decide_eq_true h with hclose | ⟨-, hfalls, hshort⟩
    · exact (le_abs_self _).trans hclose
    · exact (hfalls.trans hshort.le).trans (mul_nonneg (by norm_num) hradius.le)
  have hlength : model.scaledNorm (s.attempt model radius).step.x - radius ≤ 0.1 * radius := hexcess
  linarith

theorem StopsAt.damping_pos {corrections i : ℕ} {d : DampedStep ℝ n}
    (h : StopsAt model radius corrections s i d) (hs : s.Sound r) : 0 < d.damping := by
  rw [h.step]
  exact (hs.iterate i).candidate_pos

/-- The search stops with a step that is hardly longer than the radius, or with its last one. -/
theorem StopsAt.scaledNorm_le_or_eq {corrections i : ℕ} {d : DampedStep ℝ n}
    (h : StopsAt model radius corrections s i d) (hradius : 0 < radius) :
    model.scaledNorm d.x ≤ 1.1 * radius ∨ i = corrections := by
  refine or_iff_not_imp_right.2 fun hne => ?_
  rw [h.step]
  exact scaledNorm_le_of_accepts hradius (h.accepted (lt_of_le_of_ne h.le hne))

end Search

/-! ### The contract -/

noncomputable def firstSearch (model : StepModel ℝ n) (r : Mat ℝ n n) (radius damping : ℝ) :
    Search ℝ n :=
  model.startSearch r radius damping (model.scaledNorm (model.undamped r) - radius)

/-- What is promised of the step `d` for a trust region, where `r` holds the triangle of the
factorization `qr` of the matrix `a`, and `damping` is the first guess at the damping. -/
structure MeetsContract (model : StepModel ℝ n) (qr : PivotedQR ℝ m n) (a : Mat ℝ m n) (r : Mat ℝ n n)
    (radius damping : ℝ) (d : DampedStep ℝ n) : Prop where
  damping_nonneg : 0 ≤ d.damping
  normal : model.SolvesNormal r d.damping d.x
  /-- The right-hand side is the head of `Qᵗ·f` for some vector `f`, -/
  head : ∃ f, qr.project f = model.qtf
  /-- and for each such vector the step minimizes the sum of squares with the damping returned. -/
  minimal : ∀ f, qr.project f = model.qtf → ∀ y,
    dampedSquares a f d.damping model.scale d.x ≤ dampedSquares a f d.damping model.scale y
  /-- There is one basic solution; it is returned if it is short enough, and otherwise the damping is
  not zero. -/
  basic : ∃ x, (∀ y, model.IsBasic r y ↔ y = x) ∧
    (d.damping = 0 ↔ model.scaledNorm x ≤ 1.1 * radius) ∧ (d.damping = 0 → d.x = x)
  /-- The step is short enough unless the search has refused nine steps and stops with the tenth. -/
  length : model.scaledNorm d.x ≤ 1.1 * radius ∨
    (model.firstSearch r radius damping).StopsAt model radius 9 9 d

section Near

variable (r : Mat ℝ n n) (hradius : 0 < radius) (damping : ℝ)

theorem dampedStep_stopsAt (h : ¬ model.scaledNorm (model.undamped r) ≤ 1.1 * radius) :
    ∃ i, (model.firstSearch r radius damping).StopsAt model radius 9 i
      (model.dampedStep r radius damping) := by
  have hexcess : ¬ model.scaledNorm (model.undamped r) - radius ≤ 0.1 * radius :=
    fun hle => h (by linarith)
  have hstep : model.dampedStep r radius damping =
      (model.firstSearch r radius damping).run model radius maxCorrections := if_neg hexcess
  rw [hstep]
  exact Search.exists_stopsAt model radius 9 _

include hradius

/-- There is no damping only for the solution without damping. -/
theorem dampedStep_damping_eq_zero :
    ((model.dampedStep r radius damping).damping = 0 ↔
      model.scaledNorm (model.undamped r) ≤ 1.1 * radius) ∧
    ((model.dampedStep r radius damping).damping = 0 →
      (model.dampedStep r radius damping).x = model.undamped r) := by
  by_cases hnear : model.scaledNorm (model.undamped r) ≤ 1.1 * radius
  · rw [dampedStep_of_near hnear]
    exact ⟨iff_of_true rfl hnear, fun _ => rfl⟩
  · obtain ⟨i, hstops⟩ := dampedStep_stopsAt r damping hnear
    have hpos := hstops.damping_pos (sound_startSearch hradius (by linarith))
    exact ⟨iff_of_false hpos.ne' hnear, fun hzero => absurd hzero hpos.ne'⟩

theorem dampedStep_length :
    model.scaledNorm (model.dampedStep r radius damping).x ≤ 1.1 * radius ∨
      (model.firstSearch r radius damping).StopsAt model radius 9 9
        (model.dampedStep r radius damping) := by
  by_cases hnear : model.scaledNorm (model.undamped r) ≤ 1.1 * radius
  · rw [dampedStep_of_near hnear]
    exact .inl hnear
  · obtain ⟨i, hstops⟩ := dampedStep_stopsAt r damping hnear
    refine (hstops.scaledNorm_le_or_eq hradius).imp_right ?_
    rintro rfl
    exact hstops

end Near

section Contract

variable {a : Mat ℝ m n} {tall : n ≤ m}
  (hr : ∀ i j, upperPart r i j = upperPart (PivotedQR.factor a tall).workspace i j)
  (hpivot : model.pivot = (PivotedQR.factor a tall).pivot)

include hr hpivot

theorem dampedSquares_le_of_normal {c : ℝ} (hc : 0 ≤ c) (hx : model.SolvesNormal r c x)
    {f : Vector ℝ m} (hf : (PivotedQR.factor a tall).project f = model.qtf) (y : Vector ℝ n) :
    dampedSquares a f c model.scale x ≤ dampedSquares a f c model.scale y := by
  refine (dampedSquares_minimal_iff hc).2 (fun e => ?_) y
  obtain ⟨j, rfl⟩ := (PivotedQR.exchanges a tall).surjective e
  have hnormal := hx j
  rw [hpivot, ← hf] at hnormal
  refine (PivotedQR.dampedSlope_pivot a tall hr f c model.scale x j).trans (sub_eq_zero.2 ?_)
  exact hnormal

theorem meetsContract (hscale : ∀ e : Fin n, 0 < model.scale[e]) (hradius : 0 < radius)
    (damping : ℝ) : model.MeetsContract (PivotedQR.factor a tall) a r radius damping
      (model.dampedStep r radius damping) := by
  have hdistinct : Distinct model.pivot := by
    rw [hpivot]
    exact PivotedQR.distinct_factor a tall
  have hrank := PivotedQR.revealsRank_of_upperPart a tall hr
  have hstep : model.IsDampedStep r (model.dampedStep r radius damping) :=
    isDampedStep_dampedStep hdistinct hscale hrank hradius
  have hbasic := isBasic_undamped hdistinct hrank
  have hunique : ∀ y, model.IsBasic r y ↔ y = model.undamped r := by
    intro y
    refine ⟨fun hy => hy.eq hdistinct hbasic, ?_⟩
    rintro rfl
    exact hbasic
  exact
    { damping_nonneg := hstep.damping_nonneg
      normal := hstep.normal
      head := PivotedQR.exists_project_eq a tall _
      minimal := fun f => dampedSquares_le_of_normal hr hpivot hstep.damping_nonneg hstep.normal
      basic := ⟨model.undamped r, hunique, dampedStep_damping_eq_zero r hradius damping⟩
      length := dampedStep_length r hradius damping }

end Contract

/-- The step for a trust region keeps to its contract for every factorized matrix, whatever its rank,
whatever stands below the triangle, and every right-hand side, positive scale, positive radius and
first guess. It does not matter what becomes of a quotient by zero, as there is none. -/
theorem dampedStep_meets_contract (a : Mat ℝ m n) (tall : n ≤ m) :
    ∃ qr, PivotedQR.factor? a = .ok qr ∧
      ∀ r : Mat ℝ n n, (∀ i j : Fin n, i ≤ j → r[i][j] = qr.r[i][j]) →
      ∀ model : StepModel ℝ n, model.pivot = qr.pivot → (∀ e : Fin n, 0 < model.scale[e]) →
      ∀ radius damping : ℝ, 0 < radius →
        (∀ q, IsQuotient q → @dampedStep ℝ (dividing q) n model r radius damping =
          model.dampedStep r radius damping) ∧
        model.MeetsContract qr a r radius damping (model.dampedStep r radius damping) := by
  refine ⟨_, PivotedQR.factor?_eq_ok a tall, ?_⟩
  intro r hr model hpivot hscale radius damping hradius
  have hupper : ∀ i j, upperPart r i j = upperPart (PivotedQR.factor a tall).workspace i j := by
    intro i j
    rcases le_or_gt i j with hij | hji
    · rw [← PivotedQR.getElem_r, upperPart, if_pos hij, hr i j hij]
    · rw [upperPart_of_lt _ hji, upperPart_of_lt _ hji]
  have hdistinct : Distinct model.pivot := by
    rw [hpivot]
    exact PivotedQR.distinct_factor a tall
  refine ⟨fun q hq => dampedStep_dividing hq ?_, meetsContract hupper hpivot hscale hradius damping⟩
  exact zero_notMem_dampedStepDivisors hdistinct hscale hradius damping

theorem dampedStep_meets_contract_proportional :
    2 ≤ 3 ∧ ∃ qr, PivotedQR.factor? PivotedQR.proportional = .ok qr ∧
      (⟨qr.pivot, #v[1, 2], #v[3, 4]⟩ : StepModel ℝ 2).MeetsContract qr PivotedQR.proportional qr.r
        (1 / 10) 0 ((⟨qr.pivot, #v[1, 2], #v[3, 4]⟩ : StepModel ℝ 2).dampedStep qr.r (1 / 10) 0) := by
  obtain ⟨qr, hqr, hcontract⟩ := dampedStep_meets_contract PivotedQR.proportional (by decide)
  refine ⟨by decide, qr, hqr, (hcontract qr.r (fun _ _ _ => rfl) ⟨qr.pivot, #v[1, 2], #v[3, 4]⟩ rfl
    (fun e => ?_) (1 / 10) 0 (by norm_num)).2⟩
  fin_cases e <;> simp [getElem_eq_val]

end StepModel

end LeastSquares
