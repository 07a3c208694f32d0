import LeastSquares.Proofs.NormalEquations

/-!
The damped step in other units. Units of the parameters and of the residuals change the normal
equations and the scale by factors, and the radius and every length by one factor, that of the
residuals. Then the two searches for the damping go hand in hand: they try the same dampings in the
same brackets, and find the same step, but for the units of the parameters. Only the smallest normal
number has no unit. It bounds the length by which a direction is divided, so that where the factor
is not one, this bound has to be idle.
-/

namespace LeastSquares

open Matrix

variable {n : ℕ}

namespace StepModel

/-! ### The lengths that are bounded from below -/

section Lengths

variable {α : Type} [NormedScalar α] (model : StepModel α n)

/-- The lengths of the steps for whose directions the damping is corrected. -/
def Search.runLengths (radius : α) : (corrections : Nat) → Search α n → List α
  | 0, _ => []
  | corrections + 1, s =>
    let a := s.attempt model radius
    if a.isAcceptable s radius then []
    else model.scaledNorm a.solution.x :: runLengths radius corrections (s.advance model a radius)

/-- The lengths that a damped step divides by, where they are not below the smallest normal
number. -/
def dampedStepLengths (r : Mat α n n) (radius damping : α) : List α :=
  let length := model.scaledNorm (model.undamped r)
  let excess := length - radius
  if excess ≤ 0.1 * radius then []
  else
    (if rank r = n then [length] else []) ++
      (model.startSearch r radius damping excess).runLengths model radius maxCorrections

end Lengths

/-- The lower bound of the lengths is idle for two steps, the lengths of the second `γ` times those
of the first, or `γ` does not matter. -/
def Idle (γ : ℝ) (lengths lengths' : List ℝ) : Prop :=
  γ = 1 ∨ (∀ d ∈ lengths, Scalar.minNormal ≤ d) ∧ ∀ d ∈ lengths', Scalar.minNormal ≤ d

theorem Idle.max_mul {γ d : ℝ} {lengths lengths' : List ℝ} (h : Idle γ lengths lengths')
    (hd : d ∈ lengths) (hd' : γ * d ∈ lengths') :
    max (γ * d) Scalar.minNormal = γ * max d Scalar.minNormal := by
  rcases h with rfl | ⟨hle, hle'⟩
  · rw [one_mul, one_mul]
  · rw [max_eq_left (hle d hd), max_eq_left (hle' _ hd')]

theorem Idle.mono {γ : ℝ} {l l' lengths lengths' : List ℝ} (h : Idle γ lengths lengths')
    (hl : l ⊆ lengths) (hl' : l' ⊆ lengths') : Idle γ l l' :=
  h.imp_right fun ⟨hle, hle'⟩ => ⟨fun d hd => hle d (hl hd), fun d hd => hle' d (hl' hd)⟩

/-! ### Models in other units -/

/-- The second model and triangle are the first with residuals `γ` times as large and parameters
divided by `u`. -/
structure Converts (γ : ℝ) (u : Fin n → ℝ) (model model' : StepModel ℝ n) (r r' : Mat ℝ n n) :
    Prop where
  factor_pos : 0 < γ
  unit_pos : ∀ a, 0 < u a
  presents : ∃ order order' gram moment, model.Presents r order gram moment ∧
    model'.Presents r' order' (.of fun a b => γ ^ 2 * (u a * u b) * gram a b)
      fun a => γ ^ 2 * u a * moment a
  scale_eq : ∀ a : Fin n, model'.scale[a] = γ * u a * model.scale[a]
  undamped_eq : ∀ a : Fin n, (model'.undamped r')[a] = (model.undamped r)[a] / u a
  rank_iff : rank r' = n ↔ rank r = n

theorem norm_eq_of_sq {v w : Vector ℝ n} (h : euclid v ^ 2 = euclid w ^ 2) :
    NormedScalar.norm v.toList = NormedScalar.norm w.toList := by
  rw [norm_toList, norm_toList]
  exact (pow_left_inj₀ (euclid_nonneg v) (euclid_nonneg w) two_ne_zero).1 h

theorem dampedGram_convert {γ : ℝ} {u : Fin n → ℝ} (hu : ∀ a, 0 < u a)
    {scale scale' : Vector ℝ n} (hscale : ∀ a : Fin n, scale'[a] = γ * u a * scale[a])
    (gram : Matrix (Fin n) (Fin n) ℝ) (c : ℝ) (y : Fin n → ℝ) :
    dampedGram (.of fun a b => γ ^ 2 * (u a * u b) * gram a b) scale' c *ᵥ (fun a => y a / u a) =
      fun a => γ ^ 2 * u a * (dampedGram gram scale c *ᵥ y) a := by
  ext a
  rw [dampedGram_mulVec, dampedGram_mulVec, hscale, mul_add, Finset.mul_sum]
  have ha := (hu a).ne'
  congr 1
  · refine Finset.sum_congr rfl fun b _ => ?_
    have hb := (hu b).ne'
    rw [Matrix.of_apply]
    field_simp
  · field_simp

noncomputable def directionAt (model : StepModel ℝ n) (x : Vector ℝ n) (a : Fin n) : ℝ :=
  model.scale[a] * (model.scale[a] * x[a] / max (model.scaledNorm x) Scalar.minNormal)

theorem getElem_direction (model : StepModel ℝ n) (x : Vector ℝ n) (j : Fin n) :
    (model.direction x)[j] = model.directionAt x model.pivot[j] := by
  simp only [direction, getElem_ofFn, getElem_scaleBy]
  rfl

theorem correction_mul {γ : ℝ} (hγ : 0 < γ) (excess radius : ℝ) {w w' : Vector ℝ n}
    (h : NormedScalar.norm w'.toList = NormedScalar.norm w.toList) :
    correction (γ * excess) (γ * radius) w' = correction excess radius w := by
  rw [correction, correction, h, mul_div_mul_left _ _ hγ.ne']

namespace Converts

variable {γ : ℝ} {u : Fin n → ℝ} {model model' : StepModel ℝ n} {r r' : Mat ℝ n n}
  (h : Converts γ u model model' r r')

include h

theorem scale_pos (hscale : ∀ a : Fin n, 0 < model.scale[a]) (a : Fin n) : 0 < model'.scale[a] := by
  rw [h.scale_eq]
  exact mul_pos (mul_pos h.factor_pos (h.unit_pos a)) (hscale a)

theorem scaledNorm_eq {x x' : Vector ℝ n} (hx : ∀ a : Fin n, x'[a] = x[a] / u a) :
    model'.scaledNorm x' = γ * model.scaledNorm x := by
  have hcomponent : ∀ a : Fin n, (scaleBy model'.scale x')[a] ^ 2 =
      γ ^ 2 * (scaleBy model.scale x)[a] ^ 2 := by
    intro a
    have ha := (h.unit_pos a).ne'
    rw [getElem_scaleBy, getElem_scaleBy, h.scale_eq, hx]
    field_simp
  rw [scaledNorm, scaledNorm, norm_toList, norm_toList, euclid, euclid]
  simp only [hcomponent]
  rw [← Finset.mul_sum, Real.sqrt_mul (sq_nonneg γ), Real.sqrt_sq h.factor_pos.le]

section Direction

variable {x x' : Vector ℝ n} (hx : ∀ a : Fin n, x'[a] = x[a] / u a)
  (hidle : max (γ * model.scaledNorm x) Scalar.minNormal =
    γ * max (model.scaledNorm x) Scalar.minNormal)

include hx hidle

theorem directionAt_eq (a : Fin n) : model'.directionAt x' a = γ * u a * model.directionAt x a := by
  have ha := (h.unit_pos a).ne'
  have hγ := h.factor_pos.ne'
  rw [directionAt, directionAt, h.scaledNorm_eq hx, hidle, h.scale_eq, hx]
  field_simp

/-- What solves the normal equations for a direction solves the converted ones for the other. -/
theorem dampedGram_directionAt {gram : Matrix (Fin n) (Fin n) ℝ} {c : ℝ} {y : Fin n → ℝ}
    (hy : dampedGram gram model.scale c *ᵥ y = model.directionAt x) :
    dampedGram (.of fun a b => γ ^ 2 * (u a * u b) * gram a b) model'.scale c *ᵥ
      (γ⁻¹ • fun a => y a / u a) = model'.directionAt x' := by
  rw [Matrix.mulVec_smul, dampedGram_convert h.unit_pos h.scale_eq, hy]
  ext a
  have hγ := h.factor_pos.ne'
  rw [h.directionAt_eq hx hidle, Pi.smul_apply, smul_eq_mul]
  field_simp

/-- The product of a direction with what solves for it, which Newton's rule divides by, has no unit. -/
theorem directionAt_dotProduct (y : Fin n → ℝ) :
    (model'.directionAt x' ⬝ᵥ γ⁻¹ • fun a => y a / u a) = model.directionAt x ⬝ᵥ y := by
  refine Finset.sum_congr rfl fun a _ => ?_
  have ha := (h.unit_pos a).ne'
  have hγ := h.factor_pos.ne'
  rw [h.directionAt_eq hx hidle, Pi.smul_apply, smul_eq_mul]
  field_simp

end Direction

theorem gradientNorm_eq : model'.gradientNorm r' = γ * model.gradientNorm r := by
  obtain ⟨order, order', gram, moment, hmodel, hmodel'⟩ := h.presents
  have hterm : ∀ a, (γ ^ 2 * u a * moment a / model'.scale[a]) ^ 2 =
      γ ^ 2 * (moment a / model.scale[a]) ^ 2 := by
    intro a
    have ha := (h.unit_pos a).ne'
    have hγ := h.factor_pos.ne'
    rw [h.scale_eq, ← mul_pow]
    congr 1
    field_simp
  rw [hmodel.gradientNorm_eq, hmodel'.gradientNorm_eq]
  simp only [hterm]
  rw [← Finset.mul_sum, Real.sqrt_mul (sq_nonneg γ), Real.sqrt_sq h.factor_pos.le]

theorem gradientNorm_ne_zero (hscale : ∀ a : Fin n, 0 < model.scale[a])
    (hx : model.scaledNorm (model.undamped r) ≠ 0) : model.gradientNorm r ≠ 0 := by
  obtain ⟨order, -, gram, moment, hmodel, -⟩ := h.presents
  exact hmodel.gradientNorm_ne_zero hscale hx

section Bounds

variable {radius excess : ℝ}

theorem lowerBound_eq
    (hidle : rank r = n → max (γ * model.scaledNorm (model.undamped r)) Scalar.minNormal =
      γ * max (model.scaledNorm (model.undamped r)) Scalar.minNormal) :
    model'.lowerBound r' (γ * radius) (γ * excess) = model.lowerBound r radius excess := by
  unfold lowerBound
  by_cases hrank : rank r = n
  · obtain ⟨order, order', gram, moment, hmodel, hmodel'⟩ := h.presents
    rw [if_pos hrank, if_pos (h.rank_iff.2 hrank)]
    refine correction_mul h.factor_pos _ _ (norm_eq_of_sq ?_)
    obtain ⟨y, hy⟩ := Matrix.mulVec_surjective_iff_isUnit.2 (hmodel.isUnit_gram hrank)
      (model.directionAt (model.undamped r))
    have hy' := h.dampedGram_directionAt h.undamped_eq (hidle hrank) (c := 0)
      ((congrArg (· *ᵥ y) (dampedGram_zero gram model.scale)).trans hy)
    rw [dampedGram_zero] at hy'
    rw [hmodel.euclid_solveTransposed hrank (fun j => by rw [getElem_direction, hmodel.pivot]) hy,
      hmodel'.euclid_solveTransposed (h.rank_iff.2 hrank)
        (fun j => by rw [getElem_direction, hmodel'.pivot]) hy',
      h.directionAt_dotProduct h.undamped_eq (hidle hrank)]
  · rw [if_neg hrank, if_neg (mt h.rank_iff.1 hrank)]

theorem upperBound_eq (hscale : ∀ a : Fin n, 0 < model.scale[a]) (hradius : 0 < radius)
    (hx : model.scaledNorm (model.undamped r) ≠ 0) :
    model'.upperBound r' (γ * radius) = model.upperBound r radius := by
  have hne : model.gradientNorm r / radius ≠ 0 :=
    div_ne_zero (h.gradientNorm_ne_zero hscale hx) hradius.ne'
  have hsame : model'.gradientNorm r' / (γ * radius) = model.gradientNorm r / radius := by
    rw [h.gradientNorm_eq, mul_div_mul_left _ _ h.factor_pos.ne']
  unfold upperBound
  dsimp only
  rw [hsame, if_neg (by simpa using hne), if_neg (by simpa using hne)]

end Bounds

end Converts

/-! ### Hand in hand -/

/-- The second search is where the first is, but for the unit of lengths. -/
structure Search.Alike (γ : ℝ) (s s' : Search ℝ n) : Prop where
  damping : s'.damping = s.damping
  lower : s'.lower = s.lower
  upper : s'.upper = s.upper
  excess : s'.excess = γ * s.excess

theorem Search.Alike.candidate_eq {γ : ℝ} {s s' : Search ℝ n} (hs : s.Alike γ s') :
    s'.candidate = s.candidate := by
  rw [candidate, candidate, hs.damping, hs.upper]

structure StepAlike (u : Fin n → ℝ) (d d' : DampedStep ℝ n) : Prop where
  damping : d'.damping = d.damping
  x : ∀ a : Fin n, d'.x[a] = d.x[a] / u a

namespace Converts

variable {γ : ℝ} {u : Fin n → ℝ} {model model' : StepModel ℝ n} {r r' : Mat ℝ n n}
  (h : Converts γ u model model' r r') (hscale : ∀ a : Fin n, 0 < model.scale[a])

include h hscale

section Attempt

variable {s s' : Search ℝ n} (hs : s.Sound r) (hs' : s'.Sound r') (halike : s.Alike γ s')

include hs hs' halike

theorem attempt_alike (radius : ℝ) :
    StepAlike u (s.attempt model radius).step (s'.attempt model' (γ * radius)).step := by
  refine ⟨halike.candidate_eq, ?_⟩
  obtain ⟨order, order', gram, moment, hmodel, hmodel'⟩ := h.presents
  have hnormal := hmodel.attempt_normal hs hscale radius
  have hnormal' := hmodel'.attempt_normal hs' (h.scale_pos hscale) (γ * radius)
  have hunit := hmodel'.isUnit_dampedGram hs' (h.scale_pos hscale)
  rw [halike.candidate_eq] at hnormal' hunit
  have hconverted := dampedGram_convert h.unit_pos h.scale_eq gram s.candidate
    (coords (s.attempt model radius).solution.x)
  rw [hnormal, ← hnormal'] at hconverted
  intro a
  exact (congrFun (Matrix.mulVec_injective_of_isUnit hunit hconverted) a).symm

theorem attempt_excess (radius : ℝ) : (s'.attempt model' (γ * radius)).excess =
    γ * (s.attempt model radius).excess := by
  have hlength := h.scaledNorm_eq (h.attempt_alike hscale hs hs' halike radius).x
  change model'.scaledNorm _ - γ * radius = γ * (model.scaledNorm _ - radius)
  rw [mul_sub]
  exact congrArg (· - γ * radius) hlength

theorem isAcceptable_eq (radius : ℝ) :
    (s'.attempt model' (γ * radius)).isAcceptable s' (γ * radius) =
      (s.attempt model radius).isAcceptable s radius := by
  have hγ := h.factor_pos
  have hnear : Scalar.abs (γ * (s.attempt model radius).excess) ≤ 0.1 * (γ * radius) ↔
      Scalar.abs (s.attempt model radius).excess ≤ 0.1 * radius := by
    change |_| ≤ _ ↔ |_| ≤ _
    rw [abs_mul, abs_of_pos hγ, mul_left_comm, mul_le_mul_iff_right₀ hγ]
  have hnegative : γ * s.excess < 0 ↔ s.excess < 0 := smul_neg_iff_of_pos_left hγ
  simp only [Attempt.isAcceptable, h.attempt_excess hscale hs hs' halike radius, halike.lower,
    halike.excess, hnear, mul_le_mul_iff_right₀ hγ, hnegative]

theorem correction_eq {radius : ℝ}
    (hidle : max (γ * model.scaledNorm (s.attempt model radius).solution.x) Scalar.minNormal =
      γ * max (model.scaledNorm (s.attempt model radius).solution.x) Scalar.minNormal) :
    correction (γ * (s.attempt model radius).excess) (γ * radius)
        ((s'.attempt model' (γ * radius)).solveTranspose
          (model'.direction (s'.attempt model' (γ * radius)).solution.x)) =
      correction (s.attempt model radius).excess radius
        ((s.attempt model radius).solveTranspose
          (model.direction (s.attempt model radius).solution.x)) := by
  have hx : ∀ a : Fin n, (s'.attempt model' (γ * radius)).solution.x[a] =
      (s.attempt model radius).solution.x[a] / u a := (h.attempt_alike hscale hs hs' halike radius).x
  obtain ⟨order, order', gram, moment, hmodel, hmodel'⟩ := h.presents
  refine correction_mul h.factor_pos _ _ (norm_eq_of_sq ?_)
  obtain ⟨y, hy⟩ := Matrix.mulVec_surjective_iff_isUnit.2 (hmodel.isUnit_dampedGram hs hscale)
    (model.directionAt (s.attempt model radius).solution.x)
  have hy' := h.dampedGram_directionAt hx hidle hy
  rw [← halike.candidate_eq] at hy'
  rw [hmodel.euclid_solveTranspose hs hscale (fun j => by rw [getElem_direction, hmodel.pivot]) hy,
    hmodel'.euclid_solveTranspose hs' (h.scale_pos hscale)
      (fun j => by rw [getElem_direction, hmodel'.pivot]) hy']
  exact h.directionAt_dotProduct hx hidle y

theorem advance_alike {radius : ℝ}
    (hidle : max (γ * model.scaledNorm (s.attempt model radius).solution.x) Scalar.minNormal =
      γ * max (model.scaledNorm (s.attempt model radius).solution.x) Scalar.minNormal) :
    (s.advance model (s.attempt model radius) radius).Alike γ
      (s'.advance model' (s'.attempt model' (γ * radius)) (γ * radius)) := by
  have hdamping : (s'.attempt model' (γ * radius)).damping = (s.attempt model radius).damping :=
    halike.candidate_eq
  have hexcess := h.attempt_excess hscale hs hs' halike radius
  have hlower : (s'.advance model' (s'.attempt model' (γ * radius)) (γ * radius)).lower =
      (s.advance model (s.attempt model radius) radius).lower := by
    simp only [Search.advance, hdamping, hexcess, halike.lower,
      mul_pos_iff_of_pos_left h.factor_pos]
  refine ⟨?_, hlower, ?_, hexcess⟩
  · change Scalar.max (s'.advance model' (s'.attempt model' (γ * radius)) (γ * radius)).lower _ =
      Scalar.max (s.advance model (s.attempt model radius) radius).lower _
    rw [hlower, hdamping, hexcess, h.correction_eq hscale hs hs' halike hidle]
  · have hnegative : γ * (s.attempt model radius).excess < 0 ↔
        (s.attempt model radius).excess < 0 := smul_neg_iff_of_pos_left h.factor_pos
    simp only [Search.advance, hdamping, hexcess, halike.upper, hnegative]

end Attempt

theorem run_alike {radius : ℝ} (corrections : ℕ) {s s' : Search ℝ n} (hs : s.Sound r)
    (hs' : s'.Sound r') (halike : s.Alike γ s')
    (hidle : Idle γ (s.runLengths model radius corrections)
      (s'.runLengths model' (γ * radius) corrections)) :
    StepAlike u (s.run model radius corrections) (s'.run model' (γ * radius) corrections) := by
  induction corrections generalizing s s' with
  | zero => exact h.attempt_alike hscale hs hs' halike radius
  | succ corrections ih =>
      have hstop := h.isAcceptable_eq hscale hs hs' halike radius
      have hstep := h.attempt_alike hscale hs hs' halike radius
      rw [Search.runLengths, Search.runLengths, hstop] at hidle
      rw [Search.run, Search.run, hstop]
      split
      · exact hstep
      · next hgoes =>
        rw [if_neg hgoes, if_neg hgoes] at hidle
        have hfirst := hidle.max_mul (List.mem_cons_self ..)
          (List.mem_cons.2 (.inl (h.scaledNorm_eq hstep.x).symm))
        refine ih ?_ ?_ (h.advance_alike hscale hs hs' halike hfirst)
          (hidle.mono (List.subset_cons_self ..) (List.subset_cons_self ..))
        · obtain ⟨_, _, _, _, hmodel, -⟩ := h.presents
          have hattempt : model.IsDampedStep r (s.attempt model radius).step :=
            hs.attempt hmodel.distinct hscale
          exact hs.advance _ hattempt.workspace
        · obtain ⟨_, _, _, _, -, hmodel'⟩ := h.presents
          have hattempt : model'.IsDampedStep r' (s'.attempt model' (γ * radius)).step :=
            hs'.attempt hmodel'.distinct (h.scale_pos hscale)
          exact hs'.advance _ hattempt.workspace

theorem startSearch_alike {radius damping excess : ℝ} (hradius : 0 < radius)
    (hx : model.scaledNorm (model.undamped r) ≠ 0)
    (hidle : rank r = n → max (γ * model.scaledNorm (model.undamped r)) Scalar.minNormal =
      γ * max (model.scaledNorm (model.undamped r)) Scalar.minNormal) :
    (model.startSearch r radius damping excess).Alike γ
      (model'.startSearch r' (γ * radius) damping (γ * excess)) := by
  refine ⟨?_, h.lowerBound_eq hidle, h.upperBound_eq hscale hradius hx, rfl⟩
  simp only [startSearch, h.lowerBound_eq hidle, h.upperBound_eq hscale hradius hx,
    h.gradientNorm_eq, h.scaledNorm_eq h.undamped_eq, mul_div_mul_left _ _ h.factor_pos.ne']

theorem dampedStep_alike {radius : ℝ} (hradius : 0 < radius) (damping : ℝ)
    (hidle : Idle γ (model.dampedStepLengths r radius damping)
      (model'.dampedStepLengths r' (γ * radius) damping)) :
    StepAlike u (model.dampedStep r radius damping)
      (model'.dampedStep r' (γ * radius) damping) := by
  have hlength := h.scaledNorm_eq h.undamped_eq
  have hexcess : model'.scaledNorm (model'.undamped r') - γ * radius =
      γ * (model.scaledNorm (model.undamped r) - radius) := by
    rw [hlength, mul_sub]
  have hnear : γ * (model.scaledNorm (model.undamped r) - radius) ≤ 0.1 * (γ * radius) ↔
      model.scaledNorm (model.undamped r) - radius ≤ 0.1 * radius := by
    rw [mul_left_comm, mul_le_mul_iff_right₀ h.factor_pos]
  rw [dampedStepLengths, dampedStepLengths, hexcess] at hidle
  rw [dampedStep, dampedStep, hexcess]
  by_cases hfar : model.scaledNorm (model.undamped r) - radius ≤ 0.1 * radius
  · rw [if_pos hfar, if_pos (hnear.2 hfar)]
    exact ⟨rfl, h.undamped_eq⟩
  · rw [if_neg hfar, if_neg (mt hnear.1 hfar)] at hidle
    rw [if_neg hfar, if_neg (mt hnear.1 hfar)]
    have hlong : 0.1 * radius < model.scaledNorm (model.undamped r) - radius := not_le.1 hfar
    have hpositive : 0 ≤ model.scaledNorm (model.undamped r) - radius := by linarith
    have hx : model.scaledNorm (model.undamped r) ≠ 0 := by
      intro hzero
      linarith
    refine h.run_alike hscale maxCorrections (sound_startSearch hradius hpositive)
      (sound_startSearch (mul_pos h.factor_pos hradius) (mul_nonneg h.factor_pos.le hpositive))
      (h.startSearch_alike hscale hradius hx fun hrank => ?_)
      (hidle.mono (List.subset_append_right ..) (List.subset_append_right ..))
    refine hidle.max_mul (List.mem_append_left _ ?_) (List.mem_append_left _ ?_)
    · rw [if_pos hrank]
      exact List.mem_singleton_self _
    · rw [if_pos (h.rank_iff.2 hrank), hlength]
      exact List.mem_singleton_self _

end Converts

/-! ### The matrix of earlier steps -/

theorem upperPart_congr {w r : Mat ℝ n n} (h : w.SameUpper r) : upperPart w = upperPart r := by
  funext i j
  rw [upperPart, upperPart]
  split
  · next hij => rw [h i j hij]
  · rfl

theorem Presents.congr {model : StepModel ℝ n} {w r : Mat ℝ n n} {order : Fin n ≃ Fin n}
    {gram : Matrix (Fin n) (Fin n) ℝ} {moment : Fin n → ℝ}
    (h : model.Presents r order gram moment) (hw : w.SameUpper r) :
    model.Presents w order gram moment where
  pivot := h.pivot
  revealsRank := h.revealsRank.congr fun i j => by rw [upperPart_congr hw]
  gram_eq := by
    rw [upperMatrix, upperPart_congr hw]
    exact h.gram_eq
  moment_eq := by
    rw [upperMatrix, upperPart_congr hw]
    exact h.moment_eq

/-- What earlier steps have left below the diagonals does not matter. -/
theorem Converts.congr {γ : ℝ} {u : Fin n → ℝ} {model model' : StepModel ℝ n}
    {r r' w w' : Mat ℝ n n} (h : Converts γ u model model' r r') (hw : w.SameUpper r)
    (hw' : w'.SameUpper r') :
    Converts γ u model model' w w' where
  factor_pos := h.factor_pos
  unit_pos := h.unit_pos
  presents := by
    obtain ⟨order, order', gram, moment, hmodel, hmodel'⟩ := h.presents
    exact ⟨order, order', gram, moment, hmodel.congr hw, hmodel'.congr hw'⟩
  scale_eq := h.scale_eq
  undamped_eq a := by
    rw [undamped_congr model hw, undamped_congr model' hw']
    exact h.undamped_eq a
  rank_iff := by
    rw [rank_congr hw, rank_congr hw']
    exact h.rank_iff

end StepModel

end LeastSquares
