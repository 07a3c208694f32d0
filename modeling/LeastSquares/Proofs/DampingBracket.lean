import LeastSquares.Proofs.DampedLength
import LeastSquares.Proofs.Elimination
import LeastSquares.Proofs.StepContract
import LeastSquares.Proofs.StepUnits
import LeastSquares.Proofs.Workspace

/-!
The bracket of the search for the damping. Where `R` has no zero on its diagonal and the step without
damping is too long, one damping gives a step as long as the radius. Both bounds of the search start
on their sides of it and stay there, as each is only moved to a damping that was tried. Newton's rule
does not pass it from below, so once a step is too long the search comes up to it.
-/

namespace LeastSquares

open Matrix

variable {n : ℕ}

namespace StepModel

variable {model : StepModel ℝ n} {r : Mat ℝ n n} {radius root : ℝ}

/-! ### Newton's rule -/

theorem correction_eq (excess radius : ℝ) (w : Vector ℝ n) :
    correction excess radius w = excess / radius / euclid w ^ 2 := by
  rw [correction, norm_toList, div_div _ (euclid w), ← pow_two]

theorem directionAt_eq {x : Vector ℝ n} (hfloor : Scalar.minNormal ≤ model.scaledNorm x) :
    model.directionAt x = (model.scaledNorm x)⁻¹ • weights model.scale *ᵥ coords x := by
  ext a
  rw [directionAt, max_eq_left hfloor, Pi.smul_apply, weights_mulVec, coords_apply, smul_eq_mul]
  ring

namespace Presents

variable {order : Fin n ≃ Fin n} {gram : Matrix (Fin n) (Fin n) ℝ} {moment : Fin n → ℝ}
  (h : model.Presents r order gram moment) (hscale : ∀ a : Fin n, 0 < model.scale[a])

include h hscale

section Newton

variable {p : ℝ} {x w : Vector ℝ n} {y : Fin n → ℝ} (hradius : 0 < radius)
  (hlong : radius < model.scaledNorm x) (hfloor : Scalar.minNormal ≤ model.scaledNorm x)
  (hy : (gram + p • weights model.scale) *ᵥ y = model.directionAt x)
  (hw : euclid w ^ 2 = model.directionAt x ⬝ᵥ y)

include hradius hlong hfloor hy hw

/-- A correction does not go past the damping of the radius. -/
theorem add_correction_le (hx : (gram + p • weights model.scale) *ᵥ coords x = moment) (hp : 0 ≤ p)
    (hroot : p < root) (hlength : model.scaledNorm (model.stepAt r root) = radius) :
    p + correction (model.scaledNorm x - radius) radius w ≤ root := by
  set length := model.scaledNorm x
  have hpos : 0 < length := hradius.trans hlong
  have hdirection : model.directionAt x = length⁻¹ • weights model.scale *ᵥ coords x :=
    directionAt_eq hfloor
  have hderivative : (gram + p • weights model.scale) *ᵥ (length • y) =
      weights model.scale *ᵥ coords x := by
    rw [mulVec_smul, hy, hdirection, smul_smul, mul_inv_cancel₀ hpos.ne', one_smul]
  have hsquare : coords x ⬝ᵥ weights model.scale *ᵥ (length • y) = length ^ 2 * euclid w ^ 2 := by
    rw [hw, hdirection, smul_dotProduct, smul_eq_mul, mulVec_smul, dotProduct_smul,
      dotProduct_mulVec_swap (posDef_weights hscale).posSemidef, smul_eq_mul, dotProduct_comm y]
    field_simp
  -- the reciprocal of the length is concave in the damping, so it lies below its tangent at `p`
  have htangent := length_tangent h.posSemidef_gram (posDef_weights hscale) hp hroot hx
    (h.stepAt_normal hscale (hp.trans_lt hroot)) hderivative hradius hpos
    (by rw [dotProduct_weights, hlength]) (dotProduct_weights model x)
  rw [hsquare] at htangent
  have hquotient : length - radius ≤ (root - p) * euclid w ^ 2 * radius := by
    refine le_of_mul_le_mul_left ?_ (pow_pos hpos 2)
    linarith
  have hle : (length - radius) / radius ≤ (root - p) * euclid w ^ 2 :=
    (div_le_iff₀ hradius).2 hquotient
  rw [correction_eq]
  rcases (sq_nonneg (euclid w)).eq_or_lt with hzero | hsquares
  · rw [← hzero, div_zero]
    linarith
  · have hcorrection := (div_le_iff₀ hsquares).2 hle
    linarith

theorem correction_pos (hp : 0 < p) : 0 < correction (model.scaledNorm x - radius) radius w := by
  have hpos : 0 < model.scaledNorm x := hradius.trans hlong
  have hne : y ≠ 0 := by
    rintro rfl
    rw [mulVec_zero, directionAt_eq hfloor] at hy
    have hvanish := (smul_eq_zero.1 hy.symm).resolve_left (inv_pos.2 hpos).ne'
    have hsquare := dotProduct_weights model x
    rw [hvanish, dotProduct_zero] at hsquare
    exact (pow_pos hpos 2).ne hsquare
  have hdefinite : (gram + p • weights model.scale).PosDef :=
    PosDef.posSemidef_add h.posSemidef_gram ((posDef_weights hscale).smul hp)
  have hsquares : 0 < euclid w ^ 2 := by
    rw [hw, ← hy, dotProduct_comm]
    exact hdefinite.dotProduct_mulVec_pos hne
  rw [correction_eq]
  exact div_pos (div_pos (sub_pos.2 hlong) hradius) hsquares

end Newton

end Presents

/-! ### The search -/

namespace Search

/-- The damping whose step is as long as the radius is between the bounds. -/
structure Brackets (root : ℝ) (s : Search ℝ n) : Prop where
  lower : s.lower ≤ root
  upper : root ≤ s.upper

variable {s : Search ℝ n}

theorem Sound.sameUpper (h : s.Sound r) : s.workspace.SameUpper r := by
  intro i j hij
  have hentry := h.workspace i j
  rwa [upperPart, upperPart, if_pos hij, if_pos hij] at hentry

theorem Sound.attempt_x (h : s.Sound r) (radius : ℝ) :
    (s.attempt model radius).solution.x = model.stepAt r s.candidate :=
  congrArg DampedSolution.x (dampedSolve_congr h.sameUpper _ _ _)

theorem Sound.attempt_excess (h : s.Sound r) (radius : ℝ) :
    (s.attempt model radius).excess = model.scaledNorm (model.stepAt r s.candidate) - radius := by
  rw [← h.attempt_x radius]
  rfl

/-- A bound moves only to a damping that was tried, and only to that side of it where the step was
too long or too short. -/
theorem Brackets.correct (h : s.Brackets root)
    (hlower : 0 < (s.attempt model radius).excess → s.candidate ≤ root)
    (hupper : (s.attempt model radius).excess < 0 → root ≤ s.candidate) :
    (Search.correct model radius s).Brackets root where
  lower := by
    show (if 0 < (s.attempt model radius).excess then Scalar.max s.lower s.candidate
      else s.lower) ≤ root
    split
    · next hlong => exact max_le h.lower (hlower hlong)
    · exact h.lower
  upper := by
    show root ≤ if (s.attempt model radius).excess < 0 then Scalar.min s.upper s.candidate
      else s.upper
    split
    · next hshort => exact le_min h.upper (hupper hshort)
    · exact h.upper

noncomputable def shift (model : StepModel ℝ n) (radius : ℝ) (s : Search ℝ n) : ℝ :=
  correction (s.attempt model radius).excess radius
    ((s.attempt model radius).solveTranspose
      (model.direction (s.attempt model radius).solution.x))

theorem candidate_correct (hpos : 0 < s.candidate) (hshift : 0 < shift model radius s)
    (hlong : 0 < (s.attempt model radius).excess) : (Search.correct model radius s).candidate =
      max (max s.lower s.candidate) (s.candidate + shift model radius s) := by
  have hdamping : (Search.correct model radius s).damping =
      max (max s.lower s.candidate) (s.candidate + shift model radius s) := by
    show Scalar.max (if 0 < (s.attempt model radius).excess then Scalar.max s.lower s.candidate
      else s.lower) _ = _
    rw [if_pos hlong]
    rfl
  have hne : (Search.correct model radius s).damping ≠ 0 := by
    rw [hdamping]
    exact (lt_max_of_lt_right (add_pos hpos hshift)).ne'
  rw [candidate, if_neg (by simpa using hne), hdamping]

theorem excess_ne_zero_of_refused (hradius : 0 < radius) (h : accepts model radius s = false) :
    (s.attempt model radius).excess ≠ 0 := by
  intro hzero
  refine (of_decide_eq_false h) (.inl ?_)
  show |(s.attempt model radius).excess| ≤ 0.1 * radius
  rw [hzero, abs_zero]
  positivity

theorem runLengths_of_refused (h : accepts model radius s = false) (corrections : ℕ) :
    s.runLengths model radius (corrections + 1) =
      model.scaledNorm (s.attempt model radius).solution.x ::
        (s.correct model radius).runLengths model radius corrections :=
  if_neg (ne_true_of_eq_false h)

/-- A direction is taken of each step that was refused. -/
theorem mem_runLengths {corrections l : ℕ} (hl : l < corrections)
    (hrefused : ∀ j ≤ l, accepts model radius ((Search.correct model radius)^[j] s) = false) :
    model.scaledNorm (((Search.correct model radius)^[l] s).attempt model radius).solution.x ∈
      s.runLengths model radius corrections := by
  induction l generalizing s corrections with
  | zero =>
      have hfirst : accepts model radius s = false := hrefused 0 le_rfl
      obtain ⟨corrections, rfl⟩ := Nat.exists_eq_succ_of_ne_zero hl.ne'
      rw [runLengths_of_refused hfirst]
      exact List.mem_cons_self
  | succ l ih =>
      have hfirst : accepts model radius s = false := hrefused 0 (Nat.zero_le _)
      obtain ⟨corrections, rfl⟩ := Nat.exists_eq_succ_of_ne_zero (Nat.zero_lt_of_lt hl).ne'
      rw [runLengths_of_refused hfirst]
      apply List.mem_cons_of_mem
      exact ih (Nat.lt_of_succ_lt_succ hl) fun j hj => hrefused (j + 1) (Nat.succ_le_succ hj)

theorem StopsAt.minNormal_le {corrections i l : ℕ} {d : DampedStep ℝ n} (hs : s.Sound r)
    (hstops : s.StopsAt model radius corrections i d)
    (hfloor : ∀ d ∈ s.runLengths model radius corrections, radius < d → Scalar.minNormal ≤ d)
    (hl : l < i)
    (hlong : radius <
      model.scaledNorm (model.stepAt r ((Search.correct model radius)^[l] s).candidate)) :
    Scalar.minNormal ≤
      model.scaledNorm (model.stepAt r ((Search.correct model radius)^[l] s).candidate) := by
  have hmem := mem_runLengths (hl.trans_le hstops.le) fun j hj => hstops.refused j (hj.trans_lt hl)
  rw [(hs.iterate l).attempt_x] at hmem
  exact hfloor _ hmem hlong

end Search

namespace Presents

variable {order : Fin n ≃ Fin n} {gram : Matrix (Fin n) (Fin n) ℝ} {moment : Fin n → ℝ}
  (h : model.Presents r order gram moment) (hscale : ∀ a : Fin n, 0 < model.scale[a])
  (hmoment : moment ≠ 0) (hradius : 0 < radius) (hroot : 0 < root)
  (hlength : model.scaledNorm (model.stepAt r root) = radius)

include h hscale hmoment hroot hlength

theorem radius_lt_iff {c : ℝ} (hc : 0 < c) :
    radius < model.scaledNorm (model.stepAt r c) ↔ c < root := by
  rw [← hlength]
  exact (h.strictAntiOn_scaledNorm hscale hmoment).lt_iff_gt hroot hc

theorem lt_radius_iff {c : ℝ} (hc : 0 < c) :
    model.scaledNorm (model.stepAt r c) < radius ↔ root < c := by
  rw [← hlength]
  exact (h.strictAntiOn_scaledNorm hscale hmoment).lt_iff_gt hc hroot

variable {s : Search ℝ n} (hs : s.Sound r)

include hs

theorem brackets_correct (hbrackets : s.Brackets root) :
    (s.correct model radius).Brackets root := by
  refine hbrackets.correct (fun hlong => ?_) fun hshort => ?_
  · rw [hs.attempt_excess, sub_pos] at hlong
    exact ((h.radius_lt_iff hscale hmoment hroot hlength hs.candidate_pos).1 hlong).le
  · rw [hs.attempt_excess, sub_neg] at hshort
    exact ((h.lt_radius_iff hscale hmoment hroot hlength hs.candidate_pos).1 hshort).le

include hradius

section Long

variable (hlong : radius < model.scaledNorm (model.stepAt r s.candidate))
  (hfloor : Scalar.minNormal ≤ model.scaledNorm (model.stepAt r s.candidate))

include hlong hfloor

/-- Newton's rule after a step that was too long: it goes up, and not too far. -/
theorem add_shift_mem : s.candidate + s.shift model radius ∈ Set.Ioc s.candidate root := by
  have hpos := hs.candidate_pos
  have hlt := (h.radius_lt_iff hscale hmoment hroot hlength hpos).1 hlong
  obtain ⟨y, hy⟩ := mulVec_surjective_iff_isUnit.2 (h.isUnit_dampedGram hs hscale)
    (model.directionAt (model.stepAt r s.candidate))
  have hw : euclid ((s.attempt model radius).solveTranspose
      (model.direction (s.attempt model radius).solution.x)) ^ 2 =
        model.directionAt (model.stepAt r s.candidate) ⬝ᵥ y := by
    refine h.euclid_solveTranspose hs hscale (fun j => ?_) hy
    rw [getElem_direction, h.pivot, hs.attempt_x]
  rw [dampedGram_eq] at hy
  rw [Search.shift, hs.attempt_excess]
  constructor
  · exact lt_add_of_pos_right _ (h.correction_pos hscale hradius hlong hfloor hy hw hpos)
  · exact h.add_correction_le hscale hradius hlong hfloor hy hw (h.stepAt_normal hscale hpos) hpos.le
      hlt hlength

theorem candidate_correct_mem (hlower : s.lower ≤ root) :
    (s.correct model radius).candidate ∈ Set.Ioc s.candidate root := by
  have hpos := hs.candidate_pos
  have hlt := (h.radius_lt_iff hscale hmoment hroot hlength hpos).1 hlong
  have hexcess : 0 < (s.attempt model radius).excess := by
    rw [hs.attempt_excess]
    exact sub_pos.2 hlong
  obtain ⟨hup, hle⟩ := h.add_shift_mem hscale hmoment hradius hroot hlength hs hlong hfloor
  rw [Search.candidate_correct hpos (pos_of_lt_add_right hup) hexcess]
  exact ⟨lt_max_of_lt_right hup, max_le (max_le hlower hlt.le) hle⟩

end Long

omit hradius in
theorem brackets_iterate (hbrackets : s.Brackets root) (l : ℕ) :
    ((Search.correct model radius)^[l] s).Brackets root := by
  induction l generalizing s with
  | zero => exact hbrackets
  | succ l ih => exact ih hs.correct (h.brackets_correct hscale hmoment hroot hlength hs hbrackets)

/-- Once a step is too long, the damping goes up to the last attempt, and not past the one that is
looked for. -/
theorem candidates_climb (hbrackets : s.Brackets root) {corrections i : ℕ} {d : DampedStep ℝ n}
    (hstops : s.StopsAt model radius corrections i d)
    (hfloor : ∀ d ∈ s.runLengths model radius corrections, radius < d → Scalar.minNormal ≤ d)
    {l : ℕ} (hlong : radius <
      model.scaledNorm (model.stepAt r ((Search.correct model radius)^[l] s).candidate)) :
    StrictMonoOn (fun j => ((Search.correct model radius)^[j] s).candidate) (Set.Icc l i) ∧
      ∀ j ∈ Set.Icc l i, ((Search.correct model radius)^[j] s).candidate ≤ root := by
  set after := fun j => (Search.correct model radius)^[j] s
  have hsound : ∀ j, (after j).Sound r := hs.iterate
  have hstep : ∀ j < i, radius < model.scaledNorm (model.stepAt r (after j).candidate) →
      (after (j + 1)).candidate ∈ Set.Ioc (after j).candidate root := by
    intro j hj hlong
    have hlower := (h.brackets_iterate hscale hmoment hroot hlength hs hbrackets j).lower
    show ((Search.correct model radius)^[j + 1] s).candidate ∈ _
    rw [Function.iterate_succ_apply']
    exact h.candidate_correct_mem hscale hmoment hradius hroot hlength (hsound j) hlong
      (hstops.minNormal_le hs hfloor hj hlong) hlower
  have hreach : ∀ j, l ≤ j → j ≤ i → (after j).candidate ≤ root ∧
      (j < i → radius < model.scaledNorm (model.stepAt r (after j).candidate)) := by
    intro j hj
    induction j, hj using Nat.le_induction with
    | base =>
        have hlt := (h.radius_lt_iff hscale hmoment hroot hlength (hsound l).candidate_pos).1 hlong
        exact fun _ => ⟨hlt.le, fun _ => hlong⟩
    | succ j _ ih =>
        intro hji
        have hle := (hstep j hji ((ih (Nat.le_of_succ_le hji)).2 hji)).2
        refine ⟨hle, fun hlt => ?_⟩
        -- a step of just the radius would have been accepted
        have hne := Search.excess_ne_zero_of_refused hradius (hstops.refused (j + 1) hlt)
        rw [(hsound (j + 1)).attempt_excess, sub_ne_zero] at hne
        refine hne.lt_or_gt.resolve_left fun hshort => hle.not_gt ?_
        exact (h.lt_radius_iff hscale hmoment hroot hlength (hsound (j + 1)).candidate_pos).1 hshort
  refine ⟨strictMonoOn_of_lt_add_one Set.ordConnected_Icc fun j _ hj hnext => ?_,
    fun j hj => (hreach j hj.1 hj.2).1⟩
  exact (hstep j hnext.2 ((hreach j hj.1 hj.2).2 hnext.2)).1

end Presents

/-! ### The whole search -/

theorem exists_presents (hpivot : Distinct model.pivot) (hdiagonal : ∀ j : Fin n, r[j][j] ≠ 0) :
    ∃ order gram moment, model.Presents r order gram moment := by
  set order : Fin n ≃ Fin n := Equiv.ofBijective (fun j => model.pivot[j])
    (Finite.injective_iff_bijective.1 hpivot)
  refine ⟨order, ((upperMatrix r)ᵀ * upperMatrix r).submatrix order.symm order.symm,
    ((upperMatrix r)ᵀ *ᵥ coords model.qtf) ∘ order.symm, ?_⟩
  exact
    { pivot := fun _ => rfl
      revealsRank := fun i _ _ hzero => absurd hzero (hdiagonal i)
      gram_eq := by simp
      moment_eq := by rw [Function.comp_assoc, Equiv.symm_comp_self, Function.comp_id] }

namespace Presents

variable {order : Fin n ≃ Fin n} {gram : Matrix (Fin n) (Fin n) ℝ} {moment : Fin n → ℝ}
  (h : model.Presents r order gram moment) (hscale : ∀ a : Fin n, 0 < model.scale[a])
  (hdiagonal : ∀ j : Fin n, r[j][j] ≠ 0) (hradius : 0 < radius) (hroot : 0 < root)
  (hlength : model.scaledNorm (model.stepAt r root) = radius)
  (hlong : radius < model.scaledNorm (model.undamped r))

include h hscale hdiagonal hradius hroot hlength hlong

theorem brackets_firstSearch (hfloor : Scalar.minNormal ≤ model.scaledNorm (model.undamped r))
    (damping : ℝ) : (model.firstSearch r radius damping).Brackets root where
  lower := by
    -- the lower bound is the correction of the step without damping
    have hrank := rank_of_diagonal hdiagonal
    obtain ⟨y, hy⟩ := mulVec_surjective_iff_isUnit.2 (h.isUnit_gram hrank)
      (model.directionAt (model.undamped r))
    have hw : euclid (solveTransposed r (model.direction (model.undamped r))) ^ 2 =
        model.directionAt (model.undamped r) ⬝ᵥ y :=
      h.euclid_solveTransposed hrank (fun j => by rw [getElem_direction, h.pivot]) hy
    have hundamped : (gram + (0 : ℝ) • weights model.scale) *ᵥ coords (model.undamped r) = moment := by
      rw [zero_smul, add_zero]
      exact h.undamped_normal
    have hzero : gram = gram + (0 : ℝ) • weights model.scale := by rw [zero_smul, add_zero]
    rw [hzero] at hy
    have hle := h.add_correction_le hscale hradius hlong hfloor hy hw hundamped le_rfl hroot hlength
    rw [zero_add] at hle
    show model.lowerBound r radius (model.scaledNorm (model.undamped r) - radius) ≤ root
    rw [lowerBound, if_pos hrank]
    exact hle
  upper := by
    have hgradient := h.mul_scaledNorm_le hscale (h.stepAt_normal hscale hroot)
    rw [hlength] at hgradient
    have hne : model.gradientNorm r / radius ≠ 0 :=
      div_ne_zero (h.gradientNorm_ne_zero hscale (hradius.trans hlong).ne') hradius.ne'
    show root ≤ model.upperBound r radius
    unfold upperBound
    dsimp only
    rw [if_neg (by simpa using hne)]
    exact (le_div_iff₀ hradius).2 hgradient

end Presents

/-- In exact arithmetic, where `R` has no zero on its diagonal and the step without damping is too
long: one damping gives a step as long as the radius, and the bounds of the search for the damping
have it between them before every attempt. Where a step is too long, Newton's rule corrects its damping
upward and never past that one, and so from the first such attempt on the search goes up to it. The
first guess does not matter. The lengths that a direction is divided by, where they exceed the radius,
may not be below the smallest normal number. -/
theorem search_brackets_damping (model : StepModel ℝ n) (r : Mat ℝ n n)
    (hdiagonal : ∀ j : Fin n, r[j][j] ≠ 0) (hpivot : Distinct model.pivot)
    (hscale : ∀ a : Fin n, 0 < model.scale[a]) {radius : ℝ} (hradius : 0 < radius)
    (hlong : 1.1 * radius < model.scaledNorm (model.undamped r)) (damping : ℝ)
    (hfloor : ∀ d ∈ model.dampedStepLengths r radius damping, radius < d → Scalar.minNormal ≤ d) :
    let s := fun l => (Search.correct model radius)^[l] (model.firstSearch r radius damping)
    ∃ root > 0, (∀ c > 0, model.scaledNorm (model.stepAt r c) = radius ↔ c = root) ∧
      ∃ i, (s 0).StopsAt model radius 9 i (model.dampedStep r radius damping) ∧
        (∀ l ≤ i, ((s l).attempt model radius).solution.x = model.stepAt r (s l).candidate ∧
          (s l).lower ≤ root ∧ root ≤ (s l).upper) ∧
        (∀ l < i, radius < model.scaledNorm (model.stepAt r (s l).candidate) →
          (s l).candidate + (s l).shift model radius ∈ Set.Ioc (s l).candidate root) ∧
        ∀ l ≤ i, radius < model.scaledNorm (model.stepAt r (s l).candidate) →
          StrictMonoOn (fun j => (s j).candidate) (Set.Icc l i) ∧
          ∀ j ∈ Set.Icc l i, (s j).candidate ≤ root := by
  intro s
  obtain ⟨order, gram, moment, h⟩ := exists_presents hpivot hdiagonal
  have hbeyond : radius < model.scaledNorm (model.undamped r) := by linarith
  have hmoment := h.moment_ne_zero hscale (hradius.trans hbeyond).ne'
  have hrank := rank_of_diagonal hdiagonal
  obtain ⟨root, hroot, hlength⟩ :=
    h.exists_scaledNorm_eq hscale (h.isUnit_gram hrank) hradius hbeyond
  have hunique : ∀ c > 0, model.scaledNorm (model.stepAt r c) = radius ↔ c = root := by
    intro c hc
    rw [← hlength]
    exact (h.strictAntiOn_scaledNorm hscale hmoment).injOn.eq_iff hc hroot
  have hnear : ¬ model.scaledNorm (model.undamped r) ≤ 1.1 * radius := not_le.2 hlong
  have hfar : ¬ model.scaledNorm (model.undamped r) - radius ≤ 0.1 * radius :=
    fun hle => hnear (by linarith)
  have hlengths : model.dampedStepLengths r radius damping =
      [model.scaledNorm (model.undamped r)] ++ (s 0).runLengths model radius 9 := by
    unfold dampedStepLengths
    dsimp only
    rw [if_neg hfar, if_pos hrank]
    rfl
  rw [hlengths, List.forall_mem_append, List.forall_mem_singleton] at hfloor
  have hsound : (s 0).Sound r := sound_startSearch hradius (sub_pos.2 hbeyond).le
  have hfirst : (s 0).Brackets root := h.brackets_firstSearch hscale hdiagonal hradius hroot hlength
    hbeyond (hfloor.1 hbeyond) damping
  obtain ⟨i, hstops⟩ := dampedStep_stopsAt r damping hnear
  refine ⟨root, hroot, hunique, i, hstops, fun l _ => ?_, fun l hl hlonger => ?_,
    fun l _ hlonger => ?_⟩
  · have hbrackets := h.brackets_iterate hscale hmoment hroot hlength hsound hfirst l
    exact ⟨(hsound.iterate l).attempt_x radius, hbrackets.lower, hbrackets.upper⟩
  · exact h.add_shift_mem hscale hmoment hradius hroot hlength (hsound.iterate l) hlonger
      (hstops.minNormal_le hsound hfloor.2 hl hlonger)
  · exact h.candidates_climb hscale hmoment hradius hroot hlength hsound hfirst hstops hfloor.2
      hlonger

namespace Exchanged

noncomputable def triangle : Mat ℝ 2 2 := #v[#v[3, 1], #v[0, 2]]

noncomputable def problem : StepModel ℝ 2 := ⟨exchanged, #v[1, 3], #v[3, 4]⟩

theorem diagonal_ne_zero : ∀ j : Fin 2, triangle[j][j] ≠ 0 :=
  Fin.forall_fin_two.2 ⟨three_ne_zero, two_ne_zero⟩

theorem distinct : Distinct problem.pivot := by
  show Distinct exchanged
  unfold Distinct
  decide

theorem scale_pos : ∀ a : Fin 2, 0 < problem.scale[a] :=
  Fin.forall_fin_two.2 ⟨one_pos, three_pos⟩

theorem two_le_scaledNorm : 2 ≤ problem.scaledNorm (problem.undamped triangle) := by
  have hrank : rank triangle = 2 := rank_of_diagonal diagonal_ne_zero
  have hrow := (subtracts_solveTriangle problem triangle).solved 1 (Nat.zero_le _)
    (by rw [hrank]; decide)
  have hfirst : upperPart triangle 1 0 = 0 := upperPart_of_lt triangle (by decide)
  have hsecond : upperPart triangle 1 1 = 2 := upperPart_self triangle 1
  have hright : problem.qtf[(1 : Fin 2)] = 4 := rfl
  rw [Fin.sum_univ_two, hfirst, hsecond, hright] at hrow
  have hundamped : (problem.undamped triangle)[(0 : Fin 2)] = 2 := by
    refine (getElem_unpermute distinct _ (1 : Fin 2)).trans ?_
    linarith
  have hscaled : (scaleBy problem.scale (problem.undamped triangle))[(0 : Fin 2)] = 2 := by
    rw [getElem_scaleBy, hundamped]
    exact one_mul 2
  refine (pow_le_pow_iff_left₀ zero_le_two (norm_nonneg _) two_ne_zero).1 ?_
  rw [norm_toList, euclid_sq, Fin.sum_univ_two, hscaled]
  exact le_add_of_nonneg_right (sq_nonneg _)

end Exchanged

/-- A search with a first guess of five. -/
theorem search_brackets_damping_exchanged :
    let s := fun l => (Search.correct Exchanged.problem (1 / 2))^[l]
      (Exchanged.problem.firstSearch Exchanged.triangle (1 / 2) 5)
    ∃ root > 0, (∀ c > 0, Exchanged.problem.scaledNorm
        (Exchanged.problem.stepAt Exchanged.triangle c) = 1 / 2 ↔ c = root) ∧
      ∃ i ≤ 9, (Exchanged.problem.dampedStep Exchanged.triangle (1 / 2) 5).damping =
          (s i).candidate ∧
        ∀ l ≤ i, (s l).lower ≤ root ∧ root ≤ (s l).upper := by
  have hlong : 1.1 * (1 / 2 : ℝ) <
      Exchanged.problem.scaledNorm (Exchanged.problem.undamped Exchanged.triangle) := by
    linarith [Exchanged.two_le_scaledNorm]
  have hfloor : ∀ d : ℝ, 1 / 2 < d → Scalar.minNormal ≤ d := by
    intro d hd
    exact ((minNormal_le_zpow (e := -1) (by norm_num)).trans (by norm_num)).trans hd.le
  obtain ⟨root, hroot, hunique, i, hstops, hbrackets, -⟩ :=
    search_brackets_damping Exchanged.problem Exchanged.triangle Exchanged.diagonal_ne_zero
      Exchanged.distinct Exchanged.scale_pos one_half_pos hlong 5 fun d _ => hfloor d
  refine ⟨root, hroot, hunique, i, hstops.le, ?_, fun l hl => (hbrackets l hl).2⟩
  rw [hstops.step]
  rfl

/-! ### A single parameter -/

theorem directionAt_sq_one {model : StepModel ℝ 1} {x : Vector ℝ 1}
    (hfloor : Scalar.minNormal ≤ model.scaledNorm x) :
    model.directionAt x 0 ^ 2 = model.scale[(0 : Fin 1)] ^ 2 := by
  have hpos : 0 < model.scaledNorm x := minNormal_pos.trans_le hfloor
  have hne : model.scaledNorm x ^ 2 ≠ 0 := pow_ne_zero 2 hpos.ne'
  have hsame : (model.scale[(0 : Fin 1)] * x[(0 : Fin 1)]) ^ 2 = model.scaledNorm x ^ 2 := by
    rw [scaledNorm_one, mul_pow, mul_pow, sq_abs, sq_abs]
  rw [directionAt, max_eq_left hfloor, mul_pow, div_pow, hsame, div_self hne, mul_one]

namespace Presents

section OneParameter

variable {model : StepModel ℝ 1} {r : Mat ℝ 1 1} {order : Fin 1 ≃ Fin 1}
  {gram : Matrix (Fin 1) (Fin 1) ℝ} {moment : Fin 1 → ℝ}
  (h : model.Presents r order gram moment) (hscale : ∀ a : Fin 1, 0 < model.scale[a])

include h hscale

/-- The reciprocal of the length of a step is affine in the damping. -/
theorem gram_mul_scaledNorm {c : ℝ} {x : Vector ℝ 1} (hc : 0 ≤ c)
    (hx : (gram + c • weights model.scale) *ᵥ coords x = moment) :
    (gram 0 0 + c * model.scale[(0 : Fin 1)] ^ 2) * model.scaledNorm x =
      model.scale[(0 : Fin 1)] * |moment 0| := by
  have hgram : 0 ≤ gram 0 0 := h.posSemidef_gram.diag_nonneg
  have hrow := congrFun hx 0
  rw [← dampedGram_eq, dampedGram_mulVec, Fin.sum_univ_one, coords_apply, ← add_mul] at hrow
  rw [scaledNorm_one, abs_of_pos (hscale 0), ← hrow, abs_mul,
    abs_of_nonneg (add_nonneg hgram (mul_nonneg hc (sq_nonneg _)))]
  ring

variable (hdiagonal : ∀ j : Fin 1, r[j][j] ≠ 0) (hradius : 0 < radius) (hroot : 0 < root)
  (hlength : model.scaledNorm (model.stepAt r root) = radius)
  (hfloor : Scalar.minNormal ≤ model.scaledNorm (model.undamped r))

include hdiagonal hradius hroot hlength hfloor

/-- So Newton's rule is exact. -/
theorem lowerBound_one :
    model.lowerBound r radius (model.scaledNorm (model.undamped r) - radius) = root := by
  have hrank := rank_of_diagonal hdiagonal
  obtain ⟨y, hy⟩ := mulVec_surjective_iff_isUnit.2 (h.isUnit_gram hrank)
    (model.directionAt (model.undamped r))
  have hw : euclid (solveTransposed r (model.direction (model.undamped r))) ^ 2 =
      model.directionAt (model.undamped r) ⬝ᵥ y :=
    h.euclid_solveTransposed hrank (fun j => by rw [getElem_direction, h.pivot]) hy
  have hundamped := h.gram_mul_scaledNorm hscale (x := model.undamped r) le_rfl (by
    rw [zero_smul, add_zero]
    exact h.undamped_normal)
  have hdamped := h.gram_mul_scaledNorm hscale hroot.le (h.stepAt_normal hscale hroot)
  have hsquare := directionAt_sq_one hfloor
  have hsolved : gram 0 0 * y 0 = model.directionAt (model.undamped r) 0 := by
    rw [← hy, mulVec, dotProduct, Fin.sum_univ_one]
  have hproduct : gram 0 0 * (model.directionAt (model.undamped r) 0 * y 0) =
      model.scale[(0 : Fin 1)] ^ 2 := by
    rw [← hsquare, ← hsolved]
    ring
  have hne : gram 0 0 * (model.directionAt (model.undamped r) 0 * y 0) ≠ 0 := by
    rw [hproduct]
    exact pow_ne_zero 2 (hscale 0).ne'
  rw [lowerBound, if_pos hrank, correction_eq, hw, dotProduct, Fin.sum_univ_one, div_div,
    div_eq_iff (mul_ne_zero hradius.ne' (right_ne_zero_of_mul hne))]
  rw [hlength] at hdamped
  refine mul_left_cancel₀ (left_ne_zero_of_mul hne) ?_
  linear_combination hundamped - hdamped - root * radius * hproduct

/-- Without a guess, the first step that is tried is as long as the radius. -/
theorem dampedStep_one (hlong : 1.1 * radius < model.scaledNorm (model.undamped r)) :
    (model.dampedStep r radius 0).damping = root ∧
      model.scaledNorm (model.dampedStep r radius 0).x = radius := by
  have hbeyond : radius < model.scaledNorm (model.undamped r) := by linarith
  have hbrackets := h.brackets_firstSearch hscale hdiagonal hradius hroot hlength hbeyond hfloor 0
  have hclamped : Scalar.min (Scalar.max 0 (model.lowerBound r radius
      (model.scaledNorm (model.undamped r) - radius))) (model.upperBound r radius) = root := by
    rw [h.lowerBound_one hscale hdiagonal hradius hroot hlength hfloor]
    exact (congrArg (min · _) (max_eq_right hroot.le)).trans (min_eq_left hbrackets.upper)
  have hcandidate : (model.firstSearch r radius 0).candidate = root := by
    have hne : ¬ (root == 0) = true := by simpa using hroot.ne'
    have hdamping : (model.firstSearch r radius 0).damping = root := by
      rw [firstSearch, startSearch, hclamped, if_neg hne]
    rw [Search.candidate, hdamping, if_neg hne]
  have hsound : (model.firstSearch r radius 0).Sound r :=
    sound_startSearch hradius (sub_pos.2 hbeyond).le
  have hx : ((model.firstSearch r radius 0).attempt model radius).solution.x = model.stepAt r root := by
    rw [hsound.attempt_x, hcandidate]
  obtain ⟨i, hstops⟩ := dampedStep_stopsAt r 0 (not_le.2 hlong)
  have hi : i = 0 := by
    refine Nat.eq_zero_of_not_pos fun hpos => ?_
    have hrefused := Search.excess_ne_zero_of_refused hradius (hstops.refused 0 hpos)
    rw [Function.iterate_zero_apply, hsound.attempt_excess, hcandidate, hlength, sub_self] at hrefused
    exact hrefused rfl
  subst hi
  rw [hstops.step]
  exact ⟨hcandidate, (congrArg model.scaledNorm hx).trans hlength⟩

end OneParameter

end Presents

end StepModel

end LeastSquares
