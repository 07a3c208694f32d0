import LeastSquares.Proofs.DampedStep
import LeastSquares.Proofs.Divisors

/-!
What a damped step divides by. Most divisors are positive whatever the step is computed from; the
norms in the corrections of the damping are not, and vanish where the step does. A step without
damping that reaches beyond the radius rules this out: the gradient is not zero then, and no damped
step is.
-/

namespace LeastSquares

variable {n : ℕ} {q : ℝ → ℝ → ℝ}

/-! ### The damped solve -/

namespace Rotation

variable {α : Type} [Scalar α]

def clearingDivisors (a b : α) : List α :=
  if Scalar.abs a < Scalar.abs b then
    let cotan := a / b
    [b, Scalar.sqrt (0.25 + 0.25 * cotan * cotan)]
  else
    let tan := b / a
    [a, Scalar.sqrt (0.25 + 0.25 * tan * tan)]

theorem root_pos (t : ℝ) : 0 < Scalar.sqrt (0.25 + 0.25 * t * t) :=
  Real.sqrt_pos.2 (by nlinarith [mul_self_nonneg t])

theorem zero_notMem_clearingDivisors {a b : ℝ} (hb : b ≠ 0) : 0 ∉ clearingDivisors a b := by
  unfold clearingDivisors
  dsimp only
  split
  · simp [hb.symm, (root_pos (a / b)).ne]
  · next hle =>
    have ha : a ≠ 0 := abs_pos.1 ((abs_pos.2 hb).trans_le (not_lt.1 hle))
    simp [ha.symm, (root_pos (b / a)).ne]

theorem clearing_dividing (hq : IsQuotient q) {a b : ℝ} (h : 0 ∉ clearingDivisors a b) :
    @clearing ℝ (dividing q).toScalar a b = clearing a b := by
  unfold clearingDivisors at h
  unfold clearing
  refine ite_congr rfl (fun hlt => ?_) fun hge => ?_
  · rw [if_pos hlt] at h
    simp only [List.mem_cons, List.not_mem_nil, or_false, not_or] at h
    dsimp only
    rw [hq.div_eq a (Ne.symm h.1)]
    exact congrArg (fun t => (⟨t * (a / b), t⟩ : Rotation ℝ)) (hq.div_eq 0.5 (Ne.symm h.2))
  · rw [if_neg hge] at h
    simp only [List.mem_cons, List.not_mem_nil, or_false, not_or] at h
    dsimp only
    rw [hq.div_eq b (Ne.symm h.1)]
    exact congrArg (fun t => (⟨t, t * (b / a)⟩ : Rotation ℝ)) (hq.div_eq 0.5 (Ne.symm h.2))

end Rotation

namespace DampedSolve

section Lists

variable {α : Type} [Scalar α]

namespace Stage

def rotateDivisors (s : Stage α n) (k : Fin n) : List α :=
  if s.row[k] == 0 then [] else Rotation.clearingDivisors s.r[k][k] s.row[k]

def eliminateDivisors (s : Stage α n) (j : Fin n) (d : α) : List α :=
  if d != 0 then loopDivisors rotate rotateDivisors (s.load j d) (starting j) else []

end Stage

def backSubstituteDivisors (diagonal : Vector α n) : List α :=
  ((List.finRange n).filter (·.val < diagonal.toList.findIdx (· == 0))).map (diagonal[·])

end Lists

namespace Stage

variable {s : Stage ℝ n}

theorem zero_notMem_rotateDivisors (k : Fin n) : 0 ∉ s.rotateDivisors k := by
  unfold rotateDivisors
  split
  · exact List.not_mem_nil
  · next hrow => exact Rotation.zero_notMem_clearingDivisors (by simpa using hrow)

theorem zero_notMem_eliminateDivisors (j : Fin n) (d : ℝ) : 0 ∉ s.eliminateDivisors j d := by
  unfold eliminateDivisors
  split
  · exact notMem_loopDivisors fun s k _ => s.zero_notMem_rotateDivisors k
  · exact List.not_mem_nil

theorem rotate_dividing (hq : IsQuotient q) {k : Fin n} (h : 0 ∉ s.rotateDivisors k) :
    @rotate ℝ (dividing q).toScalar n s k = s.rotate k := by
  unfold rotateDivisors at h
  unfold rotate
  refine ite_congr rfl (fun _ => rfl) fun hrow => ?_
  rw [if_neg hrow] at h
  dsimp only
  rw [Rotation.clearing_dividing hq h]
  rfl

theorem eliminate_dividing (hq : IsQuotient q) {j : Fin n} {d : ℝ} (entry : ℝ)
    (h : 0 ∉ s.eliminateDivisors j d) :
    @eliminate ℝ (dividing q).toScalar n s j d entry = s.eliminate j d entry := by
  have hrow : (if d != 0 then (starting j).foldl (@rotate ℝ (dividing q).toScalar n) (s.load j d)
      else s) = if d != 0 then (starting j).foldl rotate (s.load j d) else s := by
    refine ite_congr rfl (fun hd => ?_) fun _ => rfl
    rw [eliminateDivisors, if_pos hd] at h
    exact foldl_eq_of_loopDivisors (fun _ _ _ => rotate_dividing hq) h
  unfold eliminate
  dsimp only
  rw [← hrow]
  rfl

end Stage

theorem zero_notMem_backSubstituteDivisors (diagonal : Vector ℝ n) :
    0 ∉ backSubstituteDivisors diagonal := by
  simp only [backSubstituteDivisors, List.mem_map, List.mem_filter, List.mem_finRange, true_and,
    decide_eq_true_eq, not_exists, not_and]
  exact fun j hj => ne_zero_of_lt_findIdx hj

theorem backSubstitute_dividing (hq : IsQuotient q) (r : Mat ℝ n n) {diagonal : Vector ℝ n}
    (rhs : Vector ℝ n) (h : 0 ∉ backSubstituteDivisors diagonal) :
    @backSubstitute ℝ (dividing q).toScalar n r diagonal rhs = backSubstitute r diagonal rhs := by
  unfold backSubstitute
  refine List.foldl_ext _ _ _ fun z j hj => ?_
  have hne : diagonal[j] ≠ 0 := fun hzero =>
    h (List.mem_map.2 ⟨j, List.mem_reverse.1 hj, hzero⟩)
  dsimp only
  rw [hq.div_eq _ hne]
  rfl

end DampedSolve

open DampedSolve

def dampedSolveDivisors {α : Type} [Scalar α] (r : Mat α n n) (pivot : Vector (Fin n) n)
    (damping qtb : Vector α n) : List α :=
  let start : Stage α n := ⟨mirror r, qtb, Vector.replicate n 0, 0⟩
  let s := (List.finRange n).foldl (fun s j => s.eliminate j damping[pivot[j]] r[j][j]) start
  loopDivisors (fun s j => s.eliminate j damping[pivot[j]] r[j][j])
    (fun s j => s.eliminateDivisors j damping[pivot[j]]) start (List.finRange n) ++
      backSubstituteDivisors s.row

theorem zero_notMem_dampedSolveDivisors (r : Mat ℝ n n) (pivot : Vector (Fin n) n)
    (damping qtb : Vector ℝ n) : 0 ∉ dampedSolveDivisors r pivot damping qtb := by
  rw [dampedSolveDivisors, List.mem_append, not_or]
  exact ⟨notMem_loopDivisors fun s j _ => s.zero_notMem_eliminateDivisors j _,
    zero_notMem_backSubstituteDivisors _⟩

theorem dampedSolve_dividing (hq : IsQuotient q) {r : Mat ℝ n n} {pivot : Vector (Fin n) n}
    {damping qtb : Vector ℝ n} (h : 0 ∉ dampedSolveDivisors r pivot damping qtb) :
    @dampedSolve ℝ (dividing q).toScalar n r pivot damping qtb = dampedSolve r pivot damping qtb := by
  rw [dampedSolveDivisors, List.mem_append, not_or] at h
  have hloop := foldl_eq_of_loopDivisors (fun s j _ => Stage.eliminate_dividing hq r[j][j]) h.1
  unfold dampedSolve
  dsimp only
  rw [← hloop] at h ⊢
  rw [← backSubstitute_dividing hq _ _ h.2]

/-! ### The damped step -/

namespace StepModel

section Lists

variable {α : Type} [NormedScalar α] (model : StepModel α n)

def solveTriangleDivisors (r : Mat α n n) : List α :=
  ((List.finRange n).filter (·.val < rank r)).map fun j => r[j][j]

def directionDivisors (x : Vector α n) : List α :=
  [Scalar.max (NormedScalar.norm (scaleBy model.scale x).toList) Scalar.minNormal]

def solveTransposedDivisors (r : Mat α n n) : List α := (List.finRange n).map fun j => r[j][j]

def correctionDivisors (radius : α) (w : Vector α n) : List α := [radius, NormedScalar.norm w.toList]

def lowerBoundDivisors (r : Mat α n n) (radius : α) : List α :=
  if rank r = n then
    let z := model.direction (model.undamped r)
    model.directionDivisors (model.undamped r) ++ solveTransposedDivisors r ++
      correctionDivisors radius (solveTransposed r z)
  else []

def gradientNormDivisors : List α := (List.finRange n).map fun j => model.scale[model.pivot[j]]

def upperBoundDivisors (r : Mat α n n) (radius : α) : List α :=
  model.gradientNormDivisors ++ radius ::
    if model.gradientNorm r / radius == 0 then [Scalar.min radius 0.1] else []

def startSearchDivisors (r : Mat α n n) (radius damping excess : α) : List α :=
  let clamped := Scalar.min (Scalar.max damping (model.lowerBound r radius excess))
    (model.upperBound r radius)
  model.lowerBoundDivisors r radius ++ model.upperBoundDivisors r radius ++
    if clamped == 0 then [model.scaledNorm (model.undamped r)] else []

def Attempt.solveTransposeDivisors (a : Attempt α n) : List α :=
  (List.finRange n).map fun j =>
    let d := a.solution.diagonal[j]
    if d == 0 then Scalar.minNormal else d

namespace Search

def attemptDivisors (s : Search α n) : List α :=
  let root := Scalar.sqrt s.candidate
  dampedSolveDivisors s.workspace model.pivot (model.scale.map fun d => root * d) model.qtf

def advanceDivisors (a : Attempt α n) (radius : α) : List α :=
  model.directionDivisors a.solution.x ++ a.solveTransposeDivisors ++
    correctionDivisors radius (a.solveTranspose (model.direction a.solution.x))

def runDivisors (radius : α) : Nat → Search α n → List α
  | 0, s => s.attemptDivisors model
  | corrections + 1, s =>
    let a := s.attempt model radius
    s.attemptDivisors model ++
      if a.isAcceptable s radius then []
      else advanceDivisors model a radius ++ runDivisors radius corrections (s.advance model a radius)

end Search

def dampedStepDivisors (r : Mat α n n) (radius damping : α) : List α :=
  let excess := model.scaledNorm (model.undamped r) - radius
  solveTriangleDivisors r ++
    if excess ≤ 0.1 * radius then []
    else
      model.startSearchDivisors r radius damping excess ++
        (model.startSearch r radius damping excess).runDivisors model radius maxCorrections

end Lists

/-! ### Vectors that do not vanish -/

/-- The first component of `z` that is not zero is that at `j`. -/
structure Leads (z : Vector ℝ n) (j : Fin n) : Prop where
  zero : ∀ i, i < j → z[i] = 0
  ne_zero : z[j] ≠ 0

theorem exists_leads {z : Vector ℝ n} {i : Fin n} (h : z[i] ≠ 0) : ∃ j, Leads z j := by
  obtain ⟨j, hj, hfirst⟩ := wellFounded_lt.has_min {j : Fin n | z[j] ≠ 0} ⟨i, h⟩
  exact ⟨j, fun i hi => by_contra fun hne => hfirst i hne hi, hj⟩

theorem Leads.put {z : Vector ℝ n} {i j : Fin n} {v : ℝ} (h : Leads z j) (hlt : i < j → v = 0)
    (heq : i = j → v ≠ 0) : Leads (put z i v) j where
  zero c hc := by
    rw [getElem_put]
    split
    · next hic => exact hlt (hic.trans_lt hc)
    · exact h.zero c hc
  ne_zero := by
    rw [getElem_put]
    split
    · next hij => exact heq hij
    · exact h.ne_zero

theorem Leads.norm_ne_zero {z : Vector ℝ n} {j : Fin n} (h : Leads z j) :
    NormedScalar.norm z.toList ≠ 0 := by
  rw [norm_toList, Ne, euclid_eq_zero, not_forall]
  exact ⟨j, h.ne_zero⟩

variable {model : StepModel ℝ n} {r : Mat ℝ n n} {radius : ℝ}

theorem zero_notMem_solveTriangleDivisors (r : Mat ℝ n n) : 0 ∉ solveTriangleDivisors r := by
  simp only [solveTriangleDivisors, List.mem_map, List.mem_filter, List.mem_finRange, true_and,
    decide_eq_true_eq, not_exists, not_and]
  intro j hj
  have hne := ne_zero_of_lt_findIdx hj
  rwa [Mat.diagonal, getElem_ofFn] at hne

theorem direction_norm_pos (model : StepModel ℝ n) (x : Vector ℝ n) :
    0 < Scalar.max (NormedScalar.norm (scaleBy model.scale x).toList) Scalar.minNormal :=
  minNormal_pos.trans_le (le_max_right _ _)

theorem zero_notMem_directionDivisors (x : Vector ℝ n) : 0 ∉ model.directionDivisors x := by
  simpa [directionDivisors] using (model.direction_norm_pos x).ne

theorem scaledNorm_eq_zero_iff (hscale : ∀ e : Fin n, 0 < model.scale[e]) {x : Vector ℝ n} :
    model.scaledNorm x = 0 ↔ ∀ e : Fin n, x[e] = 0 := by
  rw [scaledNorm, norm_toList, euclid_eq_zero]
  refine forall_congr' fun e => ?_
  rw [getElem_scaleBy, mul_eq_zero, or_iff_right (hscale e).ne']

theorem exists_leads_direction (hpivot : Distinct model.pivot)
    (hscale : ∀ e : Fin n, 0 < model.scale[e]) {x : Vector ℝ n} (hx : model.scaledNorm x ≠ 0) :
    ∃ j, Leads (model.direction x) j := by
  rw [Ne, scaledNorm_eq_zero_iff hscale, not_forall] at hx
  obtain ⟨e, hx⟩ := hx
  obtain ⟨j, rfl⟩ := (Finite.surjective_of_injective hpivot) e
  refine exists_leads (i := j) ?_
  have hpos := model.direction_norm_pos x
  simp only [direction, getElem_ofFn, getElem_scaleBy]
  exact mul_ne_zero (hscale _).ne' (div_ne_zero (mul_ne_zero (hscale _).ne' hx) hpos.ne')

theorem Leads.solveTransposed (hdiagonal : ∀ j : Fin n, r[j][j] ≠ 0) {z : Vector ℝ n} {j : Fin n}
    (h : Leads z j) : Leads (solveTransposed r z) j := by
  refine foldl_finRange (I := fun _ w => Leads w j) h fun c w hw => ?_
  -- up to `j` there is nothing to subtract, so that component `j` is only divided
  have hsum : c ≤ j → Scalar.sumFromZero ((before c).map fun i => r[i][c] * w[i]) = 0 := by
    intro hc
    rw [sumFromZero_eq]
    refine List.sum_eq_zero fun v hv => ?_
    obtain ⟨i, hi, rfl⟩ := List.mem_map.1 hv
    rw [hw.zero i ((mem_before.1 hi).trans_le hc), mul_zero]
  refine hw.put (fun hlt => ?_) fun heq => ?_
  · rw [hsum hlt.le, hw.zero c hlt, sub_zero, zero_div]
  · rw [hsum heq.le, sub_zero, heq]
    exact div_ne_zero hw.ne_zero (hdiagonal j)

theorem zero_notMem_solveTransposeDivisors (a : Attempt ℝ n) : 0 ∉ a.solveTransposeDivisors := by
  simp only [Attempt.solveTransposeDivisors, List.mem_map, List.mem_finRange, true_and, not_exists]
  intro j
  split
  · exact minNormal_pos.ne'
  · next hne => simpa using hne

theorem Leads.solveTranspose (a : Attempt ℝ n) {z : Vector ℝ n} {j : Fin n}
    (h : Leads z j) : Leads (a.solveTranspose z) j := by
  refine foldl_finRange (I := fun _ w => Leads w j) h fun c w hw => ?_
  have hd : (if a.solution.diagonal[c] == 0 then Scalar.minNormal else a.solution.diagonal[c]) ≠ 0 :=
    fun hzero => zero_notMem_solveTransposeDivisors a
      (List.mem_map.2 ⟨c, List.mem_finRange c, hzero⟩)
  constructor
  · intro i hi
    rw [getElem_ofFn]
    split
    · next hci => rw [hw.zero i hi, hw.zero c (hci.trans hi), zero_div, mul_zero, sub_zero]
    · split
      · next hic => rw [hw.zero c (hic.symm.trans_lt hi), zero_div]
      · exact hw.zero i hi
  · rw [getElem_ofFn]
    split
    · next hcj =>
      rw [hw.zero c hcj, zero_div, mul_zero, sub_zero]
      exact hw.ne_zero
    · split
      · next hjc =>
        rw [← hjc] at hd ⊢
        exact div_ne_zero hw.ne_zero hd
      · exact hw.ne_zero

/-- Where the gradient vanishes, the head of `Qᵗ·f` does. -/
theorem qtf_eq_zero_of_gradient (h : ∀ j, ∑ l, upperPart r l j * model.qtf[l] = 0) {l : Fin n}
    (hl : l.val < rank r) : model.qtf[l] = 0 := by
  -- forward substitution: row `l` of `Rᵗ` reaches no further than the diagonal
  induction l using WellFoundedLT.induction with
  | ind l ih =>
      have hother : ∀ i, i ≠ l → upperPart r i l * model.qtf[i] = 0 := by
        intro i hi
        rcases hi.lt_or_gt with hlt | hgt
        · rw [ih i hlt (Nat.lt_trans hlt hl), mul_zero]
        · rw [upperPart_of_lt r hgt, zero_mul]
      have hgradient := h l
      rw [Fintype.sum_eq_single l hother, upperPart_self] at hgradient
      refine (mul_eq_zero.1 hgradient).resolve_left fun hzero => ?_
      exact zero_notMem_solveTriangleDivisors r (List.mem_map.2 ⟨l, by simpa using hl, hzero⟩)

theorem undamped_eq_zero_of_gradient (hpivot : Distinct model.pivot)
    (h : ∀ j, ∑ l, upperPart r l j * model.qtf[l] = 0) (e : Fin n) : (model.undamped r)[e] = 0 := by
  have hrank : rank r ≤ n := findIdx_le r.diagonal
  have hzero : ∀ j : Fin n, (model.solveTriangle r)[j] = 0 := by
    refine foldl_reverse_take (I := fun _ z => ∀ j : Fin n, z[j] = 0) hrank (fun j => ?_)
      fun c _ z hz j => ?_
    · rw [getElem_ofFn]
      split
      · next hj => exact qtf_eq_zero_of_gradient h hj
      · rfl
    · rw [getElem_ofFn, hz c, hz j, zero_div, mul_zero, sub_zero, ite_self, ite_self]
  obtain ⟨j, rfl⟩ := (Finite.surjective_of_injective hpivot) e
  exact (getElem_unpermute hpivot _ j).trans (hzero j)

/-! ### No division by zero -/

section Step

variable (hpivot : Distinct model.pivot) (hscale : ∀ e : Fin n, 0 < model.scale[e])
  (hradius : 0 < radius)

include hradius

theorem zero_notMem_correctionDivisors {w : Vector ℝ n} {j : Fin n} (h : Leads w j) :
    0 ∉ correctionDivisors radius w := by
  simp [correctionDivisors, hradius.ne, h.norm_ne_zero.symm]

include hscale

theorem zero_notMem_upperBoundDivisors : 0 ∉ model.upperBoundDivisors r radius := by
  have hscaled : ∀ j : Fin n, model.scale[model.pivot[j]] ≠ 0 := fun j => (hscale _).ne'
  have hmin : Scalar.min radius 0.1 ≠ 0 := (lt_min hradius (by norm_num)).ne'
  simp only [upperBoundDivisors, gradientNormDivisors, List.mem_append, List.mem_map,
    List.mem_finRange, true_and, List.mem_cons, not_or, not_exists]
  refine ⟨hscaled, hradius.ne, ?_⟩
  split
  · simpa using hmin.symm
  · exact List.not_mem_nil

include hpivot

theorem zero_notMem_lowerBoundDivisors (hx : model.scaledNorm (model.undamped r) ≠ 0) :
    0 ∉ model.lowerBoundDivisors r radius := by
  unfold lowerBoundDivisors
  dsimp only
  split
  · next hfull =>
    have hdiagonal : ∀ j : Fin n, r[j][j] ≠ 0 := fun j hzero =>
      zero_notMem_solveTriangleDivisors r
        (List.mem_map.2 ⟨j, by simp [hfull], hzero⟩)
    obtain ⟨j, hj⟩ := exists_leads_direction hpivot hscale hx
    simp only [List.mem_append, not_or]
    refine ⟨⟨zero_notMem_directionDivisors _, ?_⟩,
      zero_notMem_correctionDivisors hradius (hj.solveTransposed hdiagonal)⟩
    simpa [solveTransposedDivisors] using hdiagonal
  · exact List.not_mem_nil

theorem zero_notMem_startSearchDivisors {damping excess : ℝ}
    (hx : model.scaledNorm (model.undamped r) ≠ 0) :
    0 ∉ model.startSearchDivisors r radius damping excess := by
  simp only [startSearchDivisors, List.mem_append, not_or]
  refine ⟨⟨zero_notMem_lowerBoundDivisors hpivot hscale hradius hx,
    zero_notMem_upperBoundDivisors hscale hradius⟩, ?_⟩
  split
  · simpa using hx.symm
  · exact List.not_mem_nil

omit hradius in
/-- A damped step vanishes only where the step without damping does. -/
theorem Search.Sound.scaledNorm_ne_zero {s : Search ℝ n} (h : s.Sound r)
    (hx : model.scaledNorm (model.undamped r) ≠ 0) :
    model.scaledNorm (s.attempt model radius).solution.x ≠ 0 := by
  intro hzero
  rw [scaledNorm_eq_zero_iff hscale] at hzero
  refine hx ((scaledNorm_eq_zero_iff hscale).2 (undamped_eq_zero_of_gradient hpivot fun j => ?_))
  have hnormal := h.attempt_normal radius hpivot hscale j
  simpa [hzero] using hnormal.symm

theorem zero_notMem_runDivisors (corrections : ℕ) {s : Search ℝ n} (h : s.Sound r) 
    (hx : model.scaledNorm (model.undamped r) ≠ 0) : 0 ∉ s.runDivisors model radius corrections := by
  have hattempt : ∀ s : Search ℝ n, 0 ∉ s.attemptDivisors model := fun s =>
    zero_notMem_dampedSolveDivisors _ _ _ _
  induction corrections generalizing s with
  | zero => exact hattempt s
  | succ corrections ih =>
      simp only [Search.runDivisors, List.mem_append, not_or]
      refine ⟨hattempt s, ?_⟩
      split
      · exact List.not_mem_nil
      · obtain ⟨j, hj⟩ := exists_leads_direction hpivot hscale
          (h.scaledNorm_ne_zero hpivot hscale hx)
        simp only [Search.advanceDivisors, List.mem_append, not_or]
        refine ⟨⟨⟨zero_notMem_directionDivisors _, zero_notMem_solveTransposeDivisors _⟩,
          zero_notMem_correctionDivisors hradius (hj.solveTranspose _)⟩, ih (h.advance _ ?_)⟩
        have hstep : model.IsDampedStep r (s.attempt model radius).step := h.attempt hpivot hscale
        exact hstep.workspace

/-- No damped step divides by zero. -/
theorem zero_notMem_dampedStepDivisors (damping : ℝ) :
    0 ∉ model.dampedStepDivisors r radius damping := by
  simp only [dampedStepDivisors, List.mem_append, not_or]
  refine ⟨zero_notMem_solveTriangleDivisors r, ?_⟩
  split
  · exact List.not_mem_nil
  · next hexcess =>
    have hbeyond : 0.1 * radius < model.scaledNorm (model.undamped r) - radius := not_le.1 hexcess
    have hx : 0 < model.scaledNorm (model.undamped r) := by linarith
    rw [List.mem_append, not_or]
    exact ⟨zero_notMem_startSearchDivisors hpivot hscale hradius hx.ne',
      zero_notMem_runDivisors hpivot hscale hradius _
        (sound_startSearch hradius (by linarith)) hx.ne'⟩

end Step

/-! ### With other quotients -/

section Dividing

variable (hq : IsQuotient q)

include hq

theorem undamped_dividing (h : 0 ∉ solveTriangleDivisors r) :
    @undamped ℝ (dividing q) n model r = model.undamped r := by
  refine congrArg (unpermute model.pivot) (List.foldl_ext _ _ _ fun z j hj => ?_)
  have hne : r[j][j] ≠ 0 := fun hzero => h (List.mem_map.2 ⟨j, List.mem_reverse.1 hj, hzero⟩)
  rw [hq.div_eq z[j] hne]

theorem direction_dividing {x : Vector ℝ n} (h : 0 ∉ model.directionDivisors x) :
    @direction ℝ (dividing q) n model x = model.direction x := by
  rw [directionDivisors, List.mem_singleton] at h
  refine congrArg Vector.ofFn (funext fun j => ?_)
  exact congrArg (model.scale[model.pivot[j]] * ·) (hq.div_eq _ (Ne.symm h))

theorem solveTransposed_dividing (h : 0 ∉ solveTransposedDivisors r) (z : Vector ℝ n) :
    @solveTransposed ℝ (dividing q) n r z = solveTransposed r z := by
  refine List.foldl_ext _ _ _ fun w j hj => ?_
  have hne : r[j][j] ≠ 0 := fun hzero => h (List.mem_map.2 ⟨j, hj, hzero⟩)
  exact congrArg (put w j) (hq.div_eq _ hne)

theorem correction_dividing {w : Vector ℝ n} (h : 0 ∉ correctionDivisors radius w) (excess : ℝ) :
    @correction ℝ (dividing q) n excess radius w = correction excess radius w := by
  simp only [correctionDivisors, List.mem_cons, List.not_mem_nil, or_false, not_or] at h
  unfold correction
  dsimp only
  rw [hq.div_eq excess (Ne.symm h.1)]
  exact (hq.div_eq _ (Ne.symm h.2)).trans (congrArg (· / _) (hq.div_eq _ (Ne.symm h.2)))

theorem lowerBound_dividing (htriangle : 0 ∉ solveTriangleDivisors r)
    (h : 0 ∉ model.lowerBoundDivisors r radius) (excess : ℝ) :
    @lowerBound ℝ (dividing q) n model r radius excess = model.lowerBound r radius excess := by
  unfold lowerBoundDivisors at h
  refine ite_congr rfl (fun hfull => ?_) fun _ => rfl
  rw [if_pos hfull] at h
  simp only [List.mem_append, not_or] at h
  rw [undamped_dividing hq htriangle, direction_dividing hq h.1.1, solveTransposed_dividing hq h.1.2,
    correction_dividing hq h.2]

theorem gradientNorm_dividing (h : 0 ∉ model.gradientNormDivisors) (r : Mat ℝ n n) :
    @gradientNorm ℝ (dividing q) n model r = model.gradientNorm r := by
  refine congrArg (@NormedScalar.norm ℝ instNormedScalarReal) (List.map_congr_left fun j hj => ?_)
  exact hq.div_eq _ fun hzero => h (List.mem_map.2 ⟨j, hj, hzero⟩)

theorem upperBound_dividing (h : 0 ∉ model.upperBoundDivisors r radius) :
    @upperBound ℝ (dividing q) n model r radius = model.upperBound r radius := by
  simp only [upperBoundDivisors, List.mem_append, List.mem_cons, not_or] at h
  unfold upperBound
  dsimp only
  rw [gradientNorm_dividing hq h.1, hq.div_eq _ (Ne.symm h.2.1)]
  refine ite_congr rfl (fun hzero => ?_) fun _ => rfl
  rw [if_pos hzero, List.mem_singleton] at h
  exact hq.div_eq _ (Ne.symm h.2.2)

theorem solveTranspose_dividing {a : Attempt ℝ n} (h : 0 ∉ a.solveTransposeDivisors)
    (z : Vector ℝ n) :
    @Attempt.solveTranspose ℝ (dividing q) n a z = a.solveTranspose z := by
  refine List.foldl_ext _ _ _ fun w j hj => ?_
  have hne : (if a.solution.diagonal[j] == 0 then Scalar.minNormal else a.solution.diagonal[j]) ≠ 0 :=
    fun hzero => h (List.mem_map.2 ⟨j, hj, hzero⟩)
  have ht := hq.div_eq w[j] hne
  exact congrArg (fun t => Vector.ofFn fun i =>
    if j < i then w[i] - a.solution.workspace[i][j] * t else if i = j then t else w[i]) ht

variable {s : Search ℝ n}

theorem attempt_dividing (h : 0 ∉ s.attemptDivisors model) :
    @Search.attempt ℝ (dividing q) n model s radius = s.attempt model radius := by
  have hsolve := dampedSolve_dividing hq h
  unfold Search.attempt
  dsimp only
  rw [← hsolve]
  rfl

theorem advance_dividing {a : Attempt ℝ n} (h : 0 ∉ Search.advanceDivisors model a radius) :
    @Search.advance ℝ (dividing q) n model s a radius = s.advance model a radius := by
  simp only [Search.advanceDivisors, List.mem_append, not_or] at h
  unfold Search.advance
  dsimp only
  rw [direction_dividing hq h.1.1, solveTranspose_dividing hq h.1.2, correction_dividing hq h.2]
  rfl

theorem run_dividing (corrections : ℕ) (h : 0 ∉ s.runDivisors model radius corrections) :
    @Search.run ℝ (dividing q) n model radius corrections s = s.run model radius corrections := by
  induction corrections generalizing s with
  | zero => exact congrArg Attempt.step (attempt_dividing hq h)
  | succ corrections ih =>
      simp only [Search.runDivisors, List.mem_append, not_or] at h
      unfold Search.run
      dsimp only
      rw [attempt_dividing hq h.1]
      refine ite_congr rfl (fun _ => rfl) fun hgo => ?_
      rw [if_neg hgo, List.mem_append, not_or] at h
      rw [advance_dividing hq h.2.1]
      exact ih h.2.2

theorem startSearch_dividing {damping excess : ℝ} (htriangle : 0 ∉ solveTriangleDivisors r)
    (h : 0 ∉ model.startSearchDivisors r radius damping excess) :
    @startSearch ℝ (dividing q) n model r radius damping excess =
      model.startSearch r radius damping excess := by
  simp only [startSearchDivisors, List.mem_append, not_or] at h
  obtain ⟨⟨hlower, hupper⟩, hclamped⟩ := h
  have hgradient : 0 ∉ model.gradientNormDivisors := fun hmem =>
    hupper (List.mem_append.2 (.inl hmem))
  unfold startSearch
  dsimp only
  rw [lowerBound_dividing hq htriangle hlower, upperBound_dividing hq hupper,
    gradientNorm_dividing hq hgradient, undamped_dividing hq htriangle]
  refine congrArg (Search.mk · _ _ _ _) (ite_congr rfl (fun hzero => ?_) fun _ => rfl)
  rw [if_pos hzero, List.mem_singleton] at hclamped
  exact hq.div_eq _ (Ne.symm hclamped)

/-- A damped step is the same with all quotients that are what they should be. -/
theorem dampedStep_dividing {damping : ℝ} (h : 0 ∉ model.dampedStepDivisors r radius damping) :
    @dampedStep ℝ (dividing q) n model r radius damping = model.dampedStep r radius damping := by
  simp only [dampedStepDivisors, List.mem_append, not_or] at h
  unfold dampedStep
  dsimp only
  rw [undamped_dividing hq h.1]
  refine ite_congr rfl (fun _ => rfl) fun hexcess => ?_
  rw [if_neg hexcess, List.mem_append, not_or] at h
  rw [← run_dividing hq _ h.2.2, ← startSearch_dividing hq h.1 h.2.1]
  rfl

end Dividing

end StepModel

end LeastSquares
