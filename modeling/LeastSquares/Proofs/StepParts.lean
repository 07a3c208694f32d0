import LeastSquares.Proofs.Reals

/-!
How far a step is shortened. From a point within the limits a step first loses its outward
components, those that lead out of a limit the parameter is on. What is left of it is scaled by one
factor that comes out of two loops: the first lowers it for every limit that a component would cross,
the second for every cap that the shortened step would still exceed. Both loops ask something of each
component on its own, so that the factor is the largest one in `(0, 1]` that all components admit.
-/

namespace LeastSquares

variable {k : ℕ}

namespace StepLimits

/-! ### One limit -/

section Limit

variable {limit : Option ℝ} {x d part t : ℝ}

theorem partAbove_le (lower : Option ℝ) (x d part : ℝ) : partAbove lower x d part ≤ part := by
  unfold partAbove
  split
  · split
    · exact min_le_left _ _
    · exact le_rfl
  · exact le_rfl

/-- Seen from the other side an upper limit is a lower one. -/
theorem partBelow_eq (upper : Option ℝ) (x d part : ℝ) :
    partBelow upper x d part = partAbove (upper.map (- ·)) (-x) (-d) part := by
  cases upper with
  | none => rfl
  | some u =>
      have hcross : u < x + d ↔ -x + -d < -u := by rw [← neg_add, neg_lt_neg_iff]
      have hratio : (u - x) / d = (-u - -x) / -d := by rw [← neg_sub', neg_div_neg_eq]
      simp only [partBelow, partAbove, Option.map_some, hcross, hratio]

theorem partBelow_le (upper : Option ℝ) (x d part : ℝ) : partBelow upper x d part ≤ part := by
  rw [partBelow_eq]
  exact partAbove_le _ _ _ _

theorem le_partAbove_iff (hx : ∀ l ∈ limit, l ≤ x) (ht : 0 ≤ t) (hone : t ≤ 1) :
    t ≤ partAbove limit x d part ↔ t ≤ part ∧ ∀ l ∈ limit, l ≤ x + t * d := by
  cases limit with
  | none => exact ⟨fun h => ⟨h, nofun⟩, And.left⟩
  | some l =>
      have hle : l ≤ x := hx l rfl
      have hall : (∀ l' ∈ some l, l' ≤ x + t * d) ↔ l ≤ x + t * d :=
        ⟨fun h => h l rfl, fun h _ hl => Option.mem_some.1 hl ▸ h⟩
      unfold partAbove
      dsimp only
      rw [hall]
      split
      · next hcross =>
        have hd : d < 0 := by linarith
        refine le_min_iff.trans (and_congr_right fun _ => ?_)
        rw [le_div_iff_of_neg hd, sub_le_iff_le_add']
      · next hstay =>
        -- between two points above the limit the step stays above it
        refine (and_iff_left ?_).symm
        have hfar : 0 ≤ t * (x + d - l) := mul_nonneg ht (by linarith)
        have hnear : 0 ≤ (1 - t) * (x - l) := mul_nonneg (by linarith) (by linarith)
        linarith

theorem le_partBelow_iff (hx : ∀ u ∈ limit, x ≤ u) (ht : 0 ≤ t) (hone : t ≤ 1) :
    t ≤ partBelow limit x d part ↔ t ≤ part ∧ ∀ u ∈ limit, x + t * d ≤ u := by
  have hmirrored : ∀ {y : ℝ}, (∀ l ∈ limit.map (- ·), l ≤ -y) ↔ ∀ u ∈ limit, y ≤ u := by
    intro y
    cases limit with
    | none => exact ⟨nofun, nofun⟩
    | some u => simp
  rw [partBelow_eq, le_partAbove_iff (hmirrored.2 hx) ht hone, mul_neg, ← neg_add, hmirrored]

/-- Inside a limit, or on it without a step beyond it, some of the step can be taken. -/
theorem partAbove_pos (hx : ∀ l ∈ limit, l ≤ x) (hd : limit = some x → 0 ≤ d) (hpart : 0 < part) :
    0 < partAbove limit x d part := by
  cases limit with
  | none => exact hpart
  | some l =>
      have hle : l ≤ x := hx l rfl
      unfold partAbove
      dsimp only
      split
      · next hcross =>
        have hneg : d < 0 := by linarith
        have hne : l ≠ x := by
          rintro rfl
          exact absurd (hd rfl) (not_le.2 hneg)
        exact lt_min hpart (div_pos_of_neg_of_neg (sub_neg.2 (lt_of_le_of_ne hle hne)) hneg)
      · exact hpart

theorem partBelow_pos (hx : ∀ u ∈ limit, x ≤ u) (hd : limit = some x → d ≤ 0) (hpart : 0 < part) :
    0 < partBelow limit x d part := by
  rw [partBelow_eq]
  refine partAbove_pos ?_ (fun h => ?_) hpart
  · simpa using hx
  · obtain ⟨u, hu, hneg⟩ := Option.map_eq_some_iff.1 h
    rw [neg_injective hneg] at hu
    exact neg_nonneg.2 (hd hu)

end Limit

/-! ### Both loops -/

section Loops

variable (limits : StepLimits ℝ k) (x step dropped : Vector ℝ k)

theorem partWithin_le (part : ℝ) (c : Fin k) : limits.partWithin x step dropped part c ≤ part := by
  unfold partWithin
  split
  · exact (partBelow_le _ _ _ _).trans (partAbove_le _ _ _ _)
  · exact le_rfl

theorem foldl_partWithin_le (l : List (Fin k)) (part : ℝ) :
    l.foldl (limits.partWithin x step dropped) part ≤ part := by
  induction l generalizing part with
  | nil => exact le_rfl
  | cons c l ih => exact (ih _).trans (partWithin_le _ _ _ _ _ _)

variable {limits x step dropped} {part excess t : ℝ}

/-- What the first loop asks of the part `t` of a step at component `c`. -/
def KeepsLimits (limits : StepLimits ℝ k) (x step dropped : Vector ℝ k) (t : ℝ) (c : Fin k) : Prop :=
  Scalar.epsilon < |step[c]| →
    (∀ l ∈ limits.lower[c], l ≤ x[c] + t * dropped[c]) ∧
      ∀ u ∈ limits.upper[c], x[c] + t * dropped[c] ≤ u

section Within

variable (hlower : ∀ c : Fin k, ∀ l ∈ limits.lower[c], l ≤ x[c])
  (hupper : ∀ c : Fin k, ∀ u ∈ limits.upper[c], x[c] ≤ u)

include hlower hupper

theorem le_partWithin_iff (ht : 0 ≤ t) (hone : t ≤ 1) (c : Fin k) :
    t ≤ limits.partWithin x step dropped part c ↔
      t ≤ part ∧ limits.KeepsLimits x step dropped t c := by
  unfold partWithin KeepsLimits
  split
  · next hlarge =>
    rw [le_partBelow_iff (hupper c) ht hone, le_partAbove_iff (hlower c) ht hone, and_assoc]
    exact and_congr_right fun _ => ⟨fun h _ => h, fun h => h hlarge⟩
  · next hsmall => exact (and_iff_left fun hlarge => absurd hlarge hsmall).symm

theorem le_foldl_partWithin_iff (ht : 0 ≤ t) (hone : t ≤ 1) (l : List (Fin k)) :
    t ≤ l.foldl (limits.partWithin x step dropped) part ↔
      t ≤ part ∧ ∀ c ∈ l, limits.KeepsLimits x step dropped t c := by
  induction l generalizing part with
  | nil => simp
  | cons c l ih =>
      rw [List.foldl_cons, ih, le_partWithin_iff hlower hupper ht hone, List.forall_mem_cons,
        and_assoc]

/-- The first loop leaves some of a step without outward components. -/
theorem foldl_partWithin_pos (hin : ∀ c : Fin k, limits.lower[c] = some x[c] → 0 ≤ dropped[c])
    (hout : ∀ c : Fin k, limits.upper[c] = some x[c] → dropped[c] ≤ 0) (hpart : 0 < part)
    (l : List (Fin k)) : 0 < l.foldl (limits.partWithin x step dropped) part := by
  induction l generalizing part with
  | nil => exact hpart
  | cons c l ih =>
      refine ih ?_
      unfold partWithin
      split
      · exact partBelow_pos (hupper c) (hout c) (partAbove_pos (hlower c) (hin c) hpart)
      · exact hpart

end Within

theorem capExcess_le_iff (ht : 0 ≤ t) (c : Fin k) :
    limits.capExcess dropped part excess c ≤ t ↔
      excess ≤ t ∧ ∀ cap ∈ limits.maxStep[c], |part * dropped[c] / cap| ≤ t := by
  unfold capExcess
  cases hcap : limits.maxStep[c] with
  | none => exact ⟨fun h => ⟨h, nofun⟩, And.left⟩
  | some cap =>
      simp only [Option.mem_some_iff, forall_eq']
      split
      · exact max_le_iff
      · next hzero =>
        have hratio : |part * dropped[c] / cap| ≤ t := by
          rw [show dropped[c] = 0 by simpa using hzero, mul_zero, zero_div, abs_zero]
          exact ht
        exact (and_iff_left hratio).symm

theorem foldl_capExcess_le_iff (ht : 0 ≤ t) (l : List (Fin k)) :
    l.foldl (limits.capExcess dropped part) excess ≤ t ↔
      excess ≤ t ∧ ∀ c ∈ l, ∀ cap ∈ limits.maxStep[c], |part * dropped[c] / cap| ≤ t := by
  induction l generalizing excess with
  | nil => simp
  | cons c l ih =>
      rw [List.foldl_cons, ih, capExcess_le_iff ht, List.forall_mem_cons, and_assoc]

end Loops

/-! ### The factor -/

section Restrict

variable (limits : StepLimits ℝ k) (x step : Vector ℝ k)

/-- The part of a step that the limits leave, before the caps. -/
noncomputable def limitPart : ℝ :=
  (List.finRange k).foldl
    (limits.partWithin x step (Vector.ofFn (limits.dropOutward x step))) 1

/-- How many times that part is too long for the caps, at least once. -/
noncomputable def capRatio : ℝ :=
  (List.finRange k).foldl
    (limits.capExcess (Vector.ofFn (limits.dropOutward x step)) (limits.limitPart x step)) 1

theorem one_le_capRatio : 1 ≤ limits.capRatio x step := by
  have hle : 1 ≤ max (limits.capRatio x step) 0 :=
    ((foldl_capExcess_le_iff (le_max_right _ _) _).1 (le_max_left _ _)).1
  exact (le_max_iff.1 hle).resolve_right (not_le.2 one_pos)

theorem ratio_le_capRatio {c : Fin k} {cap : ℝ} (hcap : limits.maxStep[c] = some cap) :
    |limits.limitPart x step * limits.dropOutward x step c / cap| ≤ limits.capRatio x step := by
  have hnonneg := zero_le_one.trans (one_le_capRatio limits x step)
  have hle := ((foldl_capExcess_le_iff hnonneg _).1 (le_refl (limits.capRatio x step))).2 c
    (List.mem_finRange c) cap hcap
  rwa [getElem_ofFn] at hle

/-- A ratio of one divides nothing away, so that both cases are one. -/
theorem restrict_fst :
    (limits.restrict x step).1 = limits.limitPart x step / limits.capRatio x step := by
  change (if 1 < limits.capRatio x step then _ else limits.limitPart x step) = _
  split
  · rfl
  · next hle => rw [le_antisymm (not_lt.1 hle) (one_le_capRatio limits x step), div_one]

theorem getElem_restrict_snd (c : Fin k) :
    (limits.restrict x step).2[c] =
      limits.dropOutward x step c * (limits.restrict x step).1 :=
  (getElem_map _ _ c).trans (by rw [getElem_ofFn]; rfl)

theorem restrict_part_le_one : (limits.restrict x step).1 ≤ 1 := by
  rw [restrict_fst, div_le_one (one_pos.trans_le (one_le_capRatio limits x step))]
  exact (foldl_partWithin_le limits x step _ _ 1).trans (one_le_capRatio limits x step)

/-! ### The longest part -/

/-- The step without its outward components: those that lead out of a limit the parameter is on. -/
noncomputable def inward : Vector ℝ k := Vector.ofFn fun c =>
  if limits.lower[c] = some x[c] ∧ step[c] < 0 ∨ limits.upper[c] = some x[c] ∧ 0 < step[c] then 0
  else step[c]

/-- The part `t` of the inward step keeps every parameter within its limits, those with a negligible
component of the step apart, and every component of the step within its cap. -/
structure Admits (t : ℝ) : Prop where
  lower : ∀ c : Fin k, Scalar.epsilon < |step[c]| → ∀ l ∈ limits.lower[c],
    l ≤ x[c] + t * (limits.inward x step)[c]
  upper : ∀ c : Fin k, Scalar.epsilon < |step[c]| → ∀ u ∈ limits.upper[c],
    x[c] + t * (limits.inward x step)[c] ≤ u
  cap : ∀ c : Fin k, ∀ cap ∈ limits.maxStep[c], |t * (limits.inward x step)[c]| ≤ cap

variable {limits x step} {c : Fin k}

/-- Within the limits, a value that has reached a limit is that limit. -/
theorem atLower_iff_eq {v : ℝ} (hv : ∀ l ∈ limits.lower[c], l ≤ v) :
    limits.atLower c v = true ↔ limits.lower[c] = some v := by
  unfold atLower
  cases hlower : limits.lower[c] with
  | none => exact ⟨nofun, nofun⟩
  | some l =>
      rw [Option.any_some, decide_eq_true_eq, Option.some_inj]
      exact ⟨(hv l hlower).antisymm, Eq.ge⟩

theorem atUpper_iff_eq {v : ℝ} (hv : ∀ u ∈ limits.upper[c], v ≤ u) :
    limits.atUpper c v = true ↔ limits.upper[c] = some v := by
  unfold atUpper
  cases hupper : limits.upper[c] with
  | none => exact ⟨nofun, nofun⟩
  | some u =>
      rw [Option.any_some, decide_eq_true_eq, Option.some_inj]
      exact ⟨fun h => h.antisymm (hv u hupper), Eq.le⟩

section Within

variable (hlower : ∀ c : Fin k, ∀ l ∈ limits.lower[c], l ≤ x[c])
  (hupper : ∀ c : Fin k, ∀ u ∈ limits.upper[c], x[c] ≤ u)

include hlower hupper

theorem dropOutward_eq (c : Fin k) : limits.dropOutward x step c = (limits.inward x step)[c] := by
  simp only [inward, getElem_ofFn, dropOutward, atLower_iff_eq (hlower c), atUpper_iff_eq (hupper c)]
  by_cases hout : limits.lower[c] = some x[c] ∧ step[c] < 0
  · rw [if_pos hout, if_neg fun h => lt_irrefl _ h.2, if_pos (Or.inl hout)]
  · rw [if_neg hout]
    exact if_congr (or_iff_right hout).symm rfl rfl

theorem limitPart_eq : limits.limitPart x step =
    (List.finRange k).foldl (limits.partWithin x step (limits.inward x step)) 1 := by
  have hdropped : Vector.ofFn (limits.dropOutward x step) = limits.inward x step :=
    ext_getElem fun c => (getElem_ofFn _ c).trans (dropOutward_eq hlower hupper c)
  rw [limitPart, hdropped]

theorem limitPart_pos : 0 < limits.limitPart x step := by
  rw [limitPart_eq hlower hupper]
  refine foldl_partWithin_pos hlower hupper (fun c hc => ?_) (fun c hc => ?_) one_pos _
  · rw [inward, getElem_ofFn]
    split
    · exact le_rfl
    · next hin => exact not_lt.1 fun hneg => hin (.inl ⟨hc, hneg⟩)
  · rw [inward, getElem_ofFn]
    split
    · exact le_rfl
    · next hin => exact not_lt.1 fun hpos => hin (.inr ⟨hc, hpos⟩)

variable (hcap : ∀ c : Fin k, ∀ cap ∈ limits.maxStep[c], 0 < cap)

include hcap

/-- A part of the step is no longer than the shortened one just where every component admits it. -/
theorem le_restrict_iff {t : ℝ} (ht : 0 < t) (hone : t ≤ 1) :
    t ≤ (limits.restrict x step).1 ↔ limits.Admits x step t := by
  have hpart : 0 < limits.limitPart x step := limitPart_pos hlower hupper
  have hratio := one_pos.trans_le (one_le_capRatio limits x step)
  have hlimits : t ≤ limits.limitPart x step ↔
      ∀ c, limits.KeepsLimits x step (limits.inward x step) t c := by
    rw [limitPart_eq hlower hupper, le_foldl_partWithin_iff hlower hupper ht.le hone]
    simp [hone]
  -- the caps see a step that the limits have shortened; what they ask of it, they ask of the part `t`
  have hcaps : limits.capRatio x step ≤ limits.limitPart x step / t ↔
      1 ≤ limits.limitPart x step / t ∧
        ∀ c : Fin k, ∀ cap ∈ limits.maxStep[c], |t * (limits.inward x step)[c]| ≤ cap := by
    rw [capRatio, foldl_capExcess_le_iff (div_pos hpart ht).le]
    refine and_congr_right fun _ => ?_
    simp only [List.mem_finRange, true_imp_iff, getElem_ofFn, dropOutward_eq hlower hupper]
    refine forall₃_congr fun c cap hc => ?_
    have hpos := hcap c cap hc
    rw [abs_div, abs_mul, abs_mul, abs_of_pos hpos, abs_of_pos hpart, abs_of_pos ht,
      div_le_div_iff₀ hpos ht, mul_assoc, mul_le_mul_iff_right₀ hpart, mul_comm t]
  calc t ≤ (limits.restrict x step).1
      ↔ limits.capRatio x step ≤ limits.limitPart x step / t := by
        rw [restrict_fst, le_div_iff₀ hratio, le_div_iff₀' ht]
    _ ↔ limits.Admits x step t := by
        rw [hcaps, one_le_div ht, hlimits]
        exact ⟨fun h => ⟨fun c hc => (h.1 c hc).1, fun c hc => (h.1 c hc).2, h.2⟩,
          fun h => ⟨fun c hc => ⟨h.lower c hc, h.upper c hc⟩, h.cap⟩⟩

theorem isGreatest_restrict_fst :
    IsGreatest {t | t ∈ Set.Ioc 0 1 ∧ limits.Admits x step t} (limits.restrict x step).1 := by
  have hpos : 0 < (limits.restrict x step).1 := by
    rw [restrict_fst]
    exact div_pos (limitPart_pos hlower hupper) (one_pos.trans_le (one_le_capRatio limits x step))
  have hone := restrict_part_le_one limits x step
  refine ⟨⟨⟨hpos, hone⟩, ?_⟩, fun t ht => ?_⟩
  · exact (le_restrict_iff hlower hupper hcap hpos hone).1 le_rfl
  · exact (le_restrict_iff hlower hupper hcap ht.1.1 ht.1.2).2 ht.2

theorem restrict_fst_eq_one (h : limits.Admits x step 1) : (limits.restrict x step).1 = 1 :=
  (restrict_part_le_one limits x step).antisymm
    ((le_restrict_iff hlower hupper hcap one_pos le_rfl).2 h)

/-- In exact arithmetic, from a point within the limits and with positive caps: what remains of a
step is a multiple of its inward part, by the largest factor in `(0, 1]` with which every component
that is not negligible stays within its limits and every component keeps to its cap. -/
theorem restrict_isGreatest :
    (limits.restrict x step).2 =
        (limits.inward x step).map ((limits.restrict x step).1 * ·) ∧
      IsGreatest {t | t ∈ Set.Ioc 0 1 ∧ limits.Admits x step t} (limits.restrict x step).1 := by
  refine ⟨ext_getElem fun c => ?_, isGreatest_restrict_fst hlower hupper hcap⟩
  rw [getElem_restrict_snd, getElem_map, dropOutward_eq hlower hupper, mul_comm]

end Within

end Restrict

/-! ### A step that is hemmed in -/

namespace Hemmed

/-- The first and the last parameter have a lower limit, the second an upper one, the third a cap. -/
noncomputable def limits : StepLimits ℝ 4 :=
  ⟨#v[some 0, none, none, some 0], #v[none, some 2, none, none], #v[none, none, some 2⁻¹, none]⟩

noncomputable def start : Vector ℝ 4 := #v[0, 1, 0, Scalar.minNormal]

/-- The first component leads out of its limit, the second and the last across theirs; the last one is
negligible. -/
noncomputable def step : Vector ℝ 4 := #v[-1, 2, 2, -Scalar.epsilon]

theorem inward_eq : limits.inward start step = #v[0, 2, 2, -Scalar.epsilon] := by
  refine ext_getElem fun c => ?_
  rw [inward, getElem_ofFn]
  fin_cases c
  · exact if_pos (.inl ⟨rfl, neg_one_lt_zero⟩)
  · refine if_neg ?_
    rintro (⟨hlower, -⟩ | ⟨hupper, -⟩)
    · cases hlower
    · have htwo : (2 : ℝ) = 1 := Option.some_injective _ hupper
      norm_num at htwo
  · exact if_neg nofun
  · refine if_neg ?_
    rintro (⟨hlower, -⟩ | ⟨hupper, -⟩)
    · have hzero : (0 : ℝ) = Scalar.minNormal := Option.some_injective _ hlower
      exact absurd hzero minNormal_pos.ne
    · cases hupper

theorem lower_le (c : Fin 4) : ∀ l ∈ limits.lower[c], l ≤ start[c] := by
  fin_cases c
  · rintro l ⟨⟩
    exact le_rfl
  · rintro l ⟨⟩
  · rintro l ⟨⟩
  · rintro l ⟨⟩
    exact minNormal_pos.le

theorem le_upper (c : Fin 4) : ∀ u ∈ limits.upper[c], start[c] ≤ u := by
  fin_cases c
  · rintro u ⟨⟩
  · rintro u ⟨⟩
    exact one_le_two
  · rintro u ⟨⟩
  · rintro u ⟨⟩

theorem cap_pos (c : Fin 4) : ∀ cap ∈ limits.maxStep[c], 0 < cap := by
  fin_cases c
  · rintro cap ⟨⟩
  · rintro cap ⟨⟩
  · rintro cap ⟨⟩
    exact inv_pos.2 two_pos
  · rintro cap ⟨⟩

/-- The second component allows half of the step, the third a quarter, and the last one does not
count. -/
theorem isGreatest : IsGreatest {t | t ∈ Set.Ioc 0 1 ∧ limits.Admits start step t} (1 / 4) := by
  refine ⟨⟨⟨by norm_num, by norm_num⟩, ?_⟩, fun t ht => ?_⟩
  · refine ⟨fun c hlarge => ?_, fun c _ => ?_, fun c => ?_⟩ <;> rw [inward_eq]
    · fin_cases c
      · rintro l ⟨⟩
        show (0 : ℝ) ≤ 0 + 1 / 4 * 0
        norm_num
      · rintro l ⟨⟩
      · rintro l ⟨⟩
      · have habs : Scalar.epsilon < |(-Scalar.epsilon : ℝ)| := hlarge
        rw [abs_neg, abs_of_pos epsilon_pos] at habs
        exact absurd habs (lt_irrefl _)
    · fin_cases c
      · rintro u ⟨⟩
      · rintro u ⟨⟩
        show (1 : ℝ) + 1 / 4 * 2 ≤ 2
        norm_num
      · rintro u ⟨⟩
      · rintro u ⟨⟩
    · fin_cases c
      · rintro cap ⟨⟩
      · rintro cap ⟨⟩
      · rintro cap ⟨⟩
        show |(1 / 4 * 2 : ℝ)| ≤ 2⁻¹
        norm_num
      · rintro cap ⟨⟩
  · have hcap := ht.2.cap (2 : Fin 4) 2⁻¹ rfl
    rw [inward_eq] at hcap
    have hthird : t * 2 ≤ 2⁻¹ := (le_abs_self _).trans hcap
    linarith

end Hemmed

/-- The step is dropped in its first component, and for the others a quarter of it remains: even that
takes the last parameter across its limit. -/
theorem restrict_isGreatest_hemmed :
    Hemmed.limits.restrict Hemmed.start Hemmed.step =
      (1 / 4, #v[0, 1 / 2, 1 / 2, -Scalar.epsilon / 4]) := by
  obtain ⟨hstep, hgreatest⟩ := @restrict_isGreatest 4 Hemmed.limits Hemmed.start Hemmed.step
    Hemmed.lower_le Hemmed.le_upper Hemmed.cap_pos
  have hpart := hgreatest.unique Hemmed.isGreatest
  rw [hpart, Hemmed.inward_eq] at hstep
  refine Prod.ext hpart (hstep.trans (ext_getElem fun c => ?_))
  rw [getElem_map]
  fin_cases c
  · exact mul_zero _
  · show (1 / 4 * 2 : ℝ) = 1 / 2
    norm_num
  · show (1 / 4 * 2 : ℝ) = 1 / 2
    norm_num
  · show (1 / 4 * -Scalar.epsilon : ℝ) = -Scalar.epsilon / 4
    ring

end StepLimits

end LeastSquares
