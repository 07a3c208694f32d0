import LeastSquares.Model.Gaussian
import LeastSquares.Proofs.ExtendedReals

/-!
The first guess of a Gaussian peak. The searches for the least, the greatest and the highest sample
start from infinities, so the guess is read in exact arithmetic with infinities; on finite samples
it is finite, and the one of the reals. There the center is where the highest sample is, and sigma
is positive, but below the least one that a fit may start from if the samples above the half maximum
are apart and too close to one another.
-/

namespace LeastSquares

open Extended (real)

namespace Gaussian

variable {n : ℕ} {g : Gaussian} {xs above : List ℝ}

/-! ### The least and the greatest sample -/

theorem filter_isNumber (xs : List ℝ) : xs.filter Scalar.isNumber = xs :=
  List.filter_eq_self.2 fun _ _ => by simp [Scalar.isNumber]

theorem isLeast_least (h : xs ≠ []) : IsLeast {x | x ∈ xs} (least xs) := by
  cases xs with
  | nil => exact absurd rfl h
  | cons x xs =>
      rw [least, filter_isNumber]
      exact List.min?_eq_some_iff.1 List.min?_cons'

theorem isGreatest_greatest (h : xs ≠ []) : IsGreatest {x | x ∈ xs} (greatest xs) := by
  cases xs with
  | nil => exact absurd rfl h
  | cons x xs =>
      rw [greatest, filter_isNumber]
      exact List.max?_eq_some_iff.1 List.max?_cons'

/-! ### The highest sample -/

/-- A highest sample has been found: its height is `h`, and no other one is higher. -/
structure Highest.Tops (best : Highest ℝ) (h : ℝ) (samples : List (ℝ × ℝ)) : Prop where
  height : best.height = some h
  mem : (best.place, h) ∈ samples
  le : ∀ s ∈ samples, s.2 ≤ h

namespace Highest

variable {best : Highest ℝ} {h : ℝ} {samples : List (ℝ × ℝ)}

theorem compare_of_none (place : ℝ) (s : ℝ × ℝ) : compare ⟨place, none⟩ s = ⟨s.1, some s.2⟩ := rfl

theorem compare_of_some {α : Type} [Scalar α] {best : Highest α} {h : α}
    (hbest : best.height = some h) (s : α × α) :
    best.compare s = if h < s.2 then ⟨s.1, some s.2⟩ else best := by
  rw [compare, hbest]
  simp only [decide_eq_true_eq]

theorem Tops.compare (hbest : best.Tops h samples) (s : ℝ × ℝ) :
    ∃ h', (best.compare s).Tops h' (samples ++ [s]) := by
  rw [compare_of_some hbest.height]
  split
  · next hlt =>
      refine ⟨s.2, rfl, List.mem_append_right samples (List.mem_singleton_self s), fun t ht => ?_⟩
      rcases List.mem_append.1 ht with ht | ht
      · exact (hbest.le t ht).trans hlt.le
      · rw [List.mem_singleton.1 ht]
  · next hle =>
      refine ⟨h, hbest.height, List.mem_append_left [s] hbest.mem, fun t ht => ?_⟩
      rcases List.mem_append.1 ht with ht | ht
      · exact hbest.le t ht
      · rw [List.mem_singleton.1 ht]
        exact not_lt.1 hle

theorem Tops.foldl (hbest : best.Tops h samples) (rest : List (ℝ × ℝ)) :
    ∃ h', (rest.foldl Highest.compare best).Tops h' (samples ++ rest) := by
  induction rest generalizing best h samples with
  | nil => exact ⟨h, by rwa [List.append_nil]⟩
  | cons s rest ih =>
      obtain ⟨h', hstep⟩ := hbest.compare s
      obtain ⟨h'', hrest⟩ := ih hstep
      rw [List.append_assoc, List.singleton_append] at hrest
      exact ⟨h'', hrest⟩

theorem exists_tops (place : ℝ) (hne : samples ≠ []) :
    ∃ h, (samples.foldl Highest.compare ⟨place, none⟩).Tops h samples := by
  cases samples with
  | nil => exact absurd rfl hne
  | cons s rest =>
      have hfirst : Tops ⟨s.1, some s.2⟩ s.2 [s] :=
        ⟨rfl, List.mem_singleton_self s, fun t ht => by rw [List.mem_singleton.1 ht]⟩
      rw [List.foldl_cons, compare_of_none]
      exact hfirst.foldl rest

end Highest

/-! ### Sigma -/

theorem widthPerSigma_pos : (0 : ℝ) < widthPerSigma := by
  change (0 : ℝ) < 2.354820045030949
  norm_num

theorem sub_le_width {x y : ℝ} (hx : x ∈ above) (hy : y ∈ above) :
    x - y ≤ greatest above - least above := by
  have hne := List.ne_nil_of_mem hx
  exact sub_le_sub ((isGreatest_greatest hne).2 hx) ((isLeast_least hne).2 hy)

theorem width_nil : greatest ([] : List ℝ) - least [] = 0 := by
  change (-1 / 0 : ℝ) - 1 / 0 = 0
  simp

/-- The width is zero or the distance of two samples. -/
theorem width_cases (above : List ℝ) : greatest above - least above = 0 ∨
    ∃ x ∈ above, ∃ y ∈ above, greatest above - least above = x - y := by
  cases above with
  | nil => exact .inl width_nil
  | cons x above =>
      have hne := List.cons_ne_nil x above
      exact .inr ⟨_, (isGreatest_greatest hne).1, _, (isLeast_least hne).1, rfl⟩

theorem guessSigma_of_pos (h : 0 < greatest above - least above) :
    guessSigma xs above = (greatest above - least above) / widthPerSigma := if_pos h

theorem guessSigma_of_not_pos (h : ¬ 0 < greatest above - least above) :
    guessSigma xs above = max ((greatest xs - least xs) / xs.length) Scalar.epsilon := if_neg h

theorem guessSigma_pos (xs above : List ℝ) : 0 < guessSigma xs above := by
  by_cases h : 0 < greatest above - least above
  · rw [guessSigma_of_pos h]
    exact div_pos h widthPerSigma_pos
  · rw [guessSigma_of_not_pos h]
    exact lt_max_of_lt_right epsilon_pos

/-- Sigma falls below its limit if the samples above the half maximum are apart, but not by the width
that belongs to the limit. -/
theorem minNormal_le_guessSigma_iff : Scalar.minNormal ≤ guessSigma xs above ↔
    (∀ x ∈ above, ∀ y ∈ above, x = y) ∨
      ∃ x ∈ above, ∃ y ∈ above, Scalar.minNormal * widthPerSigma ≤ x - y := by
  by_cases h : 0 < greatest above - least above
  · obtain ⟨x, hx, y, hy, heq⟩ := (width_cases above).resolve_left h.ne'
    rw [guessSigma_of_pos h, le_div_iff₀ widthPerSigma_pos]
    constructor
    · exact fun hle => .inr ⟨x, hx, y, hy, heq ▸ hle⟩
    · rintro (hall | ⟨x', hx', y', hy', hle⟩)
      · rw [heq, hall x hx y hy, sub_self] at h
        exact absurd h (lt_irrefl 0)
      · exact hle.trans (sub_le_width hx' hy')
  · -- without a width the spacing is taken, which is kept above the limit
    have hsigma : Scalar.minNormal ≤ guessSigma xs above := by
      rw [guessSigma_of_not_pos h]
      exact le_max_of_le_right (minNormal_le_zpow (by decide))
    refine iff_of_true hsigma (.inl fun x hx y hy => ?_)
    have hxy := (sub_le_width hx hy).trans (not_lt.1 h)
    have hyx := (sub_le_width hy hx).trans (not_lt.1 h)
    linarith

/-! ### The guess with infinities -/

def Shape.toExtended (s : Shape ℝ) : Shape Extended :=
  ⟨real s.amplitude, real s.center, real s.sigma, real s.baseline⟩

theorem parameters_toExtended (s : Shape ℝ) :
    g.parameters s.toExtended = (g.parameters s).map real := by
  rw [parameters, parameters]
  split <;> rfl

theorem filter_isNumber_real (xs : List ℝ) :
    (xs.map real).filter Scalar.isNumber = xs.map real := by
  refine List.filter_eq_self.2 fun e he => ?_
  obtain ⟨x, -, rfl⟩ := List.mem_map.1 he
  exact Extended.isNumber_real x

theorem least_map_real (h : xs ≠ []) : least (xs.map real) = real (least xs) := by
  cases xs with
  | nil => exact absurd rfl h
  | cons x xs =>
      rw [least, filter_isNumber_real, least, filter_isNumber]
      exact Extended.minimum_map_real x xs

theorem greatest_map_real (h : xs ≠ []) : greatest (xs.map real) = real (greatest xs) := by
  cases xs with
  | nil => exact absurd rfl h
  | cons x xs =>
      rw [greatest, filter_isNumber_real, greatest, filter_isNumber]
      exact Extended.maximum_map_real x xs

def Highest.toExtended (best : Highest ℝ) : Highest Extended :=
  ⟨real best.place, best.height.map real⟩

theorem Highest.compare_toExtended (best : Highest ℝ) (s : ℝ × ℝ) :
    best.toExtended.compare (real s.1, real s.2) = (best.compare s).toExtended := by
  obtain ⟨place, height⟩ := best
  cases height with
  | none => rfl
  | some h =>
      have hheight : (toExtended ⟨place, some h⟩).height = some (real h) := rfl
      rw [compare_of_some hheight, compare_of_some rfl]
      simp only [Extended.real_lt]
      split <;> rfl

theorem Highest.foldl_toExtended (best : Highest ℝ) (samples : List (ℝ × ℝ)) :
    (samples.map fun s => (real s.1, real s.2)).foldl compare best.toExtended =
      (samples.foldl compare best).toExtended := by
  induction samples generalizing best with
  | nil => rfl
  | cons s samples ih => rw [List.map_cons, List.foldl_cons, compare_toExtended, ih, List.foldl_cons]

theorem guessSigma_map_real (hxs : xs ≠ []) (above : List ℝ) :
    guessSigma (xs.map real) (above.map real) = real (guessSigma xs above) := by
  have hspan : (greatest (xs.map real) - least (xs.map real)) / Scalar.ofNat (xs.map real).length =
      real ((greatest xs - least xs) / xs.length) := by
    rw [greatest_map_real hxs, least_map_real hxs, Extended.real_sub, List.length_map]
    exact Extended.real_div (Nat.cast_ne_zero.2 (List.length_pos_iff.2 hxs).ne')
  have hspacing : Scalar.max ((greatest (xs.map real) - least (xs.map real)) /
      Scalar.ofNat (xs.map real).length) Scalar.epsilon =
        real (max ((greatest xs - least xs) / xs.length) Scalar.epsilon) := by
    rw [hspan]
    exact Extended.max_real _ _
  cases above with
  | nil =>
      -- the width of an empty half maximum is minus infinity, and zero in the reals
      have hpos : ¬ 0 < greatest ([] : List ℝ) - least [] := by
        rw [width_nil]
        exact lt_irrefl 0
      have hnone : ¬ 0 < greatest ([] : List Extended) - least [] := by
        change ¬ 0 < (-1 / 0 : Extended) - 1 / 0
        rw [Extended.neg_one_div_zero, Extended.one_div_zero]
        exact id
      rw [guessSigma_of_not_pos hpos]
      exact (if_neg hnone).trans hspacing
  | cons x above =>
      have hne := List.cons_ne_nil x above
      have hwidth : greatest ((x :: above).map real) - least ((x :: above).map real) =
          real (greatest (x :: above) - least (x :: above)) := by
        rw [greatest_map_real hne, least_map_real hne, Extended.real_sub]
      by_cases hpos : 0 < greatest (x :: above) - least (x :: above)
      · rw [guessSigma_of_pos hpos, guessSigma, hwidth]
        refine (if_pos hpos).trans ?_
        exact Extended.real_div widthPerSigma_pos.ne'
      · rw [guessSigma_of_not_pos hpos, guessSigma, hwidth]
        exact (if_neg hpos).trans hspacing

section Shape

variable {α : Type} [Scalar α]

def guessBaseline (g : Gaussian) (ys : List α) : α := if g.hasBaseline then least ys else 0

def halfMaximum (baseline height : α) (samples : List (α × α)) : List α :=
  (samples.filter fun s => baseline + 0.5 * (height - baseline) ≤ s.2).map (·.1)

theorem guessShape_eq {first height : α} {samples : List (α × α)}
    (h : (samples.foldl Highest.compare ⟨first, none⟩).height = some height) :
    g.guessShape first samples =
      ⟨height - g.guessBaseline (samples.map (·.2)),
        (samples.foldl Highest.compare ⟨first, none⟩).place,
        guessSigma (samples.map (·.1))
          (halfMaximum (g.guessBaseline (samples.map (·.2))) height samples),
        g.guessBaseline (samples.map (·.2))⟩ := by
  rw [guessShape, h]
  rfl

end Shape

theorem guessBaseline_map_real (h : xs ≠ []) :
    g.guessBaseline (xs.map real) = real (g.guessBaseline xs) := by
  rw [guessBaseline, guessBaseline]
  split
  · exact least_map_real h
  · rfl

theorem halfMaximum_map_real (baseline height : ℝ) (samples : List (ℝ × ℝ)) :
    halfMaximum (real baseline) (real height) (samples.map fun s => (real s.1, real s.2)) =
      (halfMaximum baseline height samples).map real := by
  have hhalf : real baseline + 0.5 * (real height - real baseline) =
      real (baseline + 0.5 * (height - baseline)) := by
    have hliteral : (0.5 : Extended) = real 0.5 := rfl
    rw [Extended.real_sub, hliteral, Extended.real_mul, Extended.real_add]
  simp only [halfMaximum, hhalf, List.filter_map, List.map_map, Function.comp_def, Extended.real_le]

theorem guessShape_map_real (place : ℝ) {samples : List (ℝ × ℝ)} (h : samples ≠ []) :
    g.guessShape (real place) (samples.map fun s => (real s.1, real s.2)) =
      (g.guessShape place samples).toExtended := by
  obtain ⟨height, htops⟩ := Highest.exists_tops place h
  have hfold : (samples.map fun s => (real s.1, real s.2)).foldl Highest.compare
      ⟨real place, none⟩ = (samples.foldl Highest.compare ⟨place, none⟩).toExtended :=
    Highest.foldl_toExtended ⟨place, none⟩ samples
  have hheight : (samples.foldl Highest.compare ⟨place, none⟩).toExtended.height =
      some (real height) := by
    rw [Highest.toExtended, htops.height]
    rfl
  have hplaces : (samples.map fun s => (real s.1, real s.2)).map (·.1) =
      (samples.map (·.1)).map real := by simp
  have hheights : (samples.map fun s => (real s.1, real s.2)).map (·.2) =
      (samples.map (·.2)).map real := by simp
  have hne : ∀ {f : ℝ × ℝ → ℝ}, samples.map f ≠ [] := by simpa using h
  rw [guessShape_eq htops.height, guessShape_eq (hfold ▸ hheight), hfold, hplaces, hheights,
    guessBaseline_map_real hne, halfMaximum_map_real, guessSigma_map_real hne, Extended.real_sub]
  rfl

/-! ### Samples -/

section Samples

variable {x y : Vector ℝ n}

theorem mem_zip_toList {p : ℝ × ℝ} :
    p ∈ x.toList.zip y.toList ↔ ∃ i : Fin n, p = (x[i], y[i]) := by
  rw [toList_eq_map, toList_eq_map, List.zip_map']
  simp [eq_comm]

/-- The samples from the half maximum up are all at one place, or two of them are as far apart as a
peak is wide with the least sigma that a fit may start from. -/
def IsWide (x y : Vector ℝ n) (half : ℝ) : Prop :=
  (∀ i j : Fin n, half ≤ y[i] → half ≤ y[j] → x[i] = x[j]) ∨
    ∃ i j : Fin n, half ≤ y[i] ∧ half ≤ y[j] ∧ Scalar.minNormal * widthPerSigma ≤ x[i] - x[j]

theorem mem_halfMaximum {baseline height v : ℝ} :
    v ∈ halfMaximum baseline height (x.toList.zip y.toList) ↔
      ∃ i : Fin n, baseline + 0.5 * (height - baseline) ≤ y[i] ∧ v = x[i] := by
  simp only [halfMaximum, List.mem_map, List.mem_filter, mem_zip_toList, decide_eq_true_eq]
  constructor
  · rintro ⟨_, ⟨⟨i, rfl⟩, hi⟩, rfl⟩
    exact ⟨i, hi, rfl⟩
  · rintro ⟨i, hi, rfl⟩
    exact ⟨_, ⟨⟨i, rfl⟩, hi⟩, rfl⟩

noncomputable def Shape.half (s : Shape ℝ) : ℝ := s.baseline + 0.5 * s.amplitude

structure IsGuess (g : Gaussian) (x y : Vector ℝ n) (s : Shape ℝ) : Prop where
  top : ∃ i : Fin n, s.center = x[i] ∧ s.amplitude + s.baseline = y[i] ∧ ∀ j : Fin n, y[j] ≤ y[i]
  baseline : if g.hasBaseline then IsLeast {v | v ∈ y.toList} s.baseline else s.baseline = 0
  sigma_pos : 0 < s.sigma
  minNormal_le_sigma : Scalar.minNormal ≤ s.sigma ↔ IsWide x y s.half

theorem isGuess_guessShape (place : ℝ) (x y : Vector ℝ (n + 1)) :
    IsGuess g x y (g.guessShape place (x.toList.zip y.toList)) := by
  have hne : x.toList.zip y.toList ≠ [] :=
    List.ne_nil_of_mem (mem_zip_toList.2 ⟨(0 : Fin (n + 1)), rfl⟩)
  have hheights : (x.toList.zip y.toList).map (·.2) = y.toList := List.map_snd_zip (by simp)
  obtain ⟨height, htops⟩ := Highest.exists_tops place hne
  rw [guessShape_eq htops.height, hheights]
  refine ⟨?_, ?_, guessSigma_pos _ _, minNormal_le_guessSigma_iff.trans ?_⟩
  · obtain ⟨i, hi⟩ := mem_zip_toList.1 htops.mem
    obtain ⟨hplace, rfl⟩ := Prod.mk.injEq .. ▸ hi
    exact ⟨i, hplace, sub_add_cancel _ _,
      fun j => htops.le (x[j], y[j]) (mem_zip_toList.2 ⟨j, rfl⟩)⟩
  · rw [guessBaseline]
    split
    · exact isLeast_least (List.ne_nil_of_length_eq_add_one y.length_toList)
    · rfl
  · simp only [mem_halfMaximum, IsWide, Shape.half]
    constructor
    · rintro (h | ⟨_, ⟨i, hi, rfl⟩, _, ⟨j, hj, rfl⟩, hle⟩)
      · exact .inl fun i j hi hj => h _ ⟨i, hi, rfl⟩ _ ⟨j, hj, rfl⟩
      · exact .inr ⟨i, j, hi, hj, hle⟩
    · rintro (h | ⟨i, j, hi, hj, hle⟩)
      · refine .inl ?_
        rintro _ ⟨i, hi, rfl⟩ _ ⟨j, hj, rfl⟩
        exact h i j hi hj
      · exact .inr ⟨_, ⟨i, hi, rfl⟩, _, ⟨j, hj, rfl⟩, hle⟩

end Samples

end Gaussian

end LeastSquares
