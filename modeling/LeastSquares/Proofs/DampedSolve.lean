import LeastSquares.Linear.DampedSolve
import LeastSquares.Proofs.Factorization

/-!
What the damped solve computes, in exact arithmetic. The rotations turn the triangle `R` and the rows
of the diagonal `D` into a triangle `S` without changing what the normal equations are made of: the
products of columns, and the products of columns with the right-hand side. So the solution of the
triangular system of `S` solves the normal equations of `R` and `D`. All along the upper triangle
stays as it was.
-/

namespace LeastSquares

variable {n : ℕ}

/-! ### Rotations -/

namespace Rotation

theorem cos_sq_add_sin_sq (a b : ℝ) : (clearing a b).cos ^ 2 + (clearing a b).sin ^ 2 = 1 := by
  have hone : ∀ t : ℝ, (0.5 / √(0.25 + 0.25 * t * t)) ^ 2 * (1 + t ^ 2) = 1 := by
    intro t
    have hpos : (0 : ℝ) < 0.25 + 0.25 * t * t := by nlinarith [sq_nonneg t]
    rw [div_pow, Real.sq_sqrt hpos.le]
    field_simp
    ring
  unfold clearing
  split
  · have := hone (a / b)
    simp only [Scalar.sqrt]
    linear_combination this
  · have := hone (b / a)
    simp only [Scalar.sqrt]
    linear_combination this

/-- The second number of the pair becomes zero. -/
theorem second_clearing {a b : ℝ} (hb : b ≠ 0) : (clearing a b).second a b = 0 := by
  unfold clearing second
  split
  · field_simp
    ring
  · next hge =>
    have ha : a ≠ 0 := by
      rintro rfl
      exact hge (by simpa [Scalar.abs] using hb)
    field_simp
    ring

/-- The first becomes the length of the pair, up to its sign. -/
theorem first_clearing_ne_zero {a b : ℝ} (hb : b ≠ 0) : (clearing a b).first a b ≠ 0 := by
  intro hfirst
  have hsecond := second_clearing (a := a) hb
  have hunit := cos_sq_add_sin_sq a b
  unfold first at hfirst
  unfold second at hsecond
  have hpos : 0 < b ^ 2 := by positivity
  have hsum : a ^ 2 + b ^ 2 = 0 := by
    linear_combination (-(a ^ 2 + b ^ 2)) * hunit +
      ((clearing a b).cos * a + (clearing a b).sin * b) * hfirst +
      (-(clearing a b).sin * a + (clearing a b).cos * b) * hsecond
  nlinarith [sq_nonneg a]

theorem first_mul_add_second_mul (c s a b a' b' : ℝ) :
    (clearing c s).first a b * (clearing c s).first a' b' +
      (clearing c s).second a b * (clearing c s).second a' b' = a * a' + b * b' := by
  unfold first second
  linear_combination (a * a' + b * b') * cos_sq_add_sin_sq c s

end Rotation

namespace DampedSolve

namespace Stage

/-! ### The triangle under way -/

/-- The triangle of a stage, whose first `count` diagonal entries are kept apart. -/
def triangle (s : Stage ℝ n) (count : ℕ) (l i : Fin n) : ℝ :=
  if i < l then 0 else if l < i then s.r[i][l] else if l.val < count then s.row[l] else s.r[l][l]

/-- What is left of the row that is being rotated away, from entry `k` on. -/
def pending (s : Stage ℝ n) (k : ℕ) (i : Fin n) : ℝ := if k ≤ i.val then s.row[i] else 0

variable {s : Stage ℝ n} {j k : Fin n}

theorem triangle_self_of_le {count : ℕ} {l : Fin n} (h : count ≤ l.val) :
    s.triangle count l l = s.r[l][l] := by
  rw [triangle, if_neg (lt_irrefl l), if_neg (lt_irrefl l), if_neg (Nat.not_lt.2 h)]

theorem triangle_self_of_lt {count : ℕ} {l : Fin n} (h : l.val < count) :
    s.triangle count l l = s.row[l] := by
  rw [triangle, if_neg (lt_irrefl l), if_neg (lt_irrefl l), if_pos h]

theorem triangle_of_gt {count : ℕ} {l i : Fin n} (h : i < l) : s.triangle count l i = 0 := if_pos h

theorem triangle_of_lt {count : ℕ} {l i : Fin n} (h : l < i) :
    s.triangle count l i = s.r[i][l] := by
  rw [triangle, if_neg h.asymm, if_pos h]

theorem pending_of_le {count : ℕ} {i : Fin n} (h : count ≤ i.val) : s.pending count i = s.row[i] :=
  if_pos h

theorem pending_of_gt {count : ℕ} {i : Fin n} (h : i.val < count) : s.pending count i = 0 :=
  if_neg (Nat.not_le.2 h)

/-! ### One rotation -/

section Rotate

theorem rotate_of_eq (hrow : s.row[k] = 0) : s.rotate k = s := by
  rw [rotate, if_pos (beq_iff_eq.2 hrow)]

variable (hrow : s.row[k] ≠ 0)

include hrow

theorem getElem_rotate_r (i l : Fin n) :
    (s.rotate k).r[i][l] =
      if l = k ∧ k ≤ i then (Rotation.clearing s.r[k][k] s.row[k]).first s.r[i][k] s.row[i]
      else s.r[i][l] := by
  rw [rotate, if_neg (by simpa using hrow), Mat.getElem_ofFn]

theorem getElem_rotate_row (i : Fin n) :
    (s.rotate k).row[i] =
      if k < i then (Rotation.clearing s.r[k][k] s.row[k]).second s.r[i][k] s.row[i]
      else s.row[i] := by
  rw [rotate, if_neg (by simpa using hrow), getElem_ofFn]

theorem getElem_rotate_rhs (l : Fin n) :
    (s.rotate k).rhs[l] =
      if k = l then (Rotation.clearing s.r[k][k] s.row[k]).first s.rhs[k] s.extra
      else s.rhs[l] := by
  rw [rotate, if_neg (by simpa using hrow), getElem_put]

theorem rotate_extra :
    (s.rotate k).extra = (Rotation.clearing s.r[k][k] s.row[k]).second s.rhs[k] s.extra := by
  rw [rotate, if_neg (by simpa using hrow)]

/-- A rotation changes row `k` of the triangle and no other. -/
theorem triangle_rotate (hjk : j ≤ k) (l i : Fin n) :
    (s.rotate k).triangle j l i =
      if l = k then (Rotation.clearing s.r[k][k] s.row[k]).first (s.triangle j k i) (s.pending k i)
      else s.triangle j l i := by
  rcases lt_trichotomy i l with hlt | rfl | hgt
  · rw [triangle_of_gt hlt, triangle_of_gt hlt]
    split
    · next heq =>
      rw [heq] at hlt
      rw [triangle_of_gt hlt, pending_of_gt (Fin.lt_def.1 hlt)]
      simp [Rotation.first]
    · rfl
  · rcases lt_or_ge i j with hij | hji
    · rw [triangle_self_of_lt (Fin.lt_def.1 hij), triangle_self_of_lt (Fin.lt_def.1 hij),
        getElem_rotate_row hrow, if_neg (hij.trans_le hjk).asymm, if_neg (hij.trans_le hjk).ne]
    · rw [triangle_self_of_le hji, triangle_self_of_le hji, getElem_rotate_r hrow]
      by_cases heq : i = k
      · rw [heq, if_pos ⟨rfl, le_rfl⟩, if_pos rfl, triangle_self_of_le hjk, pending_of_le le_rfl]
      · rw [if_neg fun h => heq h.1, if_neg heq]
  · rw [triangle_of_lt hgt, triangle_of_lt hgt, getElem_rotate_r hrow]
    by_cases heq : l = k
    · rw [heq] at hgt ⊢
      rw [if_pos ⟨rfl, hgt.le⟩, if_pos rfl, triangle_of_lt hgt, pending_of_le hgt.le]
    · rw [if_neg fun h => heq h.1, if_neg heq]

theorem pending_rotate (hjk : j ≤ k) (i : Fin n) :
    (s.rotate k).pending (k + 1) i =
      (Rotation.clearing s.r[k][k] s.row[k]).second (s.triangle j k i) (s.pending k i) := by
  rcases lt_trichotomy i k with hlt | rfl | hgt
  · rw [pending_of_gt (Nat.lt_succ_of_lt (Fin.lt_def.1 hlt)), pending_of_gt (Fin.lt_def.1 hlt),
      triangle_of_gt hlt]
    simp [Rotation.second]
  · rw [pending_of_gt (Nat.lt_succ_self _), pending_of_le le_rfl, triangle_self_of_le hjk,
      Rotation.second_clearing hrow]
  · rw [pending_of_le (Nat.succ_le_of_lt (Fin.lt_def.1 hgt)), pending_of_le (le_of_lt hgt),
      triangle_of_lt hgt, getElem_rotate_row hrow, if_pos hgt]

end Rotate

/-! ### One row of the diagonal -/

theorem sum_of_eq_off {f g : Fin n → ℝ} (h : ∀ l, l ≠ k → f l = g l) :
    ∑ l, f l = ∑ l, g l - g k + f k := by
  have hrest : ∑ l ∈ Finset.univ.erase k, f l = ∑ l ∈ Finset.univ.erase k, g l :=
    Finset.sum_congr rfl fun l hl => h l (Finset.ne_of_mem_erase hl)
  rw [← Finset.add_sum_erase _ f (Finset.mem_univ k),
    ← Finset.add_sum_erase _ g (Finset.mem_univ k), hrest]
  ring

/-- What the rotations of the row of column `j` preserve, up to entry `k` of it. -/
structure Rotates (s₀ : Stage ℝ n) (j : Fin n) (k : ℕ) (s : Stage ℝ n) : Prop where
  gram : ∀ a b,
    ∑ l, s.triangle j l a * s.triangle j l b + s.pending k a * s.pending k b =
      ∑ l, s₀.triangle j l a * s₀.triangle j l b + s₀.pending j a * s₀.pending j b
  moment : ∀ a,
    ∑ l, s.triangle j l a * s.rhs[l] + s.pending k a * s.extra =
      ∑ l, s₀.triangle j l a * s₀.rhs[l] + s₀.pending j a * s₀.extra
  upper : ∀ i l : Fin n, i < l → s.r[i][l] = s₀.r[i][l]
  diagonal : ∀ l, l < j → s.r[l][l] = s₀.r[l][l]
  row : ∀ l, l ≤ j → s.row[l] = s₀.row[l]
  regular : j.val < k → s₀.row[j] ≠ 0 → s.r[j][j] ≠ 0

theorem rotates_refl (s : Stage ℝ n) (j : Fin n) : Rotates s j j s where
  gram _ _ := rfl
  moment _ := rfl
  upper _ _ _ := rfl
  diagonal _ _ := rfl
  row _ _ := rfl
  regular h := absurd h (lt_irrefl _)

theorem Rotates.skip {s₀ : Stage ℝ n} (h : Rotates s₀ j k s) (hjk : j ≤ k)
    (hrow : s.row[k] = 0) : Rotates s₀ j (k + 1) s := by
  have hpending : ∀ i, s.pending (k + 1) i = s.pending k i := by
    intro i
    rcases lt_trichotomy i k with hlt | rfl | hgt
    · rw [pending_of_gt (Fin.lt_def.1 hlt), pending_of_gt (Nat.lt_succ_of_lt (Fin.lt_def.1 hlt))]
    · rw [pending_of_gt (Nat.lt_succ_self _), pending_of_le le_rfl, hrow]
    · rw [pending_of_le (le_of_lt hgt), pending_of_le (Nat.succ_le_of_lt (Fin.lt_def.1 hgt))]
  refine { h with gram := ?_, moment := ?_, regular := ?_ }
  · intro a b
    rw [hpending, hpending, h.gram]
  · intro a
    rw [hpending, h.moment]
  · intro _ hloaded
    rcases hjk.eq_or_lt with rfl | hlt
    · rw [h.row j le_rfl] at hrow
      exact absurd hrow hloaded
    · exact h.regular hlt hloaded

/-- Rotating the entry away mixes row `k` of the triangle with what is pending, and nothing else. -/
theorem Rotates.turn {s₀ : Stage ℝ n} (h : Rotates s₀ j k s) (hjk : j ≤ k)
    (hrow : s.row[k] ≠ 0) : Rotates s₀ j (k + 1) (s.rotate k) := by
  have hoff : ∀ l a, l ≠ k → (s.rotate k).triangle j l a = s.triangle j l a := by
    intro l a hl
    rw [triangle_rotate hrow hjk, if_neg hl]
  have hself : ∀ a, (s.rotate k).triangle j k a =
      (Rotation.clearing s.r[k][k] s.row[k]).first (s.triangle j k a) (s.pending k a) := by
    intro a
    rw [triangle_rotate hrow hjk, if_pos rfl]
  -- sums over the rows change in row `k` only, and there by what the pending row gives up
  refine ⟨fun a b => ?_, fun a => ?_, fun i l hil => ?_, fun l hl => ?_, fun l hl => ?_, ?_⟩
  · rw [← h.gram, sum_of_eq_off fun l hl => by rw [hoff l a hl, hoff l b hl], hself, hself,
      pending_rotate hrow hjk, pending_rotate hrow hjk]
    linarith [Rotation.first_mul_add_second_mul s.r[k][k] s.row[k] (s.triangle j k a)
      (s.pending k a) (s.triangle j k b) (s.pending k b)]
  · have hrhs : ∀ l, l ≠ k → (s.rotate k).triangle j l a * (s.rotate k).rhs[l] =
        s.triangle j l a * s.rhs[l] := by
      intro l hl
      rw [hoff l a hl, getElem_rotate_rhs hrow, if_neg (Ne.symm hl)]
    rw [← h.moment, sum_of_eq_off hrhs, hself, getElem_rotate_rhs hrow, if_pos rfl,
      pending_rotate hrow hjk, rotate_extra hrow]
    linarith [Rotation.first_mul_add_second_mul s.r[k][k] s.row[k] (s.triangle j k a)
      (s.pending k a) s.rhs[k] s.extra]
  · rw [getElem_rotate_r hrow, if_neg, h.upper i l hil]
    rintro ⟨rfl, hle⟩
    exact absurd hil (not_lt.2 hle)
  · rw [getElem_rotate_r hrow, if_neg, h.diagonal l hl]
    rintro ⟨rfl, -⟩
    exact absurd hl (not_lt.2 hjk)
  · rw [getElem_rotate_row hrow, if_neg (not_lt.2 (hl.trans hjk)), h.row l hl]
  · intro _ hloaded
    rw [getElem_rotate_r hrow]
    by_cases heq : j = k
    · rw [heq, if_pos ⟨rfl, le_rfl⟩]
      exact Rotation.first_clearing_ne_zero hrow
    · rw [if_neg fun hand => heq hand.1]
      exact h.regular (Fin.lt_def.1 (lt_of_le_of_ne hjk heq)) hloaded

theorem Rotates.rotate {s₀ : Stage ℝ n} (h : Rotates s₀ j k s) (hjk : j ≤ k) :
    Rotates s₀ j (k + 1) (s.rotate k) := by
  by_cases hrow : s.row[k] = 0
  · rw [rotate_of_eq hrow]
    exact h.skip hjk hrow
  · exact h.turn hjk hrow

theorem rotates_foldl (s : Stage ℝ n) (j : Fin n) :
    Rotates s j n ((starting j).foldl Stage.rotate s) :=
  foldl_starting (rotates_refl s j) fun _ hk _ h => h.rotate hk

/-! ### The whole elimination -/

/-- What holds once the first `count` entries `d` of the diagonal have been eliminated from the
triangle `r` with right-hand side `b`. -/
structure Eliminates (r : Mat ℝ n n) (d : Fin n → ℝ) (b : Vector ℝ n) (count : ℕ)
    (s : Stage ℝ n) : Prop where
  gram : ∀ i j,
    ∑ l, s.triangle count l i * s.triangle count l j =
      ∑ l, upperPart r l i * upperPart r l j + if i = j ∧ i.val < count then d i ^ 2 else 0
  moment : ∀ i, ∑ l, s.triangle count l i * s.rhs[l] = ∑ l, upperPart r l i * b[l]
  upper : ∀ i l : Fin n, i < l → s.r[i][l] = r[i][l]
  diagonal : ∀ l : Fin n, l.val < count → s.r[l][l] = r[l][l]
  regular : ∀ l : Fin n, l.val < count → d l ≠ 0 → s.row[l] ≠ 0

variable {r : Mat ℝ n n} {d : Fin n → ℝ} {b : Vector ℝ n}

theorem triangle_start (r : Mat ℝ n n) (b : Vector ℝ n) (l i : Fin n) :
    (⟨mirror r, b, Vector.replicate n 0, 0⟩ : Stage ℝ n).triangle 0 l i = upperPart r l i := by
  rcases lt_trichotomy i l with hlt | rfl | hgt
  · rw [triangle_of_gt hlt, upperPart_of_lt r hlt]
  · rw [triangle_self_of_le (Nat.zero_le _), upperPart_self, mirror, Mat.getElem_ofFn, if_pos le_rfl]
  · rw [triangle_of_lt hgt, upperPart, if_pos hgt.le, mirror, Mat.getElem_ofFn, if_pos hgt.le]

theorem eliminates_start : Eliminates r d b 0 ⟨mirror r, b, Vector.replicate n 0, 0⟩ := by
  refine ⟨fun i j => ?_, fun i => ?_, fun i l hil => ?_, fun l hl => ?_, fun l hl => ?_⟩
  · simp only [triangle_start]
    simp
  · simp only [triangle_start]
  · rw [mirror, Mat.getElem_ofFn, if_neg (not_le.2 hil)]
  · exact absurd hl (Nat.not_lt_zero _)
  · exact absurd hl (Nat.not_lt_zero _)

theorem triangle_keep (entry : ℝ) (l i : Fin n) :
    ({ s with row := put s.row j s.r[j][j], r := s.r.setEntry j j entry } : Stage ℝ n).triangle
      (j + 1) l i = s.triangle j l i := by
  rcases lt_trichotomy i l with hlt | rfl | hgt
  · rw [triangle_of_gt hlt, triangle_of_gt hlt]
  · rcases lt_trichotomy i j with hlt | rfl | hgt
    · rw [triangle_self_of_lt (Nat.lt_succ_of_lt (Fin.lt_def.1 hlt)),
        triangle_self_of_lt (Fin.lt_def.1 hlt), getElem_put, if_neg hlt.ne']
    · rw [triangle_self_of_lt (Nat.lt_succ_self _), triangle_self_of_le le_rfl, getElem_put,
        if_pos rfl]
    · rw [triangle_self_of_le (Nat.succ_le_of_lt (Fin.lt_def.1 hgt)),
        triangle_self_of_le (le_of_lt hgt), Mat.getElem_setEntry, if_neg fun h => hgt.ne h.1]
  · rw [triangle_of_lt hgt, triangle_of_lt hgt, Mat.getElem_setEntry, if_neg]
    rintro ⟨rfl, rfl⟩
    exact lt_irrefl _ hgt

theorem triangle_load (entry : ℝ) (l i : Fin n) :
    (s.load j entry).triangle j l i = s.triangle j l i := by
  unfold triangle load
  split
  · rfl
  · split
    · rfl
    · split
      · next h => rw [getElem_ofFn, if_pos (Fin.lt_def.2 h)]
      · rfl

theorem pending_load (entry : ℝ) (i : Fin n) :
    (s.load j entry).pending j i = if i = j then entry else 0 := by
  unfold pending load
  split
  · next h =>
    have hle : j ≤ i := h
    rw [getElem_ofFn, if_neg (not_lt.2 hle)]
  · next h =>
    rw [if_neg]
    rintro rfl
    exact h le_rfl

theorem square_succ (d : Fin n → ℝ) (j a c : Fin n) :
    (if a = c ∧ a.val < j.val + 1 then d a ^ 2 else 0) =
      (if a = c ∧ a.val < j.val then d a ^ 2 else 0) +
        (if a = j then d j else 0) * (if c = j then d j else 0) := by
  by_cases hac : a = c
  · subst hac
    rcases lt_trichotomy a j with hlt | rfl | hgt
    · have hlt' := Fin.lt_def.1 hlt
      simp [hlt.ne, hlt', Nat.lt_succ_of_lt hlt']
    · simp [pow_two]
    · have hgt' := Fin.lt_def.1 hgt
      simp [hgt.ne', Nat.not_lt.2 hgt'.le, Nat.not_lt.2 (Nat.succ_le_of_lt hgt')]
  · rw [if_neg fun h => hac h.1, if_neg fun h => hac h.1, zero_add]
    by_cases haj : a = j
    · have hcj : c ≠ j := fun hcj => hac (haj.trans hcj.symm)
      rw [if_neg hcj, mul_zero]
    · rw [if_neg haj, zero_mul]

/-- Keeping the diagonal entry of column `j` completes its elimination. -/
theorem eliminates_keep {t : Stage ℝ n}
    (hgram : ∀ a c, ∑ l, t.triangle j l a * t.triangle j l c =
      ∑ l, upperPart r l a * upperPart r l c + if a = c ∧ a.val < j.val + 1 then d a ^ 2 else 0)
    (hmoment : ∀ a, ∑ l, t.triangle j l a * t.rhs[l] = ∑ l, upperPart r l a * b[l])
    (hupper : ∀ i l : Fin n, i < l → t.r[i][l] = r[i][l])
    (hdiagonal : ∀ l, l < j → t.r[l][l] = r[l][l])
    (hregular : ∀ l, l < j → d l ≠ 0 → t.row[l] ≠ 0) (hlast : d j ≠ 0 → t.r[j][j] ≠ 0) :
    Eliminates r d b (j + 1)
      { t with row := put t.row j t.r[j][j], r := t.r.setEntry j j r[j][j] } where
  gram a c := by simp only [triangle_keep, hgram]
  moment a := by simp only [triangle_keep, hmoment]
  upper i l hil := by
    rw [Mat.getElem_setEntry, if_neg, hupper i l hil]
    rintro ⟨rfl, rfl⟩
    exact lt_irrefl _ hil
  diagonal l hl := by
    rw [Mat.getElem_setEntry]
    rcases Nat.lt_succ_iff_lt_or_eq.1 hl with hlt | heq
    · have hne : j ≠ l := (Fin.lt_def.2 hlt).ne'
      rw [if_neg fun hand => hne hand.1, hdiagonal l hlt]
    · obtain rfl := Fin.ext heq
      rw [if_pos ⟨rfl, rfl⟩]
  regular l hl hdl := by
    rw [getElem_put]
    rcases Nat.lt_succ_iff_lt_or_eq.1 hl with hlt | heq
    · have hne : j ≠ l := (Fin.lt_def.2 hlt).ne'
      rw [if_neg hne]
      exact hregular l hlt hdl
    · obtain rfl := Fin.ext heq
      rw [if_pos rfl]
      exact hlast hdl

/-- The row of column `j` joins what has been eliminated before. -/
theorem Eliminates.of_rotates {t : Stage ℝ n} (h : Eliminates r d b j s)
    (ht : Rotates (s.load j (d j)) j n t) :
    Eliminates r d b (j + 1)
      { t with row := put t.row j t.r[j][j], r := t.r.setEntry j j r[j][j] } := by
  have hpending : ∀ a, t.pending n a = 0 := fun a => pending_of_gt a.isLt
  have hrow : ∀ i, (s.load j (d j)).row[i] = if i < j then s.row[i] else if i = j then d j else 0 :=
    fun i => getElem_ofFn _ i
  refine eliminates_keep (fun a c => ?_) (fun a => ?_) (fun i l hil => ?_) (fun l hl => ?_)
    (fun l hl hdl => ?_) fun hd => ?_
  · have hgram := ht.gram a c
    simp only [triangle_load, pending_load] at hgram
    rw [hpending, zero_mul, add_zero] at hgram
    rw [hgram, h.gram, square_succ, add_assoc]
  · have hmoment := ht.moment a
    simp only [triangle_load] at hmoment
    rw [hpending, zero_mul, add_zero] at hmoment
    rw [hmoment, ← h.moment a]
    simp [load]
  · exact (ht.upper i l hil).trans (h.upper i l hil)
  · exact (ht.diagonal l hl).trans (h.diagonal l hl)
  · rw [ht.row l hl.le, hrow, if_pos hl]
    exact h.regular l hl hdl
  · refine ht.regular j.isLt ?_
    rwa [hrow, if_neg (lt_irrefl j), if_pos rfl]

theorem Eliminates.of_eq_zero (h : Eliminates r d b j s) (hd : d j = 0) :
    Eliminates r d b (j + 1)
      { s with row := put s.row j s.r[j][j], r := s.r.setEntry j j r[j][j] } := by
  refine eliminates_keep (fun a c => ?_) h.moment h.upper h.diagonal h.regular (absurd hd)
  rw [square_succ, hd, h.gram]
  simp

theorem Eliminates.eliminate (h : Eliminates r d b j s) :
    Eliminates r d b (j + 1) (s.eliminate j (d j) r[j][j]) := by
  by_cases hd : d j = 0
  · simp only [Stage.eliminate]
    rw [if_neg (by simpa using hd)]
    exact h.of_eq_zero hd
  · simp only [Stage.eliminate]
    rw [if_pos (by simpa using hd)]
    exact h.of_rotates (rotates_foldl _ _)

theorem eliminates_foldl (r : Mat ℝ n n) (d : Fin n → ℝ) (b : Vector ℝ n) :
    Eliminates r d b n ((List.finRange n).foldl (fun s j => s.eliminate j (d j) r[j][j])
      ⟨mirror r, b, Vector.replicate n 0, 0⟩) :=
  foldl_finRange eliminates_start fun _ _ h => h.eliminate

end Stage

/-! ### The triangular system -/

theorem ne_zero_of_lt_findIdx {x : Vector ℝ n} {l : Fin n}
    (h : l.val < x.toList.findIdx (· == 0)) : x[l] ≠ 0 := by
  have hne := List.not_of_lt_findIdx h
  simpa [getElem_eq_val] using hne

theorem exists_eq_zero_of_findIdx_le {x : Vector ℝ n} {l : Fin n}
    (h : x.toList.findIdx (· == 0) ≤ l.val) : ∃ i, i ≤ l ∧ x[i] = 0 := by
  have hlength : x.toList.findIdx (· == 0) < x.toList.length := by
    rw [Vector.length_toList]
    exact h.trans_lt l.isLt
  refine ⟨⟨x.toList.findIdx (· == 0), h.trans_lt l.isLt⟩, h, ?_⟩
  simpa [getElem_eq_val] using List.findIdx_getElem (w := hlength)

theorem lt_findIdx_iff {x : Vector ℝ n} {l : Fin n} :
    l.val < x.toList.findIdx (· == 0) ↔ ∀ i, i ≤ l → x[i] ≠ 0 := by
  constructor
  · exact fun h i hi => ne_zero_of_lt_findIdx (lt_of_le_of_lt hi h)
  · intro h
    by_contra hge
    obtain ⟨i, hi, hzero⟩ := exists_eq_zero_of_findIdx_le (not_lt.1 hge)
    exact h i hi hzero

theorem findIdx_le (x : Vector ℝ n) : x.toList.findIdx (· == 0) ≤ n := by
  have hle : x.toList.findIdx (· == 0) ≤ x.toList.length := List.findIdx_le_length
  rwa [Vector.length_toList] at hle

theorem sum_eq_add_sum_Ioi {f : Fin n → ℝ} (j : Fin n) (h : ∀ i, i < j → f i = 0) :
    ∑ i, f i = f j + ∑ i ∈ .Ioi j, f i := by
  have hfrom : ∑ i ∈ .Ici j, f i = ∑ i, f i :=
    Finset.sum_subset (Finset.subset_univ _) fun i _ hi => h i (by simpa using hi)
  rw [← hfrom, ← Finset.Ioi_insert j, Finset.sum_insert Finset.notMem_Ioi_self]

theorem sum_map_filter_of_zero {l : List (Fin n)} {p : Fin n → Bool} {f : Fin n → ℝ}
    (h : ∀ i, p i = false → f i = 0) : ((l.filter p).map f).sum = (l.map f).sum := by
  induction l with
  | nil => rfl
  | cons i l ih =>
      cases hi : p i with
      | true => rw [List.filter_cons_of_pos hi, List.map_cons, List.map_cons, List.sum_cons,
          List.sum_cons, ih]
      | false => rw [List.filter_cons_of_neg (by simp [hi]), ih, List.map_cons, List.sum_cons,
          h i hi, zero_add]

section BackSubstitute

variable {s : Stage ℝ n} {rank : ℕ} {z : Vector ℝ n}

/-- What has been solved of the triangular system of a stage once the rows from `count` on have been
used. -/
structure Substitutes (s : Stage ℝ n) (rank count : ℕ) (z : Vector ℝ n) : Prop where
  solved : ∀ l : Fin n, count ≤ l.val → l.val < rank → ∑ i, s.triangle n l i * z[i] = s.rhs[l]
  zero : ∀ l : Fin n, rank ≤ l.val → z[l] = 0
  pending : ∀ l : Fin n, l.val < count → l.val < rank → z[l] = s.rhs[l]

theorem Substitutes.put {j : Fin n} (h : Substitutes s rank (j + 1) z) (hj : j.val < rank)
    (hdiagonal : s.row[j] ≠ 0) :
    Substitutes s rank j (put z j ((z[j] - Scalar.sumFromZero
      (((after j).filter (·.val < rank)).map fun i => s.r[i][j] * z[i])) / s.row[j])) where
  solved l hle hlt := by
    rcases hle.eq_or_lt with heq | hgt
    · obtain rfl := Fin.ext heq
      have hrest : ((((after j).filter (·.val < rank)).map fun i => s.r[i][j] * z[i])).sum =
          ∑ i ∈ .Ioi j, s.r[i][j] * z[i] := by
        rw [sum_map_filter_of_zero fun i hi => ?_, sum_map_after]
        rw [h.zero i (by simpa using hi), mul_zero]
      have hterm : ∀ i ∈ Finset.Ioi j, s.triangle n j i * (LeastSquares.put z j
          ((z[j] - ∑ i ∈ .Ioi j, s.r[i][j] * z[i]) / s.row[j]))[i] = s.r[i][j] * z[i] := by
        intro i hi
        have hlt : j < i := Finset.mem_Ioi.1 hi
        rw [Stage.triangle_of_lt hlt, getElem_put, if_neg hlt.ne]
      rw [sumFromZero_eq, hrest, sum_eq_add_sum_Ioi j fun i hi => by
        rw [Stage.triangle_of_gt hi, zero_mul], Finset.sum_congr rfl hterm,
        Stage.triangle_self_of_lt j.isLt, getElem_put, if_pos rfl, mul_div_cancel₀ _ hdiagonal,
        h.pending j (Nat.lt_succ_self _) hj]
      ring
    · rw [← h.solved l hgt hlt]
      refine Finset.sum_congr rfl fun i _ => ?_
      by_cases hij : j = i
      · rw [← hij, s.triangle_of_gt (Fin.lt_def.2 hgt), zero_mul, zero_mul]
      · rw [getElem_put, if_neg hij]
  zero l hle := by
    have hne : j ≠ l := by
      rintro rfl
      exact absurd hj (Nat.not_lt.2 hle)
    rw [getElem_put, if_neg hne, h.zero l hle]
  pending l hl hlt := by
    have hne : j ≠ l := (Fin.lt_def.2 hl).ne'
    rw [getElem_put, if_neg hne]
    exact h.pending l (Nat.lt_succ_of_lt hl) hlt

/-- Above the first zero of the diagonal the triangular system is solved, and from there on the
solution is zero. -/
theorem substitutes_backSubstitute (s : Stage ℝ n) :
    Substitutes s (s.row.toList.findIdx (· == 0)) 0 (backSubstitute s.r s.row s.rhs) := by
  refine foldl_reverse_take (findIdx_le s.row) ⟨fun l hle hlt => ?_, fun l hle => ?_, fun l hlt _ => ?_⟩
    fun j hj z hz => hz.put hj (ne_zero_of_lt_findIdx hj)
  · exact absurd hlt (Nat.not_lt.2 hle)
  · rw [getElem_ofFn, if_neg (Nat.not_lt.2 hle)]
  · rw [getElem_ofFn, if_pos hlt]

end BackSubstitute

end DampedSolve

/-! ### What the solve returns -/

/-- The back substitution reaches place `j`: there is no zero on the diagonal of `S` up to it. -/
def DampedSolution.Reaches (solution : DampedSolution ℝ n) (j : Fin n) : Prop :=
  ∀ i, i ≤ j → solution.diagonal[i] ≠ 0

section DampedSolve

open DampedSolve

theorem getElem_s (stage : Stage ℝ n) (x : Vector ℝ n) (l i : Fin n) :
    (⟨x, stage.row, stage.r⟩ : DampedSolution ℝ n).s[l][i] = stage.triangle n l i := by
  rw [DampedSolution.s, Mat.getElem_ofFn]
  rcases lt_trichotomy l i with hlt | rfl | hgt
  · rw [if_pos hlt, Stage.triangle_of_lt hlt]
  · rw [if_neg (lt_irrefl l), if_pos rfl, Stage.triangle_self_of_lt l.isLt]
  · rw [if_neg hgt.asymm, if_neg hgt.ne', Stage.triangle_of_gt hgt]

theorem s_of_gt (solution : DampedSolution ℝ n) {l i : Fin n} (h : i < l) : solution.s[l][i] = 0 := by
  rw [DampedSolution.s, Mat.getElem_ofFn, if_neg h.asymm, if_neg h.ne']

theorem s_self (solution : DampedSolution ℝ n) (j : Fin n) :
    solution.s[j][j] = solution.diagonal[j] := by
  rw [DampedSolution.s, Mat.getElem_ofFn, if_neg (lt_irrefl j), if_pos rfl]

variable (r : Mat ℝ n n) {pivot : Vector (Fin n) n} (damping b : Vector ℝ n)

theorem upperPart_dampedSolve (i j : Fin n) :
    upperPart (dampedSolve r pivot damping b).workspace i j = upperPart r i j := by
  have h := Stage.eliminates_foldl r (fun j => damping[pivot[j]]) b
  rcases lt_trichotomy i j with hlt | rfl | hgt
  · rw [upperPart, upperPart, if_pos hlt.le, if_pos hlt.le]
    exact h.upper i j hlt
  · rw [upperPart_self, upperPart_self]
    exact h.diagonal i i.isLt
  · rw [upperPart_of_lt _ hgt, upperPart_of_lt _ hgt]

/-- Products of columns of `S` are those of `R`, with the squares of `D` on the diagonal. -/
theorem sum_s_mul (pivot : Vector (Fin n) n) (i j : Fin n) :
    ∑ l : Fin n, (dampedSolve r pivot damping b).s[l][i] * (dampedSolve r pivot damping b).s[l][j] =
      ∑ l, upperPart r l i * upperPart r l j + if i = j then damping[pivot[i]] ^ 2 else 0 := by
  have hgram := (Stage.eliminates_foldl r (fun j => damping[pivot[j]]) b).gram i j
  simp only [i.isLt, and_true] at hgram
  rw [← hgram]
  exact Finset.sum_congr rfl fun l _ => congrArg₂ (· * ·) (getElem_s _ _ l i) (getElem_s _ _ l j)

theorem diagonal_dampedSolve_ne_zero {j : Fin n} (h : damping[pivot[j]] ≠ 0) :
    (dampedSolve r pivot damping b).diagonal[j] ≠ 0 :=
  (Stage.eliminates_foldl r (fun j => damping[pivot[j]]) b).regular j j.isLt h

section Distinct

variable (hpivot : Distinct pivot)

include hpivot

/-- Components that the back substitution does not reach are zero. -/
theorem dampedSolve_eq_zero {j : Fin n} (h : ¬ (dampedSolve r pivot damping b).Reaches j) :
    (dampedSolve r pivot damping b).x[pivot[j]] = 0 := by
  refine (getElem_unpermute hpivot _ j).trans ((substitutes_backSubstitute _).zero j ?_)
  exact not_lt.1 (mt lt_findIdx_iff.1 h)

/-- The solve solves the normal equation of column `j` of `R` and `D` if the rows of `S` that it does
not reach have no entry in this column. -/
theorem dampedSolve_normal_of {j : Fin n} (h : ∀ l, (dampedSolve r pivot damping b).Reaches l ∨
      (dampedSolve r pivot damping b).s[l][j] = 0) :
    ∑ i, (∑ l, upperPart r l j * upperPart r l i) *
        (dampedSolve r pivot damping b).x[pivot[i]] +
      damping[pivot[j]] ^ 2 * (dampedSolve r pivot damping b).x[pivot[j]] =
    ∑ l, upperPart r l j * b[l] := by
  have helim := Stage.eliminates_foldl r (fun j => damping[pivot[j]]) b
  set s : Stage ℝ n := (List.finRange n).foldl
    (fun s j => s.eliminate j damping[pivot[j]] r[j][j])
    ⟨mirror r, b, Vector.replicate n 0, 0⟩ with hs
  set z := backSubstitute s.r s.row s.rhs with hz
  have hx : ∀ i : Fin n, (dampedSolve r pivot damping b).x[pivot[i]] = z[i] :=
    getElem_unpermute hpivot z
  -- each row of the triangle is solved or has no entry in column `j`
  have hrow : ∀ l, s.triangle n l j * ∑ i, s.triangle n l i * z[i] = s.triangle n l j * s.rhs[l] := by
    intro l
    rcases h l with hreached | hzero
    · rw [(substitutes_backSubstitute s).solved l (Nat.zero_le _) (lt_findIdx_iff.2 hreached)]
    · have hentry : s.triangle n l j = 0 := (getElem_s s _ l j).symm.trans hzero
      rw [hentry, zero_mul, zero_mul]
  have hgram : ∀ i, (∑ l, upperPart r l j * upperPart r l i) * z[i] =
      (∑ l, s.triangle n l j * s.triangle n l i) * z[i] -
        (if j = i then damping[pivot[j]] ^ 2 * z[i] else 0) := by
    intro i
    rw [helim.gram]
    by_cases hji : j = i
    · rw [if_pos ⟨hji, j.isLt⟩, if_pos hji]
      ring
    · rw [if_neg fun hand => hji hand.1, if_neg hji]
      ring
  simp only [hx]
  calc ∑ i, (∑ l, upperPart r l j * upperPart r l i) * z[i] + damping[pivot[j]] ^ 2 * z[j]
      = ∑ i, (∑ l, s.triangle n l j * s.triangle n l i) * z[i] := by
        rw [Finset.sum_congr rfl fun i _ => hgram i, Finset.sum_sub_distrib,
          Finset.sum_ite_eq Finset.univ j, if_pos (Finset.mem_univ j)]
        ring
    _ = ∑ l, s.triangle n l j * ∑ i, s.triangle n l i * z[i] := by
        simp only [Finset.sum_mul, Finset.mul_sum]
        rw [Finset.sum_comm]
        exact Finset.sum_congr rfl fun l _ => Finset.sum_congr rfl fun i _ => mul_assoc _ _ _
    _ = ∑ l, upperPart r l j * b[l] := by
        simp only [hrow]
        exact helim.moment j

/-- The normal equation of a column that is reached is solved: later rows of `S` have no entry in
it. -/
theorem dampedSolve_normal_of_reaches {j : Fin n} (h : (dampedSolve r pivot damping b).Reaches j) :
    ∑ i, (∑ l, upperPart r l j * upperPart r l i) *
        (dampedSolve r pivot damping b).x[pivot[i]] +
      damping[pivot[j]] ^ 2 * (dampedSolve r pivot damping b).x[pivot[j]] =
    ∑ l, upperPart r l j * b[l] := by
  refine dampedSolve_normal_of r damping b hpivot fun l => ?_
  rcases le_or_gt l j with hle | hlt
  · exact .inl fun i hi => h i (hi.trans hle)
  · exact .inr (s_of_gt _ hlt)

/-- Without a zero on the diagonal, the solve solves the normal equations of `R` and `D`. -/
theorem dampedSolve_normal (hdamping : ∀ j : Fin n, damping[j] ≠ 0) (j : Fin n) :
    ∑ i, (∑ l, upperPart r l j * upperPart r l i) *
        (dampedSolve r pivot damping b).x[pivot[i]] +
      damping[pivot[j]] ^ 2 * (dampedSolve r pivot damping b).x[pivot[j]] =
    ∑ l, upperPart r l j * b[l] :=
  dampedSolve_normal_of_reaches r damping b hpivot fun _ _ =>
    diagonal_dampedSolve_ne_zero r damping b (hdamping _)

end Distinct

end DampedSolve

end LeastSquares
