import LeastSquares.Proofs.Differences
import Mathlib.Analysis.Calculus.Deriv.Pow
import Mathlib.Topology.Algebra.Module.ModuleTopology

/-!
How exact a Jacobian by differences is. A column moves one parameter and no other: it evaluates the
function at one point, or at two for differences on both sides. The quotient is the derivative where
the function is affine in the parameter, since the sign and the length of the step cancel, and on both
sides also where it is quadratic, since the second-order terms cancel as well. Which points are
evaluated is said by a function that takes note of them, in any monad.
-/

namespace LeastSquares

variable {n m k : ℕ}

/-! ### The points of a column -/

namespace DifferenceRule

variable {rule : DifferenceRule ℝ} {x scale : ℝ}

theorem length_points (rule : DifferenceRule ℝ) (x scale : ℝ) :
    (rule.points x scale).length = if rule.side = .both then 2 else 1 := by
  rw [points]
  split
  · rfl
  · rfl

theorem mem_points {v : ℝ} (hv : v ∈ rule.points x scale) :
    v = x + rule.signedStep x scale ∨ v = x + -rule.signedStep x scale := by
  rw [points] at hv
  split at hv
  · simpa [← sub_eq_add_neg] using hv
  · exact .inl (List.mem_singleton.1 hv)

theorem exists_of_mem_points (h : rule.Positive) (hscale : 0 < scale) {v : ℝ}
    (hv : v ∈ rule.points x scale) :
    ∃ d, d ≠ 0 ∧ (∀ cap ∈ rule.maxStep, |d| ≤ cap) ∧ v = x + d := by
  have hne := signedStep_ne_zero (x := x) h.maxStep hscale
  have hcap : ∀ cap ∈ rule.maxStep, |rule.signedStep x scale| ≤ cap := by
    intro cap hcap
    rw [abs_signedStep h hscale]
    exact stepLength_le hcap hscale.le
  rcases mem_points hv with rfl | rfl
  · exact ⟨_, hne, hcap, rfl⟩
  · exact ⟨_, neg_ne_zero.2 hne, by rwa [abs_neg], rfl⟩

theorem nodup_points (h : rule.Positive) (hscale : 0 < scale) : (rule.points x scale).Nodup := by
  have hne := signedStep_ne_zero (x := x) h.maxStep hscale
  rw [points]
  split
  · refine List.nodup_cons.2 ⟨fun hmem => hne ?_, List.nodup_singleton _⟩
    linarith [List.mem_singleton.1 hmem]
  · exact List.nodup_singleton _

end DifferenceRule

theorem put_injective (x : Vector ℝ n) (j : Fin n) : Function.Injective (put x j) := by
  intro v w h
  have hentry : (put x j v)[j] = (put x j w)[j] := by rw [h]
  rwa [getElem_put, getElem_put, if_pos rfl, if_pos rfl] at hentry

/-! ### Evaluations that are noted -/

section Noted

variable {M : Type → Type} [Monad M] [LawfulMonad M]

theorem ofFnM_forM {β γ : Type} {note : β → M Unit} {f : Fin k → M γ} {v : Fin k → γ}
    {calls : Fin k → List β} (h : ∀ c, f c = do (calls c).forM note; return v c) :
    Vector.ofFnM f = do ((List.finRange k).flatMap calls).forM note; return Vector.ofFn v := by
  induction k with
  | zero =>
      have hempty : Vector.ofFn v = #v[] := by
        ext i hi
        exact absurd hi (Nat.not_lt_zero i)
      rw [Vector.ofFnM_zero, hempty]
      simp only [List.finRange_zero, List.flatMap_nil, List.forM_eq_forM, List.forM_nil, pure_bind]
  | succ k ih =>
      -- the last column notes its points after all the others
      have hcalls : (List.finRange (k + 1)).flatMap calls =
          ((List.finRange k).flatMap fun c => calls c.castSucc) ++ calls (Fin.last k) := by
        rw [List.finRange_succ_last, List.flatMap_append, List.flatMap_map, List.flatMap_singleton]
      rw [Vector.ofFnM_succ, ih fun c => h c.castSucc, h (Fin.last k), hcalls, Vector.ofFn_succ]
      simp only [List.forM_eq_forM, List.forM_append, bind_assoc, pure_bind]
      rfl

theorem differenceColumn_noted (note : Vector ℝ n → M Unit) (g : Vector ℝ n → Vector ℝ m)
    (x : Vector ℝ n) (j : Fin n) (rule : DifferenceRule ℝ) (scale : ℝ) :
    differenceColumn (fun y => do note y; return g y) x (g x) j rule scale = do
      ((rule.points x[j] scale).map (put x j)).forM note
      return differenceOf g x (g x) j rule scale := by
  by_cases hboth : rule.side = .both
  · simp [differenceColumn, differenceOf, DifferenceRule.points, hboth]
  · simp [differenceColumn, differenceOf, DifferenceRule.points, hboth]

end Noted

/-! ### Exactness -/

theorem hasDerivAt_quadratic (p q r x : ℝ) :
    HasDerivAt (fun t => p + q * t + r * t ^ 2) (q + 2 * r * x) x :=
  ((((hasDerivAt_id' x).const_mul q).const_add p).add
    ((hasDerivAt_pow 2 x).const_mul r)).congr_deriv (by ring)

/-- A quotient of differences is the derivative of a component that is affine in the parameter, and
on both sides also of one that is quadratic. -/
theorem hasDerivAt_differenceOf {g : Vector ℝ n → Vector ℝ m} {x : Vector ℝ n} {j : Fin n}
    {rule : DifferenceRule ℝ} {scale : ℝ} {i : Fin m} (h : rule.Positive) (hscale : 0 < scale)
    (p q r : ℝ) (hside : r = 0 ∨ rule.side = .both)
    (hg : ∀ t, (g (put x j t))[i] = p + q * t + r * t ^ 2) :
    HasDerivAt (fun t => (g (put x j t))[i]) (differenceOf g x (g x) j rule scale)[i] x[j] := by
  have hx : (g x)[i] = p + q * x[j] + r * x[j] ^ 2 := by rw [← hg, put_self]
  rw [differenceOf_quadratic p q r (DifferenceRule.signedStep_ne_zero h.maxStep hscale) hside hg hx]
  simp only [hg]
  exact hasDerivAt_quadratic p q r x[j]

/-- A Jacobian by differences of a function that does not fail evaluates it, for each free parameter,
at one point or, on both sides, at two; each differs from `x` in that parameter alone, by a step that
is not zero and no longer than the cap. The columns are exact derivatives of components that are
affine in the parameter, and those on both sides also of quadratic ones. -/
theorem difference_quotients_exact (g : Vector ℝ n → Vector ℝ m) (x : Vector ℝ n)
    (free : Vector (Fin n) k) {rules : Vector (DifferenceRule ℝ) k}
    (hrules : ∀ c : Fin k, rules[c].Positive) {scale : ℝ} (hscale : 0 < scale) :
    ∃ (a : Mat ℝ m k) (points : Fin k → List (Vector ℝ n)),
      (∀ {M : Type → Type} [Monad M] [LawfulMonad M] (note : Vector ℝ n → M Unit),
        differenceJacobian (fun y => do note y; return g y) x (g x) free rules scale = do
          ((List.finRange k).flatMap points).forM note
          return a) ∧
      ∀ c : Fin k,
        (points c).Nodup ∧ (points c).length = (if rules[c].side = .both then 2 else 1) ∧
        (∀ y ∈ points c, ∃ d, d ≠ 0 ∧ (∀ cap ∈ rules[c].maxStep, |d| ≤ cap) ∧
          y = put x free[c] (x[free[c]] + d)) ∧
        ∀ i : Fin m, let f := fun t => (g (put x free[c] t))[i]
          (∃ p q : ℝ, ∀ t, f t = p + q * t) ∨
              (rules[c].side = .both ∧ ∃ p q r : ℝ, ∀ t, f t = p + q * t + r * t ^ 2) →
            HasDerivAt f a[i][c] x[free[c]] := by
  let columns (c : Fin k) : Vector ℝ m := differenceOf g x (g x) free[c] rules[c] scale
  refine ⟨Mat.ofColumns (Vector.ofFn columns),
    fun c => (rules[c].points x[free[c]] scale).map (put x free[c]), fun note => ?_, fun c =>
      ⟨?_, ?_, fun y hy => ?_, ?_⟩⟩
  · rw [differenceJacobian_eq, ofFnM_forM fun c => differenceColumn_noted note g x free[c] rules[c] scale,
      bind_assoc]
    simp only [pure_bind]
    rfl
  · exact (DifferenceRule.nodup_points (hrules c) hscale).map (put_injective x free[c])
  · rw [List.length_map, DifferenceRule.length_points]
  · obtain ⟨v, hv, rfl⟩ := List.mem_map.1 hy
    obtain ⟨d, hne, hcap, rfl⟩ := DifferenceRule.exists_of_mem_points (hrules c) hscale hv
    exact ⟨d, hne, hcap, rfl⟩
  · intro i f hf
    rw [Mat.getElem_ofColumns, getElem_ofFn]
    rcases hf with ⟨p, q, hf⟩ | ⟨hboth, p, q, r, hf⟩
    · exact hasDerivAt_differenceOf (hrules c) hscale p q 0 (.inl rfl) fun t => (hf t).trans (by ring)
    · exact hasDerivAt_differenceOf (hrules c) hscale p q r (.inr hboth) hf

namespace Products

noncomputable def residuals (y : Vector ℝ 2) : Vector ℝ 2 :=
  #v[y.toList.prod, y.toList.sum + y.toList.headD 0 ^ 2]

noncomputable def point : Vector ℝ 2 := #v[2, 1]

def free : Vector (Fin 2) 2 := Vector.ofFn Fin.rev

/-- Capped steps back for the second parameter, and steps on both sides of the first, which is on its
upper limit. -/
noncomputable def rules : Vector (DifferenceRule ℝ) 2 :=
  #v[⟨some 1, true, some 2⁻¹, .negative, none⟩, ⟨none, false, none, .both, some 2⟩]

theorem positive : ∀ c : Fin 2, rules[c].Positive := by
  refine Fin.forall_fin_two.2 ⟨⟨fun h hh => ?_, fun cap hcap => ?_⟩, ⟨nofun, nofun⟩⟩
  · obtain rfl : (1 : ℝ) = h := Option.some.inj hh
    exact one_pos
  · obtain rfl : (2⁻¹ : ℝ) = cap := Option.some.inj hcap
    exact inv_pos.2 two_pos

noncomputable def noted (y : Vector ℝ 2) : StateM (List (Vector ℝ 2)) (Vector ℝ 2) := do
  modify (· ++ [y])
  return residuals y

theorem run_forM (l s : List (Vector ℝ 2)) :
    (l.forM fun y => (modify (· ++ [y]) : StateM (List (Vector ℝ 2)) Unit)).run s =
      ((), s ++ l) := by
  induction l generalizing s with
  | nil => rw [List.append_nil]; rfl
  | cons y l ih =>
      refine (ih (s ++ [y])).trans ?_
      rw [List.append_assoc, List.singleton_append]

end Products

/-- Three evaluations give the derivatives of both residuals, the second column by differences on both
sides. -/
theorem difference_quotients_exact_products :
    (∀ c : Fin 2, Products.rules[c].Positive) ∧
    ∃ points : List (Vector ℝ 2), points.length = 3 ∧
      (differenceJacobian Products.noted Products.point (Products.residuals Products.point)
        Products.free Products.rules (1 / 8)).run [] = (#v[#v[2, 1], #v[1, 5]], points) := by
  obtain ⟨a, points, hrun, hcolumns⟩ := difference_quotients_exact Products.residuals Products.point
    Products.free Products.positive (show (0 : ℝ) < 1 / 8 by norm_num)
  have hentry : ∀ (i c : Fin 2) (p q r : ℝ), (r = 0 ∨ Products.rules[c].side = .both) →
      (∀ t, (Products.residuals (put Products.point Products.free[c] t))[i] = p + q * t + r * t ^ 2) →
      a[i][c] = q + 2 * r * Products.point[Products.free[c]] := by
    intro i c p q r hside hf
    refine ((hcolumns c).2.2.2 i ?_).unique ?_
    · rcases hside with rfl | hboth
      · exact .inl ⟨p, q, fun t => (hf t).trans (by ring)⟩
      · exact .inr ⟨hboth, p, q, r, hf⟩
    · simp only [hf]
      exact hasDerivAt_quadratic p q r _
  have hmatrix : a = #v[#v[2, 1], #v[1, 5]] := by
    refine ext_getElem fun i => ext_getElem fun c => ?_
    fin_cases i <;> fin_cases c
    · refine (hentry 0 0 0 2 0 (.inl rfl) fun t => ?_).trans ?_
      · show 2 * (t * 1) = 0 + 2 * t + 0 * t ^ 2
        ring
      · show 2 + 2 * 0 * (1 : ℝ) = 2
        ring
    · refine (hentry 0 1 0 1 0 (.inl rfl) fun t => ?_).trans ?_
      · show t * (1 * 1) = 0 + 1 * t + 0 * t ^ 2
        ring
      · show 1 + 2 * 0 * (2 : ℝ) = 1
        ring
    · refine (hentry 1 0 6 1 0 (.inl rfl) fun t => ?_).trans ?_
      · show 2 + (t + 0) + 2 ^ 2 = 6 + 1 * t + 0 * t ^ 2
        ring
      · show 1 + 2 * 0 * (1 : ℝ) = 1
        ring
    · refine (hentry 1 1 1 1 1 (.inr rfl) fun t => ?_).trans ?_
      · show t + (1 + 0) + t ^ 2 = 1 + 1 * t + 1 * t ^ 2
        ring
      · show 1 + 2 * 1 * (2 : ℝ) = 5
        ring
  refine ⟨Products.positive, (List.finRange 2).flatMap points, ?_, ?_⟩
  · have hpoints : (List.finRange 2).flatMap points = points 0 ++ (points 1 ++ []) := rfl
    rw [hpoints, List.append_nil, List.length_append, (hcolumns 0).2.1, (hcolumns 1).2.1]
    rfl
  · have hnoted := hrun fun y => (modify (· ++ [y]) : StateM (List (Vector ℝ 2)) Unit)
    rw [hmatrix] at hnoted
    refine (congrArg (fun run => run.run []) hnoted).trans ?_
    rw [StateT.run_bind, Products.run_forM]
    rfl

end LeastSquares
