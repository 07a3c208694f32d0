import LeastSquares.Proofs.AffineRuns
import LeastSquares.Proofs.Differences

/-!
The two Jacobians of a residual function. The analytic one takes the columns of the free parameters
from all partial derivatives; the one by differences moves a free parameter and sees the tied ones
move with it. On residuals that are affine in the parameters, with affine ties, differences are exact
whatever their steps and sides, and what they give is the total derivative. So the two differ by the
derivatives through the ties, whose columns the analytic path ignores.
-/

namespace LeastSquares

variable {n m : ℕ}

namespace Store

variable {store : Store ℝ} {w : Mat ℝ store.size store.size} {v x : Vector ℝ store.size}

/-! ### Affine ties -/

/-- Every tie is an affine function of the untied parameters: row `i` of `w` has the weights of tie
`i`, and `v` its offset. -/
def TiesAffine (store : Store ℝ) (w : Mat ℝ store.size store.size) (v : Vector ℝ store.size) :
    Prop :=
  ∀ i t, (store.get i).tie = some t → ∀ x : Vector ℝ store.size,
    t.value x = ∑ j with (store.get j).isTied = false, w[i][j] * x[j] + v[i]

/-- The Jacobian with respect to the free parameters when the tied ones follow: to each partial
derivative it adds those with respect to the tied parameters, by the weights of their ties. -/
noncomputable def totalColumns (store : Store ℝ) (a : Mat ℝ m store.size)
    (w : Mat ℝ store.size store.size) : Mat ℝ m store.free.size :=
  Mat.ofFn fun l c => a[l][store.freePlaces[c]] +
    ∑ t with (store.get t).isTied = true, a[l][t] * w[t][store.freePlaces[c]]

theorem TiesAffine.ordered (h : store.TiesAffine w v) : store.TiesOrdered := by
  intro i t ht x y hxy
  rw [h i t ht, h i t ht]
  refine congrArg (· + v[i]) (Finset.sum_congr rfl fun j hj => ?_)
  rw [hxy j (.inl (isTied_eq_false.1 (Finset.mem_filter.1 hj).2))]

theorem TiesAffine.getElem_applyTies (h : store.TiesAffine w v) {i : Fin store.size}
    (hi : (store.get i).isTied = true) (x : Vector ℝ store.size) :
    (store.applyTies x)[i] = ∑ j with (store.get j).isTied = false, w[i][j] * x[j] + v[i] := by
  obtain ⟨t, ht⟩ := Option.isSome_iff_exists.1 hi
  rw [store.tiesHold_applyTies h.ordered x i t ht, h i t ht]
  refine congrArg (· + v[i]) (Finset.sum_congr rfl fun j hj => ?_)
  rw [store.getElem_applyTies_of_untied x (isTied_eq_false.1 (Finset.mem_filter.1 hj).2)]

theorem TiesAffine.getElem_applyTies_put (h : store.TiesAffine w v) {p : Fin store.size}
    (hp : (store.get p).isTied = false) (x : Vector ℝ store.size) (d : ℝ) (i : Fin store.size) :
    (store.applyTies (LeastSquares.put x p (x[p] + d)))[i] = (store.applyTies x)[i] +
      d * if (store.get i).isTied = true then w[i][p] else if i = p then 1 else 0 := by
  by_cases hi : (store.get i).isTied = true
  · have hmoved : ∀ j : Fin store.size, w[i][j] * (LeastSquares.put x p (x[p] + d))[j] =
        w[i][j] * x[j] + if p = j then d * w[i][j] else 0 := by
      intro j
      rw [getElem_put]
      split
      · next hpj =>
        subst hpj
        ring
      · ring
    rw [h.getElem_applyTies hi, h.getElem_applyTies hi, if_pos hi,
      Finset.sum_congr rfl fun j _ => hmoved j, Finset.sum_add_distrib, Finset.sum_ite_eq,
      if_pos (Finset.mem_filter.2 ⟨Finset.mem_univ p, hp⟩)]
    ring
  · have huntied := isTied_eq_false.1 (Bool.not_eq_true _ ▸ hi)
    rw [store.getElem_applyTies_of_untied _ huntied, store.getElem_applyTies_of_untied _ huntied,
      if_neg hi, getElem_put]
    by_cases hip : i = p
    · rw [if_pos hip.symm, if_pos hip, hip, mul_one]
    · rw [if_neg (Ne.symm hip), if_neg hip, mul_zero, add_zero]

theorem TiesAffine.affine_applyTies_put (h : store.TiesAffine w v) (a : Mat ℝ m store.size)
    (b : Vector ℝ m) (x : Vector ℝ store.size) (c : Fin store.free.size) (d : ℝ) (l : Fin m) :
    (affine a b (store.applyTies (LeastSquares.put x store.freePlaces[c]
        (x[store.freePlaces[c]] + d))))[l] =
      (affine a b (store.applyTies x))[l] + d * (store.totalColumns a w)[l][c] := by
  have hp : (store.get store.freePlaces[c]).isTied = false :=
    isTied_eq_false.2 (isFree_eq_true.1 (store.isFree_freePlaces c)).2
  -- a tied parameter moves by its weight, the free one by all of the step, and no other moves
  have hterm : ∀ i : Fin store.size,
      a[l][i] * (store.applyTies (LeastSquares.put x store.freePlaces[c]
        (x[store.freePlaces[c]] + d)))[i] =
      a[l][i] * (store.applyTies x)[i] +
        d * ((if (store.get i).isTied = true then a[l][i] * w[i][store.freePlaces[c]] else 0) +
          if store.freePlaces[c] = i then a[l][i] else 0) := by
    intro i
    rw [h.getElem_applyTies_put hp]
    by_cases hi : (store.get i).isTied = true
    · have hne : store.freePlaces[c] ≠ i := by
        rintro rfl
        rw [hp] at hi
        cases hi
      rw [if_pos hi, if_pos hi, if_neg hne]
      ring
    · rw [if_neg hi, if_neg hi]
      by_cases hip : i = store.freePlaces[c]
      · rw [if_pos hip, if_pos hip.symm]
        ring
      · rw [if_neg hip, if_neg (Ne.symm hip)]
        ring
  rw [affine, affine, getElem_ofFn, getElem_ofFn, totalColumns, Mat.getElem_ofFn,
    Finset.sum_congr rfl fun i _ => hterm i, Finset.sum_add_distrib, ← Finset.mul_sum,
    Finset.sum_add_distrib, Finset.sum_ite_eq, if_pos (Finset.mem_univ _), Finset.sum_filter]
  ring

end Store

/-! ### Both Jacobians -/

section Jacobians

variable {store : Store ℝ} {function : ResidualFunction ℝ} {options : Options ℝ}
  {a : Mat ℝ function.count store.size} {b : Vector ℝ function.count}
  {w : Mat ℝ store.size store.size} {v x : Vector ℝ store.size}

/-- The difference quotients of affine residuals are exact, on either side and for every step. -/
theorem differenceOf_affine (hties : store.TiesAffine w v) (hx : store.TiesHold x)
    (c : Fin store.free.size) {rule : DifferenceRule ℝ} (hcap : ∀ cap ∈ rule.maxStep, 0 < cap)
    {scale : ℝ} (hscale : 0 < scale) (l : Fin function.count) :
    (differenceOf (fun y => affine a b (store.applyTies y)) x (affine a b x) store.freePlaces[c] rule
      scale)[l] = (store.totalColumns a w)[l][c] := by
  set place := store.freePlaces[c]
  set slope := (store.totalColumns a w)[l][c]
  have hmoved : ∀ t, (affine a b (store.applyTies (LeastSquares.put x place t)))[l] =
      (affine a b x)[l] - slope * x[place] + slope * t + 0 * t ^ 2 := by
    intro t
    have hstep := hties.affine_applyTies_put a b x c (t - x[place]) l
    rw [hx.applyTies_eq hties.ordered, add_sub_cancel] at hstep
    rw [hstep]
    ring
  rw [differenceOf_quadratic ((affine a b x)[l] - slope * x[place]) slope 0
    (DifferenceRule.signedStep_ne_zero hcap hscale) (.inl rfl) hmoved (by ring)]
  ring

theorem jacobianAt_difference_of_eval
    (heval : ∀ x : Vector ℝ store.size, function.eval x = .ok (affine a b x))
    (hties : store.TiesAffine w v)
    (hcaps : ∀ c : Fin store.free.size, ∀ cap ∈ (store.get store.freePlaces[c]).maxStep, 0 < cap)
    (hdamp : options.damp = 0) (hx : store.TiesHold x) (j : Journal ℝ store.size) :
    ∃ i, ((Setting.ofStore store function options .finiteDifference).jacobianAt x
      (affine a b x)).resume j = (.ok (store.totalColumns a w), i) := by
  set s := Setting.ofStore store function options .finiteDifference
  have hseen : s.seen (affine a b) = fun y => affine a b (store.applyTies y) := by
    funext y
    exact Setting.map_dampen_eq (s := s) hdamp _
  obtain ⟨i, hrun, -⟩ := Setting.jacobianAt_of_eval (s := s) rfl heval x (affine a b x) j
  refine ⟨i, hrun.trans ?_⟩
  congr 2
  refine ext_getElem fun l => ext_getElem fun c => ?_
  rw [Mat.getElem_ofFn, hseen]
  refine differenceOf_affine hties hx c ?_ s.options.differenceScale_pos l
  rw [Store.rules_ofStore]
  exact hcaps _

theorem jacobianAt_difference_affine (hfunction : function.IsAffine a b)
    (hties : store.TiesAffine w v) (hsteps : ∀ i, (store.get i).StepsPositive)
    (hdamp : options.damp = 0) (hx : store.TiesHold x) (j : Journal ℝ store.size) :
    ∃ i, ((Setting.ofStore store function options .finiteDifference).jacobianAt x
      (affine a b x)).resume j = (.ok (store.totalColumns a w), i) :=
  jacobianAt_difference_of_eval hfunction.eval hties (fun _ => (hsteps _).maxStep) hdamp hx j

theorem freeColumns_eq_totalColumns_iff :
    store.freeColumns a = store.totalColumns a w ↔
      ∀ (l : Fin function.count) (c : Fin store.free.size),
        ∑ t with (store.get t).isTied = true, a[l][t] * w[t][store.freePlaces[c]] = 0 := by
  constructor
  · intro h l c
    have hentry : (store.freeColumns a)[l][c] = (store.totalColumns a w)[l][c] := by rw [h]
    rw [Store.freeColumns, Store.totalColumns, Mat.getElem_ofFn, Mat.getElem_ofFn] at hentry
    linarith
  · intro h
    refine ext_getElem fun l => ext_getElem fun c => ?_
    rw [Store.freeColumns, Store.totalColumns, Mat.getElem_ofFn, Mat.getElem_ofFn, h l c, add_zero]

/-- In exact arithmetic, for residuals that are affine in all parameters and come with their partial
derivatives, for affine ties, and whatever steps and sides were set: both Jacobians succeed where the
ties hold. The analytic one has the partial derivatives with respect to the free parameters, the one
by differences the total derivatives, and they are the same if and only if nothing reaches the
residuals through the ties. -/
theorem jacobians_of_affine (hfunction : function.IsAffine a b) (hties : store.TiesAffine w v)
    (hsteps : ∀ i, (store.get i).StepsPositive) (hdamp : options.damp = 0) (hx : store.TiesHold x)
    (j : Journal ℝ store.size) :
    (∃ i, ((Setting.ofStore store function options .analytic).jacobianAt x
      (affine a b x)).resume j = (.ok (store.freeColumns a), i)) ∧
    (∃ i, ((Setting.ofStore store function options .finiteDifference).jacobianAt x
      (affine a b x)).resume j = (.ok (store.totalColumns a w), i)) ∧
    (store.freeColumns a = store.totalColumns a w ↔
      ∀ (l : Fin function.count) (c : Fin store.free.size),
        ∑ t with (store.get t).isTied = true, a[l][t] * w[t][store.freePlaces[c]] = 0) := by
  exact ⟨Setting.jacobianAt_of_analytic rfl (hfunction.jacobian _) _,
    jacobianAt_difference_affine hfunction hties hsteps hdamp hx j, freeColumns_eq_totalColumns_iff⟩

end Jacobians

/-! ### A tied pair -/

/-- Two parameters, of which the second is tied to the first. -/
noncomputable def tiedPair : Store ℝ := ⟨#[.ofValue 1, { tie := some ⟨fun x => x.toList.headD 0⟩ }]⟩

theorem forall_tiedPair {P : Fin tiedPair.size → Prop} :
    (∀ i, P i) ↔ P (0 : Fin 2) ∧ P (1 : Fin 2) :=
  Fin.forall_fin_two

noncomputable def tiedPairWeights : Mat ℝ 2 2 := Mat.ofFn fun _ => ![1, 0]

noncomputable def pairRow (q : ℝ) : Mat ℝ 1 2 := #v[#v[1, q]]

theorem tiesAffine_tiedPair : tiedPair.TiesAffine tiedPairWeights (Vector.replicate 2 0) := by
  refine forall_tiedPair.2 ⟨fun t ht => ?_, fun t ht x => ?_⟩
  · cases ht
  · have hsum : ∑ j with (tiedPair.get j).isTied = false, tiedPairWeights[(1 : Fin 2)][j] * x[j] =
        x[(0 : Fin 2)] := by
      rw [Finset.sum_filter]
      refine (Fin.sum_univ_two _).trans ?_
      rw [if_pos (show (tiedPair.get (0 : Fin 2)).isTied = false from rfl),
        if_neg (show ¬ (tiedPair.get (1 : Fin 2)).isTied = false from Bool.noConfusion), add_zero]
      exact one_mul _
    have hoffset : (Vector.replicate 2 0 : Vector ℝ 2)[(1 : Fin 2)] = 0 := rfl
    cases ht
    refine Eq.trans ?_ (congrArg₂ (· + ·) hsum hoffset).symm
    rw [add_zero]
    obtain ⟨⟨l⟩, hl⟩ := x
    obtain ⟨y, z, rfl⟩ := List.length_eq_two.1 hl
    rfl

theorem stepsPositive_tiedPair : ∀ i, (tiedPair.get i).StepsPositive :=
  forall_tiedPair.2 ⟨⟨nofun, nofun⟩, ⟨nofun, nofun⟩⟩

theorem tiesHold_tiedPair : tiedPair.TiesHold #v[1, 1] := by
  refine forall_tiedPair.2 ⟨fun t ht => ?_, fun t ht => ?_⟩
  · cases ht
  · cases ht
    rfl

theorem freePlaces_tiedPair (c : Fin tiedPair.free.size) : tiedPair.freePlaces[c] = (0 : Fin 2) := by
  have hfree := tiedPair.isFree_freePlaces c
  revert hfree
  generalize tiedPair.freePlaces[c] = i
  revert i
  refine forall_tiedPair.2 ⟨fun _ => rfl, fun h => ?_⟩
  simp [tiedPair, Store.get, Parameter.isFree, Parameter.isTied] at h

theorem sum_tied_tiedPair (q : ℝ) (l : Fin 1) (c : Fin tiedPair.free.size) :
    ∑ t : Fin tiedPair.size with (tiedPair.get t).isTied = true,
      (show Mat ℝ 1 tiedPair.size from pairRow q)[l][t] *
        (show Mat ℝ tiedPair.size tiedPair.size from tiedPairWeights)[t][tiedPair.freePlaces[c]] =
      q := by
  rw [Finset.sum_filter, freePlaces_tiedPair]
  refine (Fin.sum_univ_two _).trans ?_
  rw [if_neg (show ¬ (tiedPair.get (0 : Fin 2)).isTied = true from Bool.noConfusion),
    if_pos (show (tiedPair.get (1 : Fin 2)).isTied = true from rfl), zero_add]
  have hrow : (pairRow q)[l][(1 : Fin 2)] = q := by
    rw [Subsingleton.elim l 0]
    rfl
  have hweight : tiedPairWeights[(1 : Fin 2)][(0 : Fin 2)] = 1 := rfl
  exact (congrArg₂ (· * ·) hrow hweight).trans (mul_one q)

/-- Where the tied parameter does not count, the Jacobians are the same. -/
theorem jacobians_of_tiedPair :
    ∃ jacobian i i', ((Setting.ofStore tiedPair (.ofAffine (pairRow 0) (Vector.replicate 1 0)) .default
        .analytic).jacobianAt #v[1, 1] (affine (pairRow 0) (Vector.replicate 1 0) #v[1, 1])).resume
        .empty = (.ok jacobian, i) ∧
      ((Setting.ofStore tiedPair (.ofAffine (pairRow 0) (Vector.replicate 1 0)) .default
        .finiteDifference).jacobianAt #v[1, 1] (affine (pairRow 0) (Vector.replicate 1 0)
          #v[1, 1])).resume .empty = (.ok jacobian, i') := by
  have hdamp : (Options.default : Options ℝ).damp = 0 := rfl
  obtain ⟨⟨i, hi⟩, ⟨i', hi'⟩, hiff⟩ := jacobians_of_affine
    (ResidualFunction.isAffine_ofAffine (pairRow 0) (Vector.replicate 1 0)) tiesAffine_tiedPair
    stepsPositive_tiedPair hdamp tiesHold_tiedPair .empty
  refine ⟨_, i, i', hi, ?_⟩
  rw [hiff.2 fun l c => sum_tied_tiedPair 0 l c]
  exact hi'

/-- Where it counts, they are not: the columns of tied parameters are not looked at. -/
theorem exists_jacobians_differ :
    ∃ (store : Store ℝ) (function : ResidualFunction ℝ) (a : Mat ℝ function.count store.size)
      (b : Vector ℝ function.count) (w : Mat ℝ store.size store.size) (v x : Vector ℝ store.size),
      function.IsAffine a b ∧ store.TiesAffine w v ∧ (∀ i, (store.get i).StepsPositive) ∧
      store.TiesHold x ∧ ∃ exact numeric i i',
        ((Setting.ofStore store function .default .analytic).jacobianAt x (affine a b x)).resume
          .empty = (.ok exact, i) ∧
        ((Setting.ofStore store function .default .finiteDifference).jacobianAt x
          (affine a b x)).resume .empty = (.ok numeric, i') ∧ exact ≠ numeric := by
  have hfunction := ResidualFunction.isAffine_ofAffine (pairRow 1) (Vector.replicate 1 0)
  obtain ⟨i, hi⟩ := Setting.jacobianAt_of_analytic
    (s := Setting.ofStore tiedPair (.ofAffine (pairRow 1) (Vector.replicate 1 0)) .default .analytic)
    (x := #v[1, 1]) (j := .empty) rfl (hfunction.jacobian (tiedPair.applyTies #v[1, 1]))
    (affine (pairRow 1) (Vector.replicate 1 0) #v[1, 1])
  have hdamp : (Options.default : Options ℝ).damp = 0 := rfl
  obtain ⟨i', hi'⟩ := jacobianAt_difference_affine hfunction tiesAffine_tiedPair
    stepsPositive_tiedPair hdamp tiesHold_tiedPair .empty
  refine ⟨tiedPair, _, _, _, _, _, #v[1, 1], hfunction, tiesAffine_tiedPair, stepsPositive_tiedPair,
    tiesHold_tiedPair, _, _, i, i', hi, hi', fun heq => ?_⟩
  obtain ⟨c, -⟩ := tiedPair.exists_freePlaces (i := (0 : Fin 2)) (by
    simp [tiedPair, Store.get, Parameter.isFree, Parameter.isFixed, Parameter.isTied,
      Parameter.ofValue, Bounds.isDegenerate])
  have hsum := freeColumns_eq_totalColumns_iff.1 heq (0 : Fin 1) c
  exact one_ne_zero ((sum_tied_tiedPair 1 0 c).symm.trans hsum)

end LeastSquares
