import LeastSquares.Proofs.Assertions
import LeastSquares.Proofs.Selection

/-!
Constraints hold at every evaluation of a fit: untied parameters are finite and inside their limits
at every trial point, fixed ones keep their starting values at every point at all, probes for
differences included, and tied ones have the values of their ties.

Trial points enter their limits by `snap` alone. What that needs of the arithmetic is gathered in
the class `LimitArithmetic`; the rest holds for any arithmetic. A run is judged by its journal,
which records every call also when the run fails, so the statements need no successful fit.
-/

namespace LeastSquares

/-! ### Limits -/

/-- What limits need of an arithmetic: a number order in which rounding does not carry a threshold
past the limit it belongs to. -/
class LimitArithmetic (α : Type) [Scalar α] : Prop where
  le_trans {a b c : α} : a ≤ b → b ≤ c → a ≤ c
  le_total {a b : α} : Scalar.isNumber a = true → Scalar.isNumber b = true → a ≤ b ∨ b ≤ a
  isNumber_of_isFinite {a : α} : Scalar.isFinite a = true → Scalar.isNumber a = true
  isNumber_of_le {a b : α} : a ≤ b → Scalar.isNumber a = true ∧ Scalar.isNumber b = true
  le_of_infinite {a b c : α} : Scalar.isFinite a = false → a ≤ b → Scalar.isFinite b = true →
    Scalar.isFinite c = true → a ≤ c
  infinite_le {a b c : α} : Scalar.isFinite a = false → b ≤ a → Scalar.isFinite b = true →
    Scalar.isFinite c = true → c ≤ a
  upperThreshold_le {u : α} : Scalar.isFinite u = true → StepLimits.upperThreshold u ≤ u
  le_lowerThreshold {l : α} : Scalar.isFinite l = true → l ≤ StepLimits.lowerThreshold l

namespace StepLimits

variable {α : Type} [Scalar α] [LimitArithmetic α]

open LimitArithmetic

theorem le_self {a : α} (h : Scalar.isFinite a = true) : a ≤ a :=
  (le_total (isNumber_of_isFinite h) (isNumber_of_isFinite h)).elim id id

theorem snapToUpper_le {u value : α} (hu : Scalar.isFinite u = true)
    (hvalue : Scalar.isFinite (snapToUpper u value) = true) : snapToUpper u value ≤ u := by
  unfold snapToUpper at hvalue ⊢
  have hthreshold := upperThreshold_le hu
  split
  · exact le_self hu
  · next hlt =>
    rw [if_neg hlt] at hvalue
    have := le_total (isNumber_of_le hthreshold).1 (isNumber_of_isFinite hvalue)
    exact le_trans (this.resolve_left hlt) hthreshold

theorem le_snapToLower {l value : α} (hl : Scalar.isFinite l = true)
    (hvalue : Scalar.isFinite (snapToLower l value) = true) : l ≤ snapToLower l value := by
  unfold snapToLower at hvalue ⊢
  have hthreshold := le_lowerThreshold hl
  split
  · exact le_self hl
  · next hlt =>
    rw [if_neg hlt] at hvalue
    have := le_total (isNumber_of_isFinite hvalue) (isNumber_of_le hthreshold).2
    exact le_trans hthreshold (this.resolve_left hlt)

omit [LimitArithmetic α] in
theorem snapToLower_eq_or (l value : α) :
    snapToLower l value = l ∨ snapToLower l value = value := by
  unfold snapToLower
  split
  · exact .inl rfl
  · exact .inr rfl

theorem le_snapValue {l value : α} {upper : Option α} (hl : Scalar.isFinite l = true)
    (hfinite : Scalar.isFinite (snapValue (some l) upper value) = true) :
    l ≤ snapValue (some l) upper value :=
  le_snapToLower hl hfinite

/-- The lower limit is put on last; it does not undo the upper one, which it does not exceed. -/
theorem snapValue_le {u value : α} {lower : Option α} (hu : Scalar.isFinite u = true)
    (hlower : ∀ l ∈ lower, l ≤ u)
    (hfinite : Scalar.isFinite (snapValue lower (some u) value) = true) :
    snapValue lower (some u) value ≤ u := by
  cases lower with
  | none => exact snapToUpper_le hu hfinite
  | some l =>
      change Scalar.isFinite (snapToLower l (snapToUpper u value)) = true at hfinite
      change snapToLower l (snapToUpper u value) ≤ u
      rcases snapToLower_eq_or l (snapToUpper u value) with heq | heq
      · rw [heq]
        exact hlower l rfl
      · rw [heq] at hfinite ⊢
        exact snapToUpper_le hu hfinite

omit [LimitArithmetic α] in
theorem getElem_snap {k : ℕ} (limits : StepLimits α k) (trial : Vector α k) (c : Fin k) :
    (limits.snap trial)[c] = snapValue limits.lower[c] limits.upper[c] trial[c] :=
  getElem_ofFn _ c

/-- A finite value that was snapped to the finite limits of some bounds lies within the bounds, as
soon as anything finite does. -/
theorem contains_snapValue {b : Bounds α} {x value : α} (hx : Scalar.isFinite x = true)
    (hin : b.contains x = true)
    (hfinite : Scalar.isFinite (snapValue b.finiteLower b.finiteUpper value) = true) :
    b.contains (snapValue b.finiteLower b.finiteUpper value) = true := by
  obtain ⟨lower, upper⟩ := b
  simp only [Bounds.contains, Bool.and_eq_true, Option.all_eq_true, decide_eq_true_eq] at hin ⊢
  obtain ⟨⟨-, hlower⟩, hupper⟩ := hin
  refine ⟨⟨isNumber_of_isFinite hfinite, fun l hl => ?_⟩, fun u hu => ?_⟩
  · cases hfinite_l : Scalar.isFinite l with
    | false => exact le_of_infinite hfinite_l (hlower l hl) hx hfinite
    | true =>
        have hlimit : (Bounds.mk lower upper).finiteLower = some l := by
          rw [Bounds.finiteLower, hl, Option.filter_some, if_pos hfinite_l]
        rw [hlimit] at hfinite ⊢
        exact le_snapValue hfinite_l hfinite
  · cases hfinite_u : Scalar.isFinite u with
    | false => exact infinite_le hfinite_u (hupper u hu) hx hfinite
    | true =>
        have hlimit : (Bounds.mk lower upper).finiteUpper = some u := by
          rw [Bounds.finiteUpper, hu, Option.filter_some, if_pos hfinite_u]
        rw [hlimit] at hfinite ⊢
        refine snapValue_le hfinite_u (fun l hl => ?_) hfinite
        exact le_trans (hlower l (Option.filter_eq_some_iff.1 hl).1) (hupper u hu)

end StepLimits

/-! ### Points that keep the constraints -/

namespace Store

variable {α : Type} [Scalar α] (s : Store α)

def Within (x : Vector α s.size) : Prop :=
  ∀ i, (s.get i).tie = none →
    Scalar.isFinite x[i] = true ∧ (s.get i).bounds.contains x[i] = true

/-- Fixed, untied components are those of `start`, and tied ones follow their ties if these are in
order. -/
structure Holds (start x : Vector α s.size) : Prop where
  fixed : ∀ i, (s.get i).tie = none → (s.get i).isFixed = true → x[i] = start[i]
  tied : s.TiesOrdered → s.TiesHold x

/-- A call at a point that keeps the constraints. Probes for differences may pass a limit. -/
def AdmitsCall (start : Vector α s.size) : Call α s.size → Prop
  | .residuals .probe x => s.Holds start x
  | .residuals _ x | .jacobian x => s.Holds start x ∧ s.Within x

variable {s}

omit [Scalar α] in
theorem isTied_eq_false {i : Fin s.size} : (s.get i).isTied = false ↔ (s.get i).tie = none := by
  simp [Parameter.isTied]

theorem isFree_eq_true {i : Fin s.size} :
    (s.get i).isFree = true ↔ (s.get i).isFixed = false ∧ (s.get i).tie = none := by
  simp [Parameter.isFree, Parameter.isTied]

theorem values_eq_ok {x : Vector α s.size} (h : ∀ i, s.startingValue i = .ok x[i]) :
    s.values = .ok x := by
  have hstart : s.startingValue = fun i => pure x[i] := funext h
  rw [values, hstart, Vector.ofFnM_pure]
  exact congrArg Except.ok (ext_getElem fun i => getElem_ofFn _ i)

theorem check_ok {x : Vector α s.size} : s.check x = .ok () ↔ s.Within x := by
  refine forM_ok.trans ⟨fun h i htie => ?_, fun h i _ => ?_⟩
  · have hi := h i (List.mem_finRange i)
    unfold checkValue at hi
    simp only [isTied_eq_false.2 htie, Bool.false_eq_true, if_false] at hi
    split at hi
    · cases hi
    · next hfinite =>
      refine ⟨by simpa using hfinite, ?_⟩
      unfold Bounds.check at hi
      by_contra hout
      simp [hout] at hi
  · unfold checkValue
    dsimp only
    split
    · rfl
    · next htied =>
      obtain ⟨hfinite, hin⟩ := h i (isTied_eq_false.1 (by simpa using htied))
      simp [hfinite, Bounds.check, hin]

theorem validate_toArray (x : Vector α s.size) : s.validate x.toArray = s.check x :=
  dif_pos x.size_toArray

theorem check_eq_error {x : Vector α s.size} {i : Fin s.size} {cause : FitError α}
    (hi : s.checkValue i x[i] = .error cause)
    (hbefore : ∀ j < i, s.checkValue j x[j] = .ok ()) : s.check x = .error cause := by
  have hsplit : List.finRange s.size = (List.finRange s.size).take i ++
      i :: (List.finRange s.size).drop (i + 1) := by
    conv_lhs => rw [← List.take_append_drop i.val (List.finRange s.size)]
    rw [List.drop_eq_getElem_cons (by simp), List.getElem_finRange]
    rfl
  rw [check, hsplit]
  refine forM_eq_error hi fun j hj => hbefore j ?_
  obtain ⟨k, hk, rfl⟩ := List.mem_take_iff_getElem.1 hj
  rw [List.getElem_finRange, Fin.lt_def]
  exact hk.trans_le (min_le_left _ _)

theorem within_applyTies {x : Vector α s.size} (h : s.Within x) : s.Within (s.applyTies x) := by
  intro i htie
  rw [getElem_applyTies_of_untied s x htie]
  exact h i htie

/-- Recomputing the ties makes a point of one whose fixed components are right. -/
theorem holds_applyTies {start x : Vector α s.size}
    (h : ∀ i, (s.get i).tie = none → (s.get i).isFixed = true → x[i] = start[i]) :
    s.Holds start (s.applyTies x) where
  fixed i htie hfixed := by rw [getElem_applyTies_of_untied s x htie, h i htie hfixed]
  tied hordered := tiesHold_applyTies s hordered x

theorem freePlaces_ne_of_isFixed {i : Fin s.size} (h : (s.get i).isFixed = true)
    (c : Fin s.free.size) : s.freePlaces[c] ≠ i := by
  rintro rfl
  have := (isFree_eq_true.1 (s.isFree_freePlaces c)).1
  rw [h] at this
  cases this

end Store

/-! ### The search keeps the constraints -/

namespace Store

open Run

section Evaluation

variable {α : Type} [Scalar α] {store : Store α} {function : ResidualFunction α}
  {options : Options α} {mode : JacobianMode} {start x : Vector α store.size}

theorem respects_residualsAt {purpose : Purpose}
    (h : store.AdmitsCall start (.residuals purpose (store.applyTies x))) :
    Respects (store.AdmitsCall start)
      ((Setting.ofStore store function options mode).residualsAt purpose x) fun _ => True := by
  refine .bind (.record h) fun _ _ => .bind .ofExcept fun _ _ => .bind .countEvaluation fun _ _ => ?_
  exact .bind .require fun _ _ => .pure trivial

theorem admits_residuals {purpose : Purpose} (h : store.Holds start x) (hwithin : store.Within x) :
    store.AdmitsCall start (.residuals purpose x) := by
  cases purpose with
  | probe => exact h
  | start => exact ⟨h, hwithin⟩
  | trial => exact ⟨h, hwithin⟩

/-- A probe for differences moves one free parameter. -/
theorem respects_probe (h : store.Holds start x) (c : Fin store.free.size) (v : α) :
    Respects (store.AdmitsCall start) ((Setting.ofStore store function options mode).residualsAt
      .probe (LeastSquares.put x store.freePlaces[c] v)) fun _ => True := by
  apply respects_residualsAt
  refine holds_applyTies fun i htie hfixed => ?_
  rw [getElem_put, if_neg (freePlaces_ne_of_isFixed hfixed c), h.fixed i htie hfixed]

theorem respects_differenceJacobian {fx : Vector α function.count}
    {rules : Vector (DifferenceRule α) store.free.size} {scale : α} (h : store.Holds start x) :
    Respects (store.AdmitsCall start)
      (differenceJacobian ((Setting.ofStore store function options mode).residualsAt .probe) x fx
        store.freePlaces rules scale) fun _ => True :=
  Respects.congruence.differenceJacobian
    (g := (Setting.ofStore store function options mode).residualsAt .probe) (respects_probe h)

theorem respects_analyticJacobian (h : store.Holds start x) (hwithin : store.Within x) :
    Respects (store.AdmitsCall start)
      ((Setting.ofStore store function options mode).analyticJacobian x) fun _ => True := by
  have hcall : store.AdmitsCall start (.jacobian (store.applyTies x)) :=
    ⟨holds_applyTies h.fixed, within_applyTies hwithin⟩
  exact .bind (.record hcall) fun _ _ => .bind .ofExcept fun _ _ => .pure trivial

theorem respects_jacobianAt {fx : Vector α function.count} (h : store.Holds start x)
    (hwithin : store.Within x) :
    Respects (store.AdmitsCall start)
      ((Setting.ofStore store function options mode).jacobianAt x fx) fun _ => True := by
  refine .bind .countJacobian fun _ _ => ?_
  cases mode with
  | analytic =>
      refine .bind (respects_analyticJacobian h hwithin) fun _ _ => ?_
      exact .bind .require fun _ _ => .pure trivial
  | finiteDifference =>
      refine .bind (respects_differenceJacobian h) fun _ _ => ?_
      exact .bind .require fun _ _ => .pure trivial

theorem within_withFree [LimitArithmetic α] {target : Vector α store.free.size}
    (hwithin : store.Within x)
    (hfinite : ((Setting.ofStore store function options mode).limits.snap target).all
      Scalar.isFinite = true) :
    store.Within ((Setting.ofStore store function options mode).withFree x
      ((Setting.ofStore store function options mode).limits.snap target)) := by
  intro i htie
  by_cases hfree : (store.get i).isFree = true
  · obtain ⟨c, rfl⟩ := store.exists_freePlaces hfree
    have hc : Scalar.isFinite
        ((Setting.ofStore store function options mode).limits.snap target)[c] = true :=
      Vector.all_eq_true.1 hfinite c c.isLt
    have hsnap : ((Setting.ofStore store function options mode).limits.snap target)[c] =
        StepLimits.snapValue (store.get store.freePlaces[c]).bounds.finiteLower
          (store.get store.freePlaces[c]).bounds.finiteUpper target[c] := by
      simp only [StepLimits.snap, getElem_ofFn, Setting.ofStore]
      rfl
    have hplace : ((Setting.ofStore store function options mode).withFree x
        ((Setting.ofStore store function options mode).limits.snap target))[store.freePlaces[c]] =
        ((Setting.ofStore store function options mode).limits.snap target)[c] :=
      getElem_overwrite_place store.distinct_freePlaces x _ c
    rw [hplace]
    refine ⟨hc, ?_⟩
    rw [hsnap] at hc ⊢
    obtain ⟨hx, hin⟩ := hwithin _ htie
    exact StepLimits.contains_snapValue hx hin hc
  · have hplace : ∀ c : Fin store.free.size, store.freePlaces[c] ≠ i := by
      rintro c rfl
      exact hfree (store.isFree_freePlaces c)
    have hi : ((Setting.ofStore store function options mode).withFree x
        ((Setting.ofStore store function options mode).limits.snap target))[i] = x[i] :=
      getElem_overwrite_of_forall_ne hplace x _
    rw [hi]
    exact hwithin i htie

theorem fixed_withFree (h : store.Holds start x) (values : Vector α store.free.size)
    (i : Fin store.size) (htie : (store.get i).tie = none)
    (hfixed : (store.get i).isFixed = true) :
    ((Setting.ofStore store function options mode).withFree x values)[i] = start[i] := by
  rw [← h.fixed i htie hfixed]
  exact getElem_overwrite_of_forall_ne (freePlaces_ne_of_isFixed hfixed) x values

end Evaluation

variable {α : Type} [NormedScalar α] [LimitArithmetic α] {store : Store α}
  {function : ResidualFunction α} {options : Options α}

theorem keeps_ofStore {mode : JacobianMode} {start : Vector α store.size} :
    (Setting.ofStore store function options mode).Keeps (store.AdmitsCall start)
      fun x => store.Holds start x ∧ store.Within x where
  start _ h := respects_residualsAt
    (admits_residuals (holds_applyTies h.1.fixed) (within_applyTies h.2))
  jacobian _ _ h := respects_jacobianAt h.1 h.2
  trial _ _ h hfinite := respects_residualsAt (admits_residuals
    (holds_applyTies (fixed_withFree h.1 _)) (within_applyTies (within_withFree h.2 hfinite)))
  accept _ _ h hfinite :=
    ⟨holds_applyTies (fixed_withFree h.1 _), within_applyTies (within_withFree h.2 hfinite)⟩

theorem free_eq_of_visits {α : Type} [NormedScalar α] {store : Store α}
    {function : ResidualFunction α} {options : Options α} {mode : JacobianMode}
    {x : Vector α store.size} {tall : store.free.size ≤ function.count} {trials : Nat}
    {c : Checkpoint α store.size function.count store.free.size} {j : Journal α store.size}
    (h : (Setting.ofStore store function options mode).Visits tall trials x c j)
    (d : Fin store.free.size) : c.point.free[d] = c.point.x[store.freePlaces[d]] := by
  refine Setting.visits_point (I := fun p => p.free[d] = p.x[store.freePlaces[d]]) ?_ ?_ ?_ h
  · intro p j hp
    obtain ⟨r, i, -, rfl⟩ := Setting.startAt_ok hp
    exact getElem_map _ _ d
  · exact fun _ _ h => h
  · intro p scale target r _ _
    have htie := (isFree_eq_true.1 (store.isFree_freePlaces d)).2
    change target[d] = (store.applyTies (overwrite p.x store.freePlaces target))[
      store.freePlaces[d]]
    rw [getElem_applyTies_of_untied store _ htie,
      getElem_overwrite_place store.distinct_freePlaces]

end Store

/-- The starting vector of a fit that was accepted keeps the constraints once its ties are set. -/
theorem constraints_of_prepare {α : Type} [Scalar α] {store : Store α}
    {function : ResidualFunction α} {options : Options α} {initial : Option (Array α)}
    {start : Start store function} (h : prepare store function options initial = .ok start) :
    store.Holds start.x (store.applyTies start.x) ∧ store.Within (store.applyTies start.x) := by
  obtain ⟨-, -, hcheck, -, -⟩ := prepare_ok h
  exact ⟨store.holds_applyTies fun _ _ _ => rfl,
    store.within_applyTies (Store.check_ok.1 hcheck)⟩

section Minimize

variable {α : Type} [NormedScalar α] [LimitArithmetic α] {store : Store α}
  {function : ResidualFunction α} {options : Options α} {initial : Option (Array α)}

/-- Every point that a fit visits keeps the constraints. -/
theorem constraints_of_visits {start : Start store function} {trials : Nat}
    {c : Checkpoint α store.size function.count store.free.size} {j : Journal α store.size}
    (hstart : prepare store function options initial = .ok start)
    (h : (Setting.ofStore store function options start.mode).Visits start.tall trials start.x c j) :
    store.Holds start.x c.point.x ∧ store.Within c.point.x :=
  (Store.keeps_ofStore.visits (constraints_of_prepare hstart) h).2

/-- Every call of a fit keeps the constraints, and so does what the fit returns. -/
theorem admitsCall_minimizeWithin {start : Vector α store.size}
    (hstart : store.startingVector initial = .ok start) (trials : Nat) :
    (∀ call ∈ (minimizeWithin trials store function options initial).2.calls,
      store.AdmitsCall start call) ∧
    ∀ solution, (minimizeWithin trials store function options initial).1 = .ok solution →
      store.Holds start solution.parameters ∧ store.Within solution.parameters := by
  cases hprepared : prepare store function options initial with
  | error cause =>
      rw [minimizeWithin_of_error hprepared]
      refine ⟨fun _ h => by simp [Journal.empty] at h, ?_⟩
      rintro _ ⟨⟩
  | ok prepared =>
      obtain ⟨-, hx, -, -, -⟩ := prepare_ok hprepared
      cases hx.symm.trans hstart
      rw [minimizeWithin_of_start hprepared]
      exact Store.keeps_ofStore.search (constraints_of_prepare hprepared) .empty fun _ h => by
        simp [Journal.empty] at h

end Minimize

end LeastSquares
