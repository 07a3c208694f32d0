import LeastSquares.Proofs.Doubles

/-!
Starting values of tied parameters are irrelevant. A fit reads its starting vector three times: the
checks pass over the tied components, the ties are recomputed before anything else is read, and the
recomputed ones depend on the untied components alone when every tie reads only untied parameters
and tied ones before its own. So two fits that start alike but for tied components are one and the
same run, call by call.
-/

namespace LeastSquares

variable {α : Type}

namespace Store

/-- Two starting vectors of one length that differ in tied components at most. -/
structure SameStart (store : Store α) (a b : Array α) : Prop where
  size_eq : a.size = b.size
  untied : ∀ i, (store.get i).tie = none → a[i.val]? = b[i.val]?

variable [Scalar α] {store : Store α} {x y : Vector α store.size}

/-- The checks pass over tied components. -/
theorem check_congr (h : ∀ i, (store.get i).tie = none → x[i] = y[i]) :
    store.check x = store.check y := by
  unfold check
  congr 1
  funext i
  by_cases htied : (store.get i).isTied = true
  · simp only [checkValue, htied, if_true]
  · rw [h i (isTied_eq_false.1 (by simpa using htied))]

end Store

section

variable [Scalar α] {store : Store α} {function : ResidualFunction α} {options : Options α}
  {initial initial' : Option (Array α)} {x y : Vector α store.size}

/-- Starts that differ in tied components are accepted alike, or refused for the same reason. -/
theorem prepare_congr (hx : store.startingVector initial = .ok x)
    (hy : store.startingVector initial' = .ok y)
    (h : ∀ i, (store.get i).tie = none → x[i] = y[i]) :
    prepare store function options initial' =
      (prepare store function options initial).map fun start => { start with x := y } :=
  prepare_of_check hx hy (Store.check_congr h)

end

variable [NormedScalar α]

/-- A search reads its starting vector once the ties are recomputed. -/
theorem Setting.search_congr {n m k : ℕ} {s : Setting α n m k} {x y : Vector α n}
    (h : s.applyTies x = s.applyTies y) (tall : k ≤ m) (trials : ℕ)
    (names : Vector (Option String) n) :
    s.search tall trials names x = s.search tall trials names y := by
  have hstart : s.startAt x = s.startAt y := by
    unfold startAt
    rw [h]
  unfold search
  rw [hstart]

variable {store : Store α} {function : ResidualFunction α} {options : Options α}
  {initial initial' : Option (Array α)} {x y : Vector α store.size}

theorem minimizeWithin_congr (hordered : store.TiesOrdered)
    (hx : store.startingVector initial = .ok x) (hy : store.startingVector initial' = .ok y)
    (h : ∀ i, (store.get i).tie = none → x[i] = y[i]) (trials : ℕ) :
    minimizeWithin trials store function options initial =
      minimizeWithin trials store function options initial' := by
  have hprepare' : prepare store function options initial' = _ := prepare_congr hx hy h
  cases hprepare : prepare store function options initial with
  | error cause =>
      rw [hprepare] at hprepare'
      rw [minimizeWithin_of_error hprepare, minimizeWithin_of_error hprepare']
  | ok start =>
      rw [hprepare] at hprepare'
      obtain ⟨-, hstart, -, -, -⟩ := prepare_ok hprepare
      cases hx.symm.trans hstart
      have hties : store.applyTies start.x = store.applyTies y := Store.applyTies_congr hordered h
      rw [minimizeWithin_of_start hprepare, minimizeWithin_of_start hprepare']
      exact congrArg Run.outcome (Setting.search_congr hties _ _ _)

/-- The starting values of tied parameters are irrelevant, whatever the arithmetic, the residual
function and the options: from starts that differ in tied components alone a fit makes the same
calls at the same points, in the same order, and comes to the same solution or to the same error. In
particular nothing depends on the zero that stands in the store's own start for a tied parameter
without a value. -/
theorem tied_starts_irrelevant (hordered : store.TiesOrdered) (function : ResidualFunction α)
    (options : Options α) (trials : ℕ) :
    (∀ a b : Array α, store.SameStart a b →
      minimizeWithin trials store function options (some a) =
        minimizeWithin trials store function options (some b)) ∧
    ∀ values, store.values = .ok values → ∀ b : Array α, store.SameStart values.toArray b →
      minimizeWithin trials store function options none =
        minimizeWithin trials store function options (some b) := by
  have hagree : ∀ (a b : Array α) (ha : a.size = store.size) (hb : b.size = store.size),
      store.SameStart a b → ∀ i, (store.get i).tie = none →
        (⟨a, ha⟩ : Vector α store.size)[i] = (⟨b, hb⟩ : Vector α store.size)[i] := by
    intro a b ha hb h i hi
    have hentry := h.untied i hi
    rw [Array.getElem?_eq_getElem (i.isLt.trans_eq ha.symm),
      Array.getElem?_eq_getElem (i.isLt.trans_eq hb.symm)] at hentry
    exact Option.some.inj hentry
  have hgiven : ∀ (a : Array α) (ha : a.size = store.size),
      store.startingVector (some a) = .ok ⟨a, ha⟩ := fun _ ha => dif_pos ha
  refine ⟨fun a b h => ?_, fun values hvalues b h => ?_⟩
  · by_cases ha : a.size = store.size
    · have hb : b.size = store.size := h.size_eq ▸ ha
      exact minimizeWithin_congr hordered (hgiven a ha) (hgiven b hb) (hagree a b ha hb h) trials
    · -- a start of the wrong length is refused for its length
      have hb : b.size ≠ store.size := h.size_eq ▸ ha
      have hrefused : store.startingVector (some a) = store.startingVector (some b) := by
        rw [Store.startingVector, Store.startingVector, dif_neg ha, dif_neg hb, h.size_eq]
      unfold minimizeWithin prepare
      rw [hrefused]
  · have hb : b.size = store.size := h.size_eq ▸ values.size_toArray
    have hstart : store.startingVector none = .ok values := hvalues
    exact minimizeWithin_congr hordered hstart (hgiven b hb)
      (hagree values.toArray b values.size_toArray hb h) trials

/-- Ties that each read the parameters before their own are ordered. -/
theorem Store.tiesOrdered_of_take {α : Type} {store : Store α}
    (h : ∀ i t, (store.get i).tie = some t →
      ∃ f : List α → α, ∀ x : Vector α store.size, t.value x = f (x.toList.take i)) :
    store.TiesOrdered := by
  intro i t ht x y hxy
  obtain ⟨f, hf⟩ := h i t ht
  have htake : x.toList.take i = y.toList.take i := by
    refine List.ext_getElem (by simp) fun l hl _ => ?_
    have hlt : l < i.val := by
      rw [List.length_take] at hl
      exact lt_of_lt_of_le hl (min_le_left _ _)
    rw [List.getElem_take, List.getElem_take, Vector.getElem_toList, Vector.getElem_toList]
    exact hxy ⟨l, hlt.trans i.isLt⟩ (.inr hlt)
  rw [hf, hf, htake]

/-- A free parameter, one tied to it, and one tied to the sum of both. -/
def chainedStore : Store Float :=
  ⟨#[{ value := some 1 }, { tie := some ⟨fun x => Scalar.sum (x.toList.take 1)⟩ },
    { tie := some ⟨fun x => Scalar.sum (x.toList.take 2)⟩ }]⟩

/-- A start whose tied components are no numbers at all is as good as that of the store itself. -/
theorem tied_starts_irrelevant_chained :
    chainedStore.TiesOrdered ∧ chainedStore.SameStart #[1, 0, 0] #[1, 0 / 0, 1 / 0] ∧
      chainedStore.values = .ok #v[1, 0, 0] ∧
      minimizeWithin 10 chainedStore lessNine .default none =
        minimizeWithin 10 chainedStore lessNine .default (some #[1, 0 / 0, 1 / 0]) := by
  have hordered : chainedStore.TiesOrdered := by
    refine Store.tiesOrdered_of_take (Fin.forall_fin_succ.2 ⟨nofun, Fin.forall_fin_two.2 ⟨?_, ?_⟩⟩)
    · rintro t ⟨⟩
      exact ⟨Scalar.sum, fun _ => rfl⟩
    · rintro t ⟨⟩
      exact ⟨Scalar.sum, fun _ => rfl⟩
  have hsame : chainedStore.SameStart #[1, 0, 0] #[1, 0 / 0, 1 / 0] :=
    ⟨rfl, Fin.forall_fin_succ.2 ⟨fun _ => rfl, Fin.forall_fin_two.2 ⟨nofun, nofun⟩⟩⟩
  have hvalues : chainedStore.values = .ok #v[1, 0, 0] :=
    Store.values_eq_ok (Fin.forall_fin_succ.2 ⟨rfl, Fin.forall_fin_two.2 ⟨rfl, rfl⟩⟩)
  exact ⟨hordered, hsame, hvalues,
    (tied_starts_irrelevant hordered lessNine .default 10).2 #v[1, 0, 0] hvalues _ hsame⟩

end LeastSquares
