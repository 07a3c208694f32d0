import LeastSquares.Parameter.Store
import Mathlib.Tactic

/-!
Selected components. A list of distinct places, the free parameters or a column exchange, picks
components out of a vector; here is what reading and writing at such places does, and what
recomputing the tied components of a vector does to it.
-/

namespace LeastSquares

variable {α : Type} {n k : Nat}

def Distinct (places : Vector (Fin n) k) : Prop :=
  ∀ c d : Fin k, places[c] = places[d] → c = d

theorem lastIndex?_of_distinct {places : Vector (Fin n) k} (h : Distinct places) (c : Fin k) :
    lastIndex? places places[c] = some c := by
  unfold lastIndex?
  cases hfound : (List.finRange k).reverse.find? (fun i => places[i] == places[c]) with
  | none =>
      rw [List.find?_eq_none] at hfound
      exact absurd (by simp) (hfound c (by simp))
  | some d =>
      have hd := List.find?_some hfound
      rw [h d c (by simpa using hd)]

theorem lastIndex?_eq_none {places : Vector (Fin n) k} {p : Fin n} (h : ∀ c : Fin k, places[c] ≠ p) :
    lastIndex? places p = none := by
  unfold lastIndex?
  rw [List.find?_eq_none]
  intro c _
  simpa using h c

theorem getElem_overwrite_place {places : Vector (Fin n) k} (h : Distinct places)
    (x : Vector α n) (values : Vector α k) (c : Fin k) :
    (overwrite x places values)[places[c]] = values[c] := by
  simp only [overwrite, getElem_ofFn]
  rw [lastIndex?_of_distinct h]
  rfl

theorem getElem_overwrite_of_forall_ne {places : Vector (Fin n) k} {p : Fin n}
    (h : ∀ c : Fin k, places[c] ≠ p) (x : Vector α n) (values : Vector α k) :
    (overwrite x places values)[p] = x[p] := by
  simp only [overwrite, getElem_ofFn]
  rw [lastIndex?_eq_none h]
  rfl

theorem getElem_unpermute [Zero α] {pivot : Vector (Fin n) n} (h : Distinct pivot)
    (z : Vector α n) (j : Fin n) : (unpermute pivot z)[pivot[j]] = z[j] :=
  getElem_overwrite_place h _ z j

/-- Distinct places of all components, as a permutation. -/
noncomputable def Distinct.order {pivot : Vector (Fin n) n} (h : Distinct pivot) : Fin n ≃ Fin n :=
  .ofBijective (fun j => pivot[j]) (Finite.injective_iff_bijective.1 h)

@[simp] theorem Distinct.order_apply {pivot : Vector (Fin n) n} (h : Distinct pivot) (j : Fin n) :
    h.order j = pivot[j] := rfl

theorem eq_of_pivot {pivot : Vector (Fin n) n} (hpivot : Distinct pivot) {x y : Vector α n}
    (h : ∀ j : Fin n, x[pivot[j]] = y[pivot[j]]) : x = y := by
  refine ext_getElem fun e => ?_
  obtain ⟨j, rfl⟩ := (Finite.surjective_of_injective hpivot) e
  exact h j

namespace Store

/-! ### The free parameters -/

section Free

variable [Scalar α] (s : Store α)

def freePlaces : Vector (Fin s.size) s.free.size := s.free.toVector

theorem distinct_freePlaces : Distinct s.freePlaces := by
  have hnodup : s.free.toList.Nodup := by
    rw [free, Array.toList_filter, Array.finRange, Array.toList_ofFn]
    exact (List.nodup_finRange s.size).filter _
  intro c d h
  exact List.nodup_iff_injective_get.1 hnodup h

theorem mem_free {i : Fin s.size} : i ∈ s.free ↔ (s.get i).isFree = true := by
  rw [← Array.mem_toList_iff, free, Array.toList_filter, Array.finRange, Array.toList_ofFn]
  simp

theorem isFree_freePlaces (c : Fin s.free.size) : (s.get s.freePlaces[c]).isFree = true :=
  s.mem_free.1 (Array.getElem_mem c.isLt)

theorem exists_freePlaces {i : Fin s.size} (h : (s.get i).isFree = true) :
    ∃ c : Fin s.free.size, s.freePlaces[c] = i := by
  obtain ⟨c, hc, rfl⟩ := Array.getElem_of_mem (s.mem_free.2 h)
  exact ⟨⟨c, hc⟩, rfl⟩

end Free

/-! ### Tied parameters -/

variable (s : Store α)

/-- Every tie reads only untied parameters and tied ones of lower index. -/
def TiesOrdered : Prop :=
  ∀ (i : Fin s.size) (t : Tie α), (s.get i).tie = some t → ∀ x y : Vector α s.size,
    (∀ j : Fin s.size, (s.get j).tie = none ∨ j < i → x[j] = y[j]) → t.value x = t.value y

/-- Every tied component has the value its tie gives. -/
def TiesHold (x : Vector α s.size) : Prop :=
  ∀ (i : Fin s.size) (t : Tie α), (s.get i).tie = some t → x[i] = t.value x

/-- What `applyTies` has done once it has passed the parameters before `m`. -/
def tiedUpTo (x : Vector α s.size) : Nat → Vector α s.size
  | 0 => x
  | m + 1 =>
    if h : m < s.size then
      match (s.get ⟨m, h⟩).tie with
      | some t => LeastSquares.put (tiedUpTo x m) ⟨m, h⟩ (t.value (tiedUpTo x m))
      | none => tiedUpTo x m
    else tiedUpTo x m

theorem tiedUpTo_succ_of_none (x : Vector α s.size) {m : Nat} (hm : m < s.size)
    (h : (s.get ⟨m, hm⟩).tie = none) : s.tiedUpTo x (m + 1) = s.tiedUpTo x m := by
  rw [tiedUpTo, dif_pos hm, h]

theorem tiedUpTo_succ_of_some (x : Vector α s.size) {m : Nat} (hm : m < s.size) {t : Tie α}
    (h : (s.get ⟨m, hm⟩).tie = some t) :
    s.tiedUpTo x (m + 1) = LeastSquares.put (s.tiedUpTo x m) ⟨m, hm⟩ (t.value (s.tiedUpTo x m)) := by
  rw [tiedUpTo, dif_pos hm, h]

def tieStep (x : Vector α n) (p : Parameter α × Nat) : Vector α n :=
  match p.1.tie with
  | some tie => x.setIfInBounds p.2 (tie.value x)
  | none => x

theorem foldl_tieStep_take (x : Vector α s.size) {m : Nat} (hm : m ≤ s.size) :
    (s.parameters.toList.take m).zipIdx.foldl tieStep x = s.tiedUpTo x m := by
  induction m with
  | zero => rfl
  | succ m ih =>
      have hlt : m < s.parameters.toList.length := hm
      have hlength : (s.parameters.toList.take m).length = m := by
        rw [List.length_take, Nat.min_eq_left hlt.le]
      rw [← List.take_append_getElem hlt, List.zipIdx_append, List.foldl_append,
        ih (Nat.le_of_succ_le hm), hlength, List.zipIdx_singleton, List.foldl_cons, List.foldl_nil,
        Nat.zero_add]
      have hget : s.parameters.toList[m] = s.get ⟨m, hm⟩ := rfl
      cases htie : (s.get ⟨m, hm⟩).tie with
      | none =>
          rw [tiedUpTo_succ_of_none s x hm htie]
          simp only [tieStep, hget, htie]
      | some t =>
          rw [tiedUpTo_succ_of_some s x hm htie]
          simp only [tieStep, hget, htie, LeastSquares.put]
          refine Vector.ext fun i hi => ?_
          rw [Vector.getElem_setIfInBounds, Vector.getElem_set]

theorem applyTies_eq (x : Vector α s.size) : s.applyTies x = s.tiedUpTo x s.size := by
  rw [← foldl_tieStep_take s x le_rfl, show s.parameters.toList.take s.size =
    s.parameters.toList from List.take_length, applyTies, ← Array.foldl_toList,
    Array.toList_zipIdx]
  rfl

/-- A component that is not tied, or not reached yet, is unchanged. -/
theorem getElem_tiedUpTo (x : Vector α s.size) {m : Nat} (hm : m ≤ s.size) {i : Fin s.size}
    (h : (s.get i).tie = none ∨ m ≤ i) : (s.tiedUpTo x m)[i] = x[i] := by
  induction m with
  | zero => rfl
  | succ m ih =>
      have hi : (s.tiedUpTo x m)[i] = x[i] :=
        ih (Nat.le_of_succ_le hm) (h.imp id Nat.le_of_succ_le)
      cases htie : (s.get ⟨m, hm⟩).tie with
      | none => rw [tiedUpTo_succ_of_none s x hm htie, hi]
      | some t =>
          have hne : (⟨m, hm⟩ : Fin s.size) ≠ i := by
            rintro rfl
            rcases h with h | h
            · rw [h] at htie
              cases htie
            · exact absurd h (Nat.not_succ_le_self m)
          rw [tiedUpTo_succ_of_some s x hm htie, getElem_put, if_neg hne, hi]

theorem getElem_tiedUpTo_of_le (x : Vector α s.size) {m l : Nat} {i : Fin s.size} (hm : i < m)
    (hl : m ≤ l) (hsize : l ≤ s.size) : (s.tiedUpTo x l)[i] = (s.tiedUpTo x m)[i] := by
  induction l, hl using Nat.le_induction with
  | base => rfl
  | succ l hl ih =>
      rw [← ih (Nat.le_of_succ_le hsize)]
      cases htie : (s.get ⟨l, hsize⟩).tie with
      | none => rw [tiedUpTo_succ_of_none s x hsize htie]
      | some t =>
          have hne : (⟨l, hsize⟩ : Fin s.size) ≠ i := by
            rintro rfl
            exact absurd (lt_of_lt_of_le hm hl) (lt_irrefl _)
          rw [tiedUpTo_succ_of_some s x hsize htie, getElem_put, if_neg hne]

theorem getElem_applyTies_of_untied (x : Vector α s.size) {i : Fin s.size}
    (h : (s.get i).tie = none) : (s.applyTies x)[i] = x[i] := by
  rw [applyTies_eq, getElem_tiedUpTo s x le_rfl (.inl h)]

theorem tiesHold_applyTies (h : s.TiesOrdered) (x : Vector α s.size) :
    s.TiesHold (s.applyTies x) := by
  intro i t ht
  rw [applyTies_eq]
  -- the tie saw the vector as it was when its parameter was reached
  have hseen : (s.tiedUpTo x s.size)[i] = t.value (s.tiedUpTo x i) := by
    rw [getElem_tiedUpTo_of_le s x (Nat.lt_succ_self i) i.isLt le_rfl,
      tiedUpTo_succ_of_some s x i.isLt ht, getElem_put, if_pos rfl]
  rw [hseen]
  apply h i t ht
  intro j hj
  rcases hj with hj | hj
  · rw [getElem_tiedUpTo s x i.isLt.le (.inl hj), getElem_tiedUpTo s x le_rfl (.inl hj)]
  · exact (getElem_tiedUpTo_of_le s x hj i.isLt.le le_rfl).symm

/-- On ordered ties, the untied components determine the tied ones. -/
theorem TiesHold.eq {s : Store α} {x y : Vector α s.size} (h : s.TiesOrdered) (hx : s.TiesHold x)
    (hy : s.TiesHold y) (huntied : ∀ i, (s.get i).tie = none → x[i] = y[i]) : x = y := by
  have hbefore : ∀ m (i : Fin s.size), i.val < m → x[i] = y[i] := by
    intro m
    induction m with
    | zero => exact fun i hi => absurd hi (Nat.not_lt_zero _)
    | succ m ih =>
        intro i hi
        cases htie : (s.get i).tie with
        | none => exact huntied i htie
        | some t =>
            rw [hx i t htie, hy i t htie]
            refine h i t htie x y fun j hj => hj.elim (huntied j) fun hlt => ih j ?_
            exact lt_of_lt_of_le hlt (Nat.le_of_lt_succ hi)
  exact ext_getElem fun i => hbefore s.size i i.isLt

/-- Where the ties hold already, applying them changes nothing. -/
theorem TiesHold.applyTies_eq {s : Store α} {x : Vector α s.size} (h : s.TiesOrdered)
    (hx : s.TiesHold x) : s.applyTies x = x :=
  (s.tiesHold_applyTies h x).eq h hx fun _ hi => s.getElem_applyTies_of_untied x hi

/-- What the tied components were before makes no difference. -/
theorem applyTies_congr {s : Store α} {x y : Vector α s.size} (h : s.TiesOrdered)
    (huntied : ∀ i, (s.get i).tie = none → x[i] = y[i]) : s.applyTies x = s.applyTies y := by
  refine (s.tiesHold_applyTies h x).eq h (s.tiesHold_applyTies h y) fun i hi => ?_
  rw [s.getElem_applyTies_of_untied x hi, s.getElem_applyTies_of_untied y hi, huntied i hi]

theorem applyTies_applyTies {s : Store α} (h : s.TiesOrdered) (x : Vector α s.size) :
    s.applyTies (s.applyTies x) = s.applyTies x :=
  (s.tiesHold_applyTies h x).applyTies_eq h

end Store

end LeastSquares
