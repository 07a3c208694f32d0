import LeastSquares.Covariance
import LeastSquares.Proofs.Loops
import LeastSquares.Proofs.Selection

/-!
Undoing a column exchange in place. The entries of the triangle are sent below the diagonal of the
matrix that they are in, one after the other, and from there are copied above it. Nothing is lost on
the way: what is written is below the diagonal, what is still to be read is not, and under a
permutation no two entries go to the same place. So the loops give the matrix that they should
(`getElem_unpermute`).
-/

namespace LeastSquares

namespace Covariance

variable {α : Type} [Scalar α] {n : ℕ} {pivot : Vector (Fin n) n} {rank : ℕ} {upper a : Mat α n n}
  {i j p q : Fin n}

/-- An entry of the triangle, which counts as zero from `rank` on. -/
def cutEntry (upper : Mat α n n) (rank : ℕ) (i j : Fin n) : α :=
  if rank ≤ j.val then 0 else upper[i][j]

/-! ### Below the diagonal -/

/-- The entry at row `i` of column `j` belongs at row `p` of column `q`, or at the place that mirrors
this one. -/
abbrev GoesTo (pivot : Vector (Fin n) n) (i j p q : Fin n) : Prop :=
  pivot[i] = p ∧ pivot[j] = q ∨ pivot[i] = q ∧ pivot[j] = p

theorem GoesTo.unique {i' j' : Fin n} (hpivot : Distinct pivot) (hij : i ≤ j) (hij' : i' ≤ j')
    (h : GoesTo pivot i j p q) (h' : GoesTo pivot i' j' p q) : i = i' ∧ j = j' := by
  have hboth : i = i' ∧ j = j' ∨ i = j' ∧ j = i' := by
    rcases h with ⟨hp, hq⟩ | ⟨hq, hp⟩ <;> rcases h' with ⟨hp', hq'⟩ | ⟨hq', hp'⟩
    · exact .inl ⟨hpivot _ _ (hp.trans hp'.symm), hpivot _ _ (hq.trans hq'.symm)⟩
    · exact .inr ⟨hpivot _ _ (hp.trans hp'.symm), hpivot _ _ (hq.trans hq'.symm)⟩
    · exact .inr ⟨hpivot _ _ (hq.trans hq'.symm), hpivot _ _ (hp.trans hp'.symm)⟩
    · exact .inl ⟨hpivot _ _ (hq.trans hq'.symm), hpivot _ _ (hp.trans hp'.symm)⟩
  rcases hboth with hsame | ⟨rfl, rfl⟩
  · exact hsame
  · exact ⟨hij.antisymm hij', hij'.antisymm hij⟩

theorem getElem_placeEntry (a : Mat α n n) (p q : Fin n) :
    (placeEntry pivot rank j a i)[p][q] =
      if q < p ∧ GoesTo pivot i j p q then cutEntry a rank i j
      else if i = p ∧ j = q then cutEntry a rank i j else a[p][q] := by
  have hcut : ∀ p q : Fin n, (if rank ≤ j.val then a.setEntry i j 0 else a)[p][q] =
      if i = p ∧ j = q then cutEntry a rank i j else a[p][q] := by
    intro p q
    unfold cutEntry
    split
    · rw [Mat.getElem_setEntry]
    · split
      · next heq =>
        obtain ⟨rfl, rfl⟩ := heq
        rfl
      · rfl
  unfold placeEntry
  dsimp only
  rcases lt_trichotomy pivot[i] pivot[j] with hlt | heq | hgt
  · rw [if_neg hlt.asymm, if_pos hlt, Mat.getElem_setEntry, hcut i j, hcut p q,
      if_pos (⟨rfl, rfl⟩ : i = i ∧ j = j)]
    refine if_congr ⟨fun h => ?_, fun h => ?_⟩ rfl rfl
    · exact ⟨by rwa [← h.1, ← h.2], .inr h.symm⟩
    · refine (h.2.resolve_left fun hback => ?_).symm
      rw [hback.1, hback.2] at hlt
      exact hlt.asymm h.1
  · rw [if_neg heq.not_gt, if_neg heq.not_lt, hcut]
    refine (if_neg ?_).symm
    rintro ⟨hqp, h | h⟩
    · exact hqp.ne (h.2.symm.trans (heq.symm.trans h.1))
    · exact hqp.ne (h.1.symm.trans (heq.trans h.2))
  · rw [if_pos hgt, Mat.getElem_setEntry, hcut i j, hcut p q,
      if_pos (⟨rfl, rfl⟩ : i = i ∧ j = j)]
    refine if_congr ⟨fun h => ?_, fun h => ?_⟩ rfl rfl
    · exact ⟨by rwa [← h.1, ← h.2], .inl h⟩
    · refine h.2.resolve_right fun hback => ?_
      rw [hback.1, hback.2] at hgt
      exact hgt.asymm h.1

/-- The loop has passed the columns before `column`, and the rows before `row` of this one. -/
abbrev Passed (column row : ℕ) (i j : Fin n) : Prop := j.val < column ∨ j.val = column ∧ i.val < row

/-- What has been placed by then: what was passed is where it belongs, and what was not is as it was. -/
structure Places (upper : Mat α n n) (pivot : Vector (Fin n) n) (rank column row : ℕ)
    (a : Mat α n n) : Prop where
  placed : ∀ i j p q : Fin n, i ≤ j → Passed column row i j → q < p → GoesTo pivot i j p q →
    a[p][q] = cutEntry upper rank i j
  cut : ∀ i j : Fin n, i ≤ j → Passed column row i j → a[i][j] = cutEntry upper rank i j
  pending : ∀ i j : Fin n, i ≤ j → ¬ Passed column row i j → a[i][j] = upper[i][j]

theorem Places.step (hpivot : Distinct pivot) (hij : i ≤ j)
    (h : Places upper pivot rank j i a) :
    Places upper pivot rank j (i + 1) (placeEntry pivot rank j a i) := by
  have hentry : cutEntry a rank i j = cutEntry upper rank i j := by
    rw [cutEntry, cutEntry, h.pending i j hij (by omega)]
  have hpassed : ∀ {i' j' : Fin n}, Passed j (i + 1) i' j' → ¬ (i = i' ∧ j = j') →
      Passed j i i' j' := by
    intro i' j' hdone hne
    rw [Fin.ext_iff, Fin.ext_iff] at hne
    omega
  refine ⟨fun i' j' p q hle hdone hqp hplace => ?_, fun i' j' hle hdone => ?_,
    fun i' j' hle hdone => ?_⟩
  · rw [getElem_placeEntry, hentry]
    by_cases hsame : i = i' ∧ j = j'
    · obtain ⟨rfl, rfl⟩ := hsame
      exact if_pos ⟨hqp, hplace⟩
    · rw [if_neg fun hother => hsame (hother.2.unique hpivot hij hle hplace), if_neg,
        h.placed i' j' p q hle (hpassed hdone hsame) hqp hplace]
      rintro ⟨rfl, rfl⟩
      exact hqp.not_ge hij
  · rw [getElem_placeEntry, hentry, if_neg fun hand => hle.not_gt hand.1]
    split
    · next hsame => rw [hsame.1, hsame.2]
    · next hsame => exact h.cut i' j' hle (hpassed hdone hsame)
  · rw [getElem_placeEntry, if_neg fun hand => hle.not_gt hand.1, if_neg]
    · exact h.pending i' j' hle (by omega)
    · rintro ⟨rfl, rfl⟩
      exact hdone (.inr ⟨rfl, Nat.lt_succ_self _⟩)

theorem Places.column (hpivot : Distinct pivot) (h : Places upper pivot rank j 0 a) :
    Places upper pivot rank (j + 1) 0 ((upTo j).foldl (placeEntry pivot rank j) a) := by
  have htake : upTo j = (List.finRange n).take (j + 1) := by
    rw [← filter_val_lt]
    exact List.filter_congr fun i _ => decide_eq_decide.2 Nat.lt_succ_iff.symm
  have hcolumn : Places upper pivot rank j (j + 1) ((upTo j).foldl (placeEntry pivot rank j) a) := by
    rw [htake]
    exact foldl_take j.isLt h fun i hi b hb => hb.step hpivot (Nat.lt_succ_iff.1 hi)
  have hiff : ∀ i' j' : Fin n, i' ≤ j' → (Passed j (j + 1) i' j' ↔ Passed (j + 1) 0 i' j') := by
    intro i' j' hle
    have hle : i'.val ≤ j'.val := hle
    omega
  refine ⟨fun i' j' p q hle hdone => ?_, fun i' j' hle hdone => ?_, fun i' j' hle hdone => ?_⟩
  · exact hcolumn.placed i' j' p q hle ((hiff i' j' hle).2 hdone)
  · exact hcolumn.cut i' j' hle ((hiff i' j' hle).2 hdone)
  · exact hcolumn.pending i' j' hle (mt (hiff i' j' hle).1 hdone)

/-- All of the triangle is placed, and the diagonal is where `pivot` says. -/
theorem places_foldl (hpivot : Distinct pivot) (upper : Mat α n n) (rank : ℕ) :
    let s := (List.finRange n).foldl (Placement.placeColumn pivot rank)
      ⟨upperTriangle upper, Vector.replicate n 0⟩
    Places upper pivot rank n 0 s.a ∧
      ∀ j : Fin n, s.diagonal[pivot[j]] = cutEntry upper rank j j := by
  have hall := @foldl_finRange n _ (Placement.placeColumn pivot rank)
    ⟨upperTriangle upper, Vector.replicate n 0⟩
    (fun count s => Places upper pivot rank count 0 s.a ∧
      ∀ j : Fin n, j.val < count → s.diagonal[pivot[j]] = cutEntry upper rank j j) ?_ ?_
  · exact ⟨hall.1, fun j => hall.2 j j.isLt⟩
  · refine ⟨⟨fun _ _ _ _ _ hdone => ?_, fun _ _ _ hdone => ?_, fun i j hle _ => ?_⟩,
      fun _ hj => absurd hj (Nat.not_lt_zero _)⟩
    · omega
    · omega
    · rw [upperTriangle, Mat.getElem_ofFn, if_pos hle]
  · rintro j s ⟨hplaces, hdiagonal⟩
    have hcolumn := hplaces.column hpivot
    refine ⟨hcolumn, fun l hl => ?_⟩
    change (put s.diagonal pivot[j] _)[pivot[l]] = _
    rw [getElem_put]
    by_cases hjl : j = l
    · subst hjl
      rw [if_pos rfl]
      exact hcolumn.cut j j le_rfl (.inl (Nat.lt_succ_self _))
    · rw [if_neg fun heq => hjl (hpivot _ _ heq)]
      have hne : j.val ≠ l.val := fun h => hjl (Fin.ext h)
      exact hdiagonal l (by omega)

/-! ### Above the diagonal -/

omit [Scalar α] in
theorem getElem_reflectColumn (diagonal : Vector α n) (a : Mat α n n) (j p q : Fin n) :
    (reflectColumn diagonal a j)[p][q] =
      if q = j ∧ p < j then a[j][p] else if p = j ∧ q = j then diagonal[j] else a[p][q] := by
  have htake : before j = (List.finRange n).take j := by
    rw [← filter_val_lt]
    rfl
  have hrow : ∀ p q : Fin n, ((before j).foldl (fun a i => a.setEntry i j a[j][i]) a)[p][q] =
      if q = j ∧ p.val < j then a[j][p] else a[p][q] := by
    rw [htake]
    refine foldl_take (I := fun count (b : Mat α n n) => ∀ p q : Fin n, b[p][q] =
      if q = j ∧ p.val < count then a[j][p] else a[p][q]) j.isLt.le ?_ fun i hi b hb p q => ?_
    · exact fun p q => (if_neg fun h => absurd h.2 (Nat.not_lt_zero _)).symm
    · have hne : i ≠ j := (Fin.lt_def.2 hi).ne
      rw [Mat.getElem_setEntry, hb j i, hb p q, if_neg fun h : i = j ∧ _ => hne h.1]
      by_cases hip : i = p ∧ j = q
      · obtain ⟨rfl, rfl⟩ := hip
        rw [if_pos (⟨rfl, rfl⟩ : i = i ∧ j = j), if_pos ⟨rfl, Nat.lt_succ_self _⟩]
      · rw [if_neg hip]
        refine if_congr ⟨fun h => ⟨h.1, Nat.lt_succ_of_lt h.2⟩, fun h => ⟨h.1, ?_⟩⟩ rfl rfl
        have hne : i.val ≠ p.val := fun heq => hip ⟨Fin.ext heq, h.1.symm⟩
        omega
  rw [reflectColumn, Mat.getElem_setEntry, hrow]
  by_cases hjj : j = p ∧ j = q
  · obtain ⟨rfl, rfl⟩ := hjj
    rw [if_pos ⟨rfl, rfl⟩, if_neg fun h => lt_irrefl _ h.2, if_pos ⟨rfl, rfl⟩]
  · rw [if_neg hjj]
    refine if_congr Iff.rfl rfl (if_neg fun h => hjj ⟨h.1.symm, h.2.symm⟩).symm

omit [Scalar α] in
theorem getElem_foldl_reflectColumn (diagonal : Vector α n) (a : Mat α n n) (p q : Fin n) :
    ((List.finRange n).foldl (reflectColumn diagonal) a)[p][q] =
      if p < q then a[q][p] else if p = q then diagonal[p] else a[p][q] := by
  have hall := @foldl_finRange n _ (reflectColumn diagonal) a
    (fun count b => ∀ p q : Fin n, b[p][q] =
      if count ≤ q.val then a[p][q]
      else if p < q then a[q][p] else if p = q then diagonal[p] else a[p][q]) ?_ ?_
  · rw [hall p q, if_neg (Nat.not_le.2 q.isLt)]
  · exact fun p q => (if_pos (Nat.zero_le _)).symm
  · intro j b hb p q
    rw [getElem_reflectColumn]
    rcases lt_trichotomy q j with hlt | rfl | hgt
    · have hlt' : q.val < j.val := hlt
      rw [if_neg fun h => hlt.ne h.1, if_neg fun h => hlt.ne h.2, hb, if_neg (Nat.not_le.2 hlt'),
        if_neg (show ¬ j.val + 1 ≤ q.val by omega)]
    · rw [if_neg (Nat.not_succ_le_self _)]
      rcases lt_trichotomy p q with hpq | rfl | hqp
      -- the row is that of columns passed before
      · have hpq' : p.val < q.val := hpq
        rw [if_pos ⟨rfl, hpq⟩, if_pos hpq, hb, if_neg (Nat.not_le.2 hpq'), if_neg hpq.asymm,
          if_neg hpq.ne']
      · rw [if_neg fun h => lt_irrefl _ h.2, if_pos ⟨rfl, rfl⟩, if_neg (lt_irrefl _), if_pos rfl]
      · rw [if_neg fun h => hqp.asymm h.2, if_neg fun h => hqp.ne' h.1, if_neg hqp.asymm,
          if_neg hqp.ne', hb, if_pos le_rfl]
    · have hgt' : j.val < q.val := hgt
      rw [if_neg fun h => hgt.ne' h.1, if_neg fun h => hgt.ne' h.2, hb, if_pos hgt'.le,
        if_pos (show j.val + 1 ≤ q.val from hgt')]

/-! ### The symmetric matrix -/

theorem unpermute_of_le (hpivot : Distinct pivot) (upper : Mat α n n) (rank : ℕ) (hij : i ≤ j) :
    (unpermute upper pivot rank)[pivot[i]][pivot[j]] = cutEntry upper rank i j ∧
      (unpermute upper pivot rank)[pivot[j]][pivot[i]] = cutEntry upper rank i j := by
  obtain ⟨hplaces, hdiagonal⟩ := places_foldl hpivot upper rank
  have hplaced := fun p q hqp => hplaces.placed i j p q hij (.inl j.isLt) hqp
  unfold unpermute
  dsimp only
  rw [getElem_foldl_reflectColumn, getElem_foldl_reflectColumn]
  rcases lt_trichotomy pivot[i] pivot[j] with hlt | heq | hgt
  · rw [if_pos hlt, if_neg hlt.asymm, if_neg hlt.ne']
    exact ⟨hplaced _ _ hlt (.inr ⟨rfl, rfl⟩), hplaced _ _ hlt (.inr ⟨rfl, rfl⟩)⟩
  · obtain rfl := hpivot i j heq
    rw [if_neg (lt_irrefl _), if_pos rfl]
    exact ⟨hdiagonal i, hdiagonal i⟩
  · rw [if_neg hgt.asymm, if_neg hgt.ne', if_pos hgt]
    exact ⟨hplaced _ _ hgt (.inl ⟨rfl, rfl⟩), hplaced _ _ hgt (.inl ⟨rfl, rfl⟩)⟩

/-- Under a permutation the loops give the symmetric matrix of the triangle, cut off at the rank. -/
theorem getElem_unpermute (hpivot : Distinct pivot) (upper : Mat α n n) (rank : ℕ) (i j : Fin n) :
    (unpermute upper pivot rank)[pivot[i]][pivot[j]] =
      if i.val < rank ∧ j.val < rank then (if i ≤ j then upper[i][j] else upper[j][i]) else 0 := by
  rcases le_total i j with hij | hji
  · have hij' : i.val ≤ j.val := hij
    rw [(unpermute_of_le hpivot upper rank hij).1, if_pos hij, cutEntry, ← ite_not]
    exact if_congr (by omega) rfl rfl
  · have hji' : j.val ≤ i.val := hji
    rw [(unpermute_of_le hpivot upper rank hji).2, cutEntry, ← ite_not]
    refine if_congr (by omega) ?_ rfl
    split
    · next hij => rw [hij.antisymm hji]
    · rfl

end Covariance

end LeastSquares
