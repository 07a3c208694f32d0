import LeastSquares.Covariance
import LeastSquares.Proofs.Factorization

/-!
What linear algebra divides by. Beside a function stands the list of its divisors: what its quotients
are taken by, also where a quotient is not used in the end. Over the real numbers a quotient by zero
has a value, and a result does not show that it was formed. What a list is worth is therefore stated
for it: a function whose divisors are not zero gives the same result in every arithmetic `dividing q`,
whatever `q` makes of a quotient by zero.
-/

namespace LeastSquares

variable {m n : ℕ}

/-! ### Quotients -/

/-- Exact arithmetic with the quotients `q`. -/
noncomputable abbrev dividing (q : ℝ → ℝ → ℝ) : NormedScalar ℝ :=
  { (inferInstance : NormedScalar ℝ) with div := q }

/-- Quotients are what they should be, by divisors other than zero. -/
def IsQuotient (q : ℝ → ℝ → ℝ) : Prop := ∀ x d, d ≠ 0 → q x d = x / d

variable {q : ℝ → ℝ → ℝ}

theorem IsQuotient.div_eq (hq : IsQuotient q) (x : ℝ) {d : ℝ} (h : d ≠ 0) :
    @HDiv.hDiv ℝ ℝ ℝ (@instHDiv ℝ (dividing q).toDiv) x d = x / d :=
  hq x d h

/-! ### Loops -/

section Loops

variable {σ ι α : Type} {step step' : σ → ι → σ} {divisors : σ → ι → List α} {s : σ} {d : α}

/-- The divisors of a loop whose pass at `i` has the divisors `divisors s i` in the state `s`. -/
def loopDivisors (step : σ → ι → σ) (divisors : σ → ι → List α) : σ → List ι → List α
  | _, [] => []
  | s, i :: l => divisors s i ++ loopDivisors step divisors (step s i) l

theorem foldl_loopDivisors (l : List ι) (met : List α) :
    l.foldl (fun p i => (step p.1 i, p.2 ++ divisors p.1 i)) (s, met) =
      (l.foldl step s, met ++ loopDivisors step divisors s l) := by
  induction l generalizing s met with
  | nil => simp [loopDivisors]
  | cons i l ih => rw [List.foldl_cons, ih, List.foldl_cons, loopDivisors, List.append_assoc]

theorem notMem_loopDivisors {l : List ι} (h : ∀ s, ∀ i ∈ l, d ∉ divisors s i) :
    d ∉ loopDivisors step divisors s l := by
  induction l generalizing s with
  | nil => exact List.not_mem_nil
  | cons i l ih =>
      rw [loopDivisors, List.mem_append, not_or]
      exact ⟨h s i List.mem_cons_self, ih fun s i hi => h s i (List.mem_cons_of_mem _ hi)⟩

theorem mem_loopDivisors {l : List ι} : d ∈ loopDivisors step divisors s l ↔
    ∃ before i after, l = before ++ i :: after ∧ d ∈ divisors (before.foldl step s) i := by
  induction l generalizing s with
  | nil => simp [loopDivisors]
  | cons i l ih =>
      rw [loopDivisors, List.mem_append, ih]
      constructor
      · rintro (hd | ⟨before, j, after, rfl, hd⟩)
        · exact ⟨[], i, l, rfl, hd⟩
        · exact ⟨i :: before, j, after, rfl, hd⟩
      · rintro ⟨before, j, after, hl, hd⟩
        cases before with
        | nil =>
            cases hl
            exact .inl hd
        | cons first before =>
            cases hl
            exact .inr ⟨before, j, after, rfl, hd⟩

/-- Two loops are the same when their passes are, wherever all divisors are as `P` says. -/
theorem foldl_eq_of_forall_loopDivisors {P : α → Prop} {l : List ι}
    (h : ∀ s, ∀ i ∈ l, (∀ d ∈ divisors s i, P d) → step' s i = step s i)
    (hP : ∀ d ∈ loopDivisors step divisors s l, P d) : l.foldl step' s = l.foldl step s := by
  induction l generalizing s with
  | nil => rfl
  | cons i l ih =>
      rw [loopDivisors, List.forall_mem_append] at hP
      rw [List.foldl_cons, List.foldl_cons, h s i List.mem_cons_self hP.1]
      exact ih (fun s i hi => h s i (List.mem_cons_of_mem _ hi)) hP.2

theorem foldl_eq_of_loopDivisors {l : List ι}
    (h : ∀ s, ∀ i ∈ l, d ∉ divisors s i → step' s i = step s i)
    (hd : d ∉ loopDivisors step divisors s l) : l.foldl step' s = l.foldl step s :=
  foldl_eq_of_forall_loopDivisors (P := (· ≠ d))
    (fun s i hi hP => h s i hi fun hmem => hP d hmem rfl) fun _ hmem heq => hd (heq ▸ hmem)

end Loops

section Invariants

variable {σ α : Type} {step : σ → Fin n → σ} {divisors : σ → Fin n → List α} {s : σ} {d : α}
  {I : ℕ → σ → Prop}

theorem notMem_loopDivisors_take {r : ℕ} (hr : r ≤ n) (h : I 0 s)
    (hstep : ∀ j : Fin n, j.val < r → ∀ t, I j t → I (j + 1) (step t j))
    (hd : ∀ j : Fin n, j.val < r → ∀ t, I j t → d ∉ divisors t j) :
    d ∉ loopDivisors step divisors s ((List.finRange n).take r) := by
  have hall := @foldl_take n (σ × List α) (fun p j => (step p.1 j, p.2 ++ divisors p.1 j)) (s, [])
    (fun r p => I r p.1 ∧ d ∉ p.2) r hr ⟨h, List.not_mem_nil⟩
    fun j hj p hp => ⟨hstep j hj p.1 hp.1, ?_⟩
  · rw [foldl_loopDivisors] at hall
    exact hall.2
  · rw [List.mem_append, not_or]
    exact ⟨hp.2, hd j hj p.1 hp.1⟩

theorem notMem_loopDivisors_finRange (h : I 0 s)
    (hstep : ∀ (j : Fin n) t, I j t → I (j + 1) (step t j))
    (hd : ∀ (j : Fin n) t, I j t → d ∉ divisors t j) :
    d ∉ loopDivisors step divisors s (List.finRange n) := by
  have htake := notMem_loopDivisors_take (le_refl n) h (fun j _ => hstep j) fun j _ => hd j
  rwa [List.take_of_length_le List.length_finRange.le] at htake

end Invariants

/-! ### Factorization -/

theorem reflect_dividing (hq : IsQuotient q) (v b : Vector ℝ m) (j : Fin m) :
    @reflect ℝ m (dividing q).toScalar v j b = reflect v j b := by
  unfold reflect
  split
  · rfl
  · next h =>
    rw [hq.div_eq _ (by simpa using h)]
    rfl

namespace PivotedQR

namespace Stage

section Lists

variable {α : Type} [NormedScalar α]

def downdateDivisors (norm reference : α) : List α := if norm != 0 then [norm, reference] else []

/-- The divisors of `reflectColumns`: that of the reflector, and for each column after it the entry
of the reflector and what the update of the norm divides by. -/
def reflectColumnsDivisors (tall : n ≤ m) (s : Stage α m n) (j : Fin n) (norm : α) : List α :=
  let row := j.castLE tall
  norm :: (after j).flatMap fun k =>
    (reflector s.a row j norm)[row] :: downdateDivisors s.norms[k] s.reference[k]

def clearDivisors (tall : n ≤ m) (s : Stage α m n) (j : Fin n) : List α :=
  let row := j.castLE tall
  let norm := NormedScalar.norm ((starting row).map fun i => s.a[i][j])
  if norm != 0 then s.reflectColumnsDivisors tall j (if s.a[row][j] < 0 then -norm else norm) else []

def eliminateDivisors (tall : n ≤ m) (s : Stage α m n) (j : Fin n) : List α :=
  (s.exchange j (largestFrom s.norms j)).clearDivisors tall j

end Lists

/-- A norm that is left has a reference to be compared with. -/
def Referenced (count : ℕ) (s : Stage ℝ m n) : Prop :=
  ∀ k : Fin n, count ≤ k.val → s.norms[k] ≠ 0 → s.reference[k] ≠ 0

variable {s : Stage ℝ m n} {tall : n ≤ m} {j : Fin n}

theorem Referenced.exchange {k : Fin n} (h : Referenced j s) :
    Referenced j (s.exchange j k) := by
  intro c hc
  change (put s.norms k s.norms[j])[c] ≠ 0 → (put s.reference k s.reference[j])[c] ≠ 0
  rw [getElem_put, getElem_put]
  split
  · exact h j le_rfl
  · exact h c hc

theorem downdate_referenced {norm reference top : ℝ} {below : List ℝ}
    (h : norm ≠ 0 → reference ≠ 0) :
    (downdate norm reference top below).1 ≠ 0 → (downdate norm reference top below).2 ≠ 0 := by
  unfold downdate
  split
  · next hnorm =>
    dsimp only
    split
    · exact id
    · exact fun _ => h (by simpa using hnorm)
  · exact h

theorem Referenced.clear (h : Referenced j s) : Referenced (j + 1) (s.clear tall j) := by
  intro k hk
  have hjk : j < k := hk
  unfold Stage.clear
  dsimp only
  split
  · -- the new norm at `j` is no longer looked at; the others are updated with their references
    unfold reflectColumns
    dsimp only
    rw [getElem_put, if_neg hjk.ne, getElem_map, getElem_map, getElem_ofFn, if_pos hjk]
    exact downdate_referenced (h k hjk.le)
  · rw [getElem_put, if_neg hjk.ne]
    exact h k hjk.le

theorem Referenced.eliminate (h : Referenced j s) : Referenced (j + 1) (s.eliminate tall j) :=
  h.exchange.clear

theorem zero_notMem_downdateDivisors {norm reference : ℝ} (h : norm ≠ 0 → reference ≠ 0) :
    0 ∉ downdateDivisors norm reference := by
  unfold downdateDivisors
  split
  · next hnorm =>
    have hne : norm ≠ 0 := by simpa using hnorm
    simp [hne.symm, (h hne).symm]
  · exact List.not_mem_nil

/-- The entry of a reflector at the diagonal is at least one. -/
theorem one_le_reflector {a : Mat ℝ m n} {row : Fin m} {norm : ℝ} (hsign : 0 ≤ a[row][j] * norm) :
    1 ≤ (reflector a row j norm)[row] := by
  rw [getElem_reflector le_rfl, if_pos rfl]
  have hquotient : 0 ≤ a[row][j] / norm := by
    rcases mul_nonneg_iff.1 hsign with ⟨ha, hnorm⟩ | ⟨ha, hnorm⟩
    · exact div_nonneg ha hnorm
    · exact div_nonneg_of_nonpos ha hnorm
  linarith

theorem zero_notMem_clearDivisors (h : Referenced j s) : 0 ∉ s.clearDivisors tall j := by
  unfold clearDivisors
  dsimp only
  rw [norm_column]
  split
  · next hnorm =>
    have hsigned : s.signedNorm tall j ≠ 0 := by
      rw [Ne, signedNorm_eq_zero, ← Real.sqrt_eq_zero (tail_nonneg _ _)]
      simpa using hnorm
    have hone := one_le_reflector (s.signedNorm_sign tall j)
    rw [signedNorm] at hsigned hone
    simp only [reflectColumnsDivisors, List.mem_cons, List.mem_flatMap, mem_after, not_or, not_exists,
      not_and]
    refine ⟨hsigned.symm, fun k hk => ⟨?_, zero_notMem_downdateDivisors (h k hk.le)⟩⟩
    exact (one_pos.trans_le hone).ne
  · exact List.not_mem_nil

theorem zero_notMem_eliminateDivisors (h : Referenced j s) : 0 ∉ s.eliminateDivisors tall j :=
  zero_notMem_clearDivisors h.exchange

/-! ### With other quotients -/

theorem downdate_dividing (hq : IsQuotient q) {norm reference top : ℝ} {below : List ℝ}
    (h : 0 ∉ downdateDivisors norm reference) :
    @downdate ℝ (dividing q) norm reference top below = downdate norm reference top below := by
  unfold downdateDivisors at h
  unfold downdate
  split
  · next hnorm =>
    rw [if_pos hnorm] at h
    simp only [List.mem_cons, List.not_mem_nil, or_false, not_or] at h
    dsimp only
    rw [hq.div_eq _ (Ne.symm h.1), hq.div_eq _ (Ne.symm h.2)]
    rfl
  · rfl

theorem reflector_dividing (hq : IsQuotient q) {a : Mat ℝ m n} {row : Fin m} {norm : ℝ}
    (h : norm ≠ 0) :
    @reflector ℝ m n (dividing q) a row j norm = reflector a row j norm := by
  unfold reflector
  simp only [hq.div_eq _ h]

theorem reflectColumns_dividing (hq : IsQuotient q) {norm : ℝ}
    (h : 0 ∉ s.reflectColumnsDivisors tall j norm) :
    @reflectColumns ℝ m n (dividing q) tall s j norm = s.reflectColumns tall j norm := by
  simp only [reflectColumnsDivisors, List.mem_cons, List.mem_flatMap, mem_after, not_or, not_exists,
    not_and] at h
  unfold reflectColumns
  simp only [reflector_dividing hq (Ne.symm h.1), reflect_dividing hq]
  refine congrArg (fun u : Vector (ℝ × ℝ) n => Stage.mk _ _ (put (u.map (·.1)) j (-norm)) (u.map (·.2)))
    (congrArg Vector.ofFn (funext fun k => ?_))
  refine ite_congr rfl (fun hk => ?_) fun _ => rfl
  exact downdate_dividing hq (h.2 k hk).2

theorem clear_dividing (hq : IsQuotient q) (h : 0 ∉ s.clearDivisors tall j) :
    @clear ℝ m n (dividing q) tall s j = s.clear tall j := by
  unfold clearDivisors at h
  unfold clear
  dsimp only at h ⊢
  refine ite_congr rfl (fun hnorm => ?_) fun _ => rfl
  rw [if_pos hnorm] at h
  exact reflectColumns_dividing hq h

theorem eliminate_dividing (hq : IsQuotient q) (h : 0 ∉ s.eliminateDivisors tall j) :
    @eliminate ℝ m n (dividing q) tall s j = s.eliminate tall j :=
  clear_dividing hq h

end Stage

def factorDivisors {α : Type} [NormedScalar α] (a : Mat α m n) (tall : n ≤ m) : List α :=
  loopDivisors (Stage.eliminate tall) (Stage.eliminateDivisors tall) (Stage.start a) (List.finRange n)

/-- The factorization of no matrix divides by zero. -/
theorem zero_notMem_factorDivisors (a : Mat ℝ m n) (tall : n ≤ m) : 0 ∉ factorDivisors a tall :=
  notMem_loopDivisors_finRange (I := Stage.Referenced) (fun _ _ => id)
    (fun _ _ h => h.eliminate) fun _ _ h => Stage.zero_notMem_eliminateDivisors h

theorem factor_dividing (hq : IsQuotient q) {a : Mat ℝ m n} {tall : n ≤ m}
    (h : 0 ∉ factorDivisors a tall) : @factor ℝ m n (dividing q) a tall = factor a tall := by
  have hloop := foldl_eq_of_loopDivisors (fun _ _ _ => Stage.eliminate_dividing hq) h
  unfold factor
  dsimp only
  rw [← hloop]
  rfl

end PivotedQR

/-! ### Covariance -/

def covarianceDivisors {α : Type} [Scalar α] (r : Mat α n n) (tolerance : α) : List α :=
  loopDivisors Covariance.invertColumn (fun a c => [a[c][c]]) r
    ((List.finRange n).filter (·.val < Covariance.rank r tolerance))

namespace Covariance

theorem getElem_invertColumn_of_ne (a : Mat ℝ n n) {c j : Fin n} (h : j ≠ c) (i : Fin n) :
    (invertColumn a c)[i][j] = a[i][j] := by
  simp only [invertColumn, Mat.getElem_ofFn]
  rw [if_neg h]

theorem rank_le (r : Mat ℝ n n) (tolerance : ℝ) : rank r tolerance ≤ n :=
  List.findIdx_le_length.trans_eq Vector.length_toList

theorem diagonal_ne_zero {r : Mat ℝ n n} {tolerance : ℝ} (h : 0 ≤ tolerance) {c : Fin n}
    (hc : c.val < rank r tolerance) : r[c][c] ≠ 0 := by
  intro hzero
  have hlarge := List.not_of_lt_findIdx hc
  rw [decide_eq_false_iff_not, Vector.getElem_toList] at hlarge
  change ¬ |(r.diagonal)[c]| ≤ _ at hlarge
  rw [Mat.diagonal, getElem_ofFn, hzero, abs_zero] at hlarge
  exact hlarge (mul_nonneg h (abs_nonneg _))

end Covariance

theorem zero_notMem_covarianceDivisors (r : Mat ℝ n n) {tolerance : ℝ} (h : 0 ≤ tolerance) :
    0 ∉ covarianceDivisors r tolerance := by
  rw [covarianceDivisors, filter_val_lt]
  refine notMem_loopDivisors_take (I := fun count a => ∀ c : Fin n, count ≤ c.val → a[c][c] = r[c][c])
    (Covariance.rank_le r tolerance) (fun _ _ => rfl) (fun j _ a ha c hc => ?_) fun j hj a ha => ?_
  · rw [Covariance.getElem_invertColumn_of_ne a (Fin.ne_of_gt hc)]
    exact ha c (Nat.le_of_succ_le hc)
  · rw [List.mem_singleton, ha j le_rfl]
    exact (Covariance.diagonal_ne_zero h hj).symm

theorem covariance_dividing (hq : IsQuotient q) {r : Mat ℝ n n} {tolerance : ℝ}
    (h : 0 ∉ covarianceDivisors r tolerance) (pivot : Vector (Fin n) n) :
    @covariance ℝ (dividing q).toScalar n r pivot tolerance = covariance r pivot tolerance := by
  have hcolumn : ∀ (a : Mat ℝ n n) (c : Fin n), 0 ∉ [a[c][c]] →
      @Covariance.invertColumn ℝ (dividing q).toScalar n a c = Covariance.invertColumn a c := by
    intro a c hc
    unfold Covariance.invertColumn
    dsimp only
    rw [hq.div_eq _ (by simpa [eq_comm] using hc)]
  have hloop := foldl_eq_of_loopDivisors (fun a c _ => hcolumn a c) h
  unfold covariance Covariance.triangle
  dsimp only
  rw [← hloop]
  rfl

end LeastSquares
