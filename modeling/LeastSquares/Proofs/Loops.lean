import LeastSquares.Linear.Basic
import Mathlib.Tactic

/-!
Loops over indices. A loop of the library is a fold over the indices of a range, in increasing or in
decreasing order. Its invariant is a statement about the number of indices that have been passed; one
rule for each kind of range turns a step of the loop into the whole of it.
-/

namespace LeastSquares

variable {n : ℕ} {σ : Type} {step : σ → Fin n → σ} {s : σ}

theorem filter_val_lt (n r : ℕ) :
    (List.finRange n).filter (fun i => i.val < r) = (List.finRange n).take r := by
  induction n generalizing r with
  | zero => simp
  | succ n ih =>
      rw [List.finRange_succ]
      cases r with
      | zero => simp
      | succ r =>
          rw [List.filter_cons_of_pos (by simp), List.take_succ_cons, List.filter_map,
            ← List.map_take, ← ih r]
          congr 2
          refine List.filter_congr fun i _ => ?_
          simp

theorem take_succ_finRange {r : ℕ} (hr : r < n) :
    (List.finRange n).take (r + 1) = (List.finRange n).take r ++ [⟨r, hr⟩] := by
  have hlength : r < (List.finRange n).length := by rwa [List.length_finRange]
  rw [← List.take_append_getElem hlength, List.getElem_finRange]
  rfl

/-- The rule for a loop over the first `r` indices. -/
theorem foldl_take {I : ℕ → σ → Prop} {r : ℕ} (hr : r ≤ n) (h : I 0 s)
    (hstep : ∀ j : Fin n, j.val < r → ∀ t, I j t → I (j + 1) (step t j)) :
    I r (((List.finRange n).take r).foldl step s) := by
  induction r with
  | zero => exact h
  | succ r ih =>
      rw [take_succ_finRange hr, List.foldl_append, List.foldl_cons, List.foldl_nil]
      refine hstep ⟨r, hr⟩ (Nat.lt_succ_self r) _ (ih (Nat.le_of_succ_le hr) ?_)
      exact fun j hj => hstep j (Nat.lt_succ_of_lt hj)

theorem foldl_finRange {I : ℕ → σ → Prop} (h : I 0 s)
    (hstep : ∀ (j : Fin n) t, I j t → I (j + 1) (step t j)) :
    I n ((List.finRange n).foldl step s) := by
  have htake := foldl_take (le_refl n) h fun j _ => hstep j
  rwa [List.take_of_length_le List.length_finRange.le] at htake

theorem foldl_starting {I : ℕ → σ → Prop} {j : Fin n} (h : I j s)
    (hstep : ∀ k, j ≤ k → ∀ t, I k t → I (k + 1) (step t k)) :
    I n ((starting j).foldl step s) := by
  rw [starting, List.foldl_filter]
  have hall := @foldl_finRange n σ (fun t k => if decide (j ≤ k) = true then step t k else t) s
    (fun r t => (r ≤ j.val → t = s) ∧ (j.val ≤ r → I r t)) ⟨fun _ => rfl, ?_⟩ ?_
  · exact hall.2 j.isLt.le
  · intro hj
    obtain hj : j.val = 0 := Nat.le_zero.1 hj
    rwa [hj] at h
  · rintro k t ⟨hbefore, hafter⟩
    by_cases hk : j ≤ k
    · simp only [hk, decide_true, if_true]
      refine ⟨fun hle => absurd hle (Nat.not_le.2 (Nat.lt_succ_of_le hk)), fun _ => ?_⟩
      exact hstep k hk t (hafter hk)
    · simp only [hk, decide_false, Bool.false_eq_true, if_false]
      have hlt : k.val < j.val := not_le.1 hk
      refine ⟨fun _ => hbefore hlt.le, fun hle => ?_⟩
      rw [hbefore hlt.le, show k.val + 1 = j.val by omega]
      exact h

theorem foldl_reverse_take {I : ℕ → σ → Prop} {r : ℕ} (hr : r ≤ n) (h : I r s)
    (hstep : ∀ j : Fin n, j.val < r → ∀ t, I (j + 1) t → I j (step t j)) :
    I 0 (((List.finRange n).filter (fun i => i.val < r)).reverse.foldl step s) := by
  rw [filter_val_lt]
  induction r generalizing s with
  | zero => exact h
  | succ r ih =>
      rw [take_succ_finRange hr, List.reverse_append, List.reverse_singleton, List.singleton_append,
        List.foldl_cons]
      refine ih (Nat.le_of_succ_le hr) (hstep ⟨r, hr⟩ (Nat.lt_succ_self r) s h) ?_
      exact fun j hj => hstep j (Nat.lt_succ_of_lt hj)

end LeastSquares
