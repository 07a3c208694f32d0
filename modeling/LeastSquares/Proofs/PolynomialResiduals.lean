import LeastSquares.Model.Polynomial
import LeastSquares.Proofs.Reals

/-!
Polynomials against samples, over any commutative ring. Values come from the highest coefficient
down and derivatives from the zeroth power up; both are the powers of the sample point. The residuals
are therefore affine in the coefficients, and what the Jacobian says about a change of the
coefficients is exact.
-/

namespace LeastSquares

variable {R : Type} [CommRing R] {m n : ℕ}

namespace Polynomial

/-! ### Powers -/

theorem value_cons (c x : R) (cs : List R) : value (c :: cs) x = value cs x * x + c := rfl

theorem value_map_finRange (c : Fin n → R) (x : R) :
    value ((List.finRange n).map c) x = ∑ k, c k * x ^ k.val := by
  induction n with
  | zero => simp [value]
  | succ n ih =>
      rw [List.finRange_succ, List.map_cons, List.map_map, value_cons, Function.comp_def,
        ih fun k => c k.succ, Fin.sum_univ_succ, Finset.sum_mul, add_comm]
      congr 1
      · simp
      · exact Finset.sum_congr rfl fun k _ => by rw [Fin.val_succ, pow_succ, mul_assoc]

theorem value_eq (p : Vector R n) (x : R) :
    value p.toList x = ∑ k : Fin n, p[k] * x ^ k.val := by
  rw [toList_eq_map, value_map_finRange]

theorem back_powers (x : R) (n : ℕ) : (powers x n).back?.elim 1 (· * x) = x ^ n := by
  induction n with
  | zero => simp [powers]
  | succ n ih =>
      have hback : (powers x (n + 1)).back? = some (x ^ n) := by
        rw [powers, ih, Vector.back?_eq_getElem?]
        simp
      rw [hback, Option.elim_some, pow_succ]

theorem getElem_powers (x : R) (k : Fin n) : (powers x n)[k] = x ^ k.val := by
  induction n with
  | zero => exact k.elim0
  | succ n ih =>
      rw [powers, getElem_eq_val, Vector.getElem_push, back_powers]
      split
      · next hk => exact ih ⟨k.val, hk⟩
      · next hk => rw [show k.val = n by omega]

/-! ### Residuals -/

variable (poly : Polynomial) (s : Samples R m)

omit [CommRing R] in
theorem checkCount_self :
    (poly.checkCount poly.coefficientCount : Except (FitError R) Unit) = .ok () :=
  if_pos rfl

theorem eval_residuals (p : Vector R poly.coefficientCount) :
    (s.residuals poly.model).eval p = .ok (s.deviations (s.x.map (value p.toList))) := by
  change Except.map s.deviations (poly.checkCount _ >>= _) = _
  rw [checkCount_self]
  rfl

theorem jacobian_residuals (p : Vector R poly.coefficientCount) :
    (s.residuals poly.model).jacobian p =
      .ok (s.deviationJacobian (s.x.map (powers · poly.coefficientCount))) := by
  change Except.map s.deviationJacobian (poly.checkCount _ >>= _) = _
  rw [checkCount_self]
  rfl

theorem getElem_deviations_value (p : Vector R n) (i : Fin m) :
    (s.deviations (s.x.map (value p.toList)))[i] =
      (s.y[i] - ∑ k : Fin n, p[k] * s.x[i] ^ k.val) * s.invSigma[i] := by
  rw [Samples.getElem_deviations, getElem_map, value_eq]

theorem getElem_deviationJacobian_powers (i : Fin m) (k : Fin n) :
    (s.deviationJacobian (s.x.map (powers · n)))[i][k] = -s.invSigma[i] * s.x[i] ^ k.val := by
  rw [Samples.getElem_deviationJacobian, getElem_map, getElem_powers]
  ring

/-- What the Jacobian says about a change of the coefficients is exact. -/
theorem getElem_deviations_add (p q : Vector R n) (i : Fin m) :
    (s.deviations (s.x.map (value (Vector.zipWith (· + ·) p q).toList)))[i] =
      (s.deviations (s.x.map (value p.toList)))[i] +
        ∑ k : Fin n, (s.deviationJacobian (s.x.map (powers · n)))[i][k] * q[k] := by
  have hvalue : ∑ k : Fin n, (Vector.zipWith (· + ·) p q)[k] * s.x[i] ^ k.val =
      ∑ k : Fin n, p[k] * s.x[i] ^ k.val + ∑ k : Fin n, q[k] * s.x[i] ^ k.val := by
    rw [← Finset.sum_add_distrib]
    exact Finset.sum_congr rfl fun k _ => by rw [getElem_zipWith, add_mul]
  have hslope : ∑ k : Fin n, (s.deviationJacobian (s.x.map (powers · n)))[i][k] * q[k] =
      -s.invSigma[i] * ∑ k : Fin n, q[k] * s.x[i] ^ k.val := by
    rw [Finset.mul_sum]
    refine Finset.sum_congr rfl fun k _ => ?_
    rw [getElem_deviationJacobian_powers]
    ring
  rw [hslope, getElem_deviations_value, getElem_deviations_value, hvalue]
  ring

/-- The residuals of a polynomial are the weighted deviations from its values, the Jacobian has the
weighted powers of the sample points with the opposite sign, and a change of the coefficients changes
the residuals by the Jacobian times the change. Any other number of coefficients is refused. -/
theorem residuals_affine :
    (∀ p : Vector R poly.coefficientCount, ∃ (r : Vector R m) (a : Mat R m poly.coefficientCount),
      (s.residuals poly.model).eval p = .ok r ∧ (s.residuals poly.model).jacobian p = .ok a ∧
      (∀ i : Fin m, r[i] =
        (s.y[i] - ∑ k : Fin poly.coefficientCount, p[k] * s.x[i] ^ k.val) * s.invSigma[i]) ∧
      (∀ (i : Fin m) (k : Fin poly.coefficientCount), a[i][k] = -s.invSigma[i] * s.x[i] ^ k.val) ∧
      ∀ q : Vector R poly.coefficientCount, ∃ r' : Vector R m,
        (s.residuals poly.model).eval (Vector.zipWith (· + ·) p q) = .ok r' ∧
        ∀ i : Fin m, r'[i] = r[i] + ∑ k : Fin poly.coefficientCount, a[i][k] * q[k]) ∧
    ∀ {l : ℕ} (p : Vector R l), l ≠ poly.coefficientCount →
      (s.residuals poly.model).eval p = .error (.sizes (.coefficients poly.degree l)) ∧
      (s.residuals poly.model).jacobian p = .error (.sizes (.coefficients poly.degree l)) := by
  constructor
  · intro p
    exact ⟨_, _, eval_residuals poly s p, jacobian_residuals poly s p, getElem_deviations_value s p,
      getElem_deviationJacobian_powers s, fun q =>
        ⟨_, eval_residuals poly s _, getElem_deviations_add s p q⟩⟩
  · intro l p hne
    have hcount : (poly.checkCount l : Except (FitError R) Unit) =
        .error (.sizes (.coefficients poly.degree l)) := if_neg hne
    constructor
    · change Except.map s.deviations (poly.checkCount l >>= _) = _
      rw [hcount]
      rfl
    · change Except.map s.deviationJacobian (poly.checkCount l >>= _) = _
      rw [hcount]
      rfl

end Polynomial

end LeastSquares
