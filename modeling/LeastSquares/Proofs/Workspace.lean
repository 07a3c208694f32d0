import LeastSquares.Covariance
import LeastSquares.DampedStep
import LeastSquares.Proofs.Loops
import LeastSquares.Search.Linearization

/-!
The matrix that the steps of an iteration share. It holds `R` in its upper triangle, and below the
diagonal whatever the last solve left there. The solve that rotates the damping into `R` works on
the diagonal and below it, and puts the diagonal back entry by entry; so the upper triangle is the
same before and after each solve and each step (`sameUpper_dampedSolve`, `sameUpper_dampedStep`).
And nothing that reads the matrix looks below the diagonal, but for the solve itself, which first
writes there what it looks at. So what is left below the diagonal is seen by nothing.

All of this holds in any arithmetic.
-/

namespace LeastSquares

variable {α β γ : Type} {m n : ℕ}

/-- The matrices have the same upper triangle, the diagonal included. -/
def Mat.SameUpper (a b : Mat α n n) : Prop := ∀ i j : Fin n, i ≤ j → a[i][j] = b[i][j]

namespace Mat.SameUpper

variable {a b c : Mat α n n}

theorem refl (a : Mat α n n) : a.SameUpper a := fun _ _ _ => rfl

theorem symm (h : a.SameUpper b) : b.SameUpper a := fun i j hij => (h i j hij).symm

theorem trans (hab : a.SameUpper b) (hbc : b.SameUpper c) : a.SameUpper c :=
  fun i j hij => (hab i j hij).trans (hbc i j hij)

theorem self (h : a.SameUpper b) (j : Fin n) : a[j][j] = b[j][j] := h j j le_rfl

theorem diagonal (h : a.SameUpper b) : a.diagonal = b.diagonal := by
  refine ext_getElem fun j => ?_
  simp only [Mat.diagonal, LeastSquares.getElem_ofFn, h.self j]

end Mat.SameUpper

/-! ### The damped solve -/

section DampedSolve

open DampedSolve

theorem DampedSolve.sameUpper_mirror (r : Mat α n n) : (mirror r).SameUpper r := by
  intro i j hij
  rw [mirror, Mat.getElem_ofFn]
  split
  · next hji => rw [le_antisymm hij hji]
  · rfl

theorem DampedSolve.mirror_congr {r r' : Mat α n n} (h : r.SameUpper r') : mirror r = mirror r' := by
  refine ext_getElem fun i => ext_getElem fun j => ?_
  rw [mirror, mirror, Mat.getElem_ofFn, Mat.getElem_ofFn]
  split
  · next hji => exact h j i hji
  · next hji => exact h i j (le_of_not_ge hji)

variable [Scalar α]

/-- The solve reads the upper triangle, and writes all that it leaves. -/
theorem dampedSolve_congr {r r' : Mat α n n} (h : r.SameUpper r') (pivot : Vector (Fin n) n)
    (damping qtb : Vector α n) : dampedSolve r pivot damping qtb = dampedSolve r' pivot damping qtb := by
  unfold dampedSolve
  simp only [mirror_congr h, h.self]

namespace DampedSolve.Stage

/-- The upper triangle of `r` is in place but for the diagonal from `count` on. -/
structure Keeps (s : Stage α n) (r : Mat α n n) (count : ℕ) : Prop where
  upper : ∀ i j : Fin n, i < j → s.r[i][j] = r[i][j]
  diagonal : ∀ j : Fin n, j.val < count → s.r[j][j] = r[j][j]

variable {r : Mat α n n} {s : Stage α n}

/-- A rotation writes on the diagonal and below it, in its own column. -/
theorem Keeps.rotate {count : ℕ} (h : s.Keeps r count) {k : Fin n} (hk : count ≤ k.val) :
    (s.rotate k).Keeps r count := by
  unfold Stage.rotate
  split
  · exact h
  · refine ⟨fun i j hij => ?_, fun j hj => ?_⟩
    · have hwritten : ¬(j = k ∧ k ≤ i) := by
        rintro ⟨rfl, hle⟩
        exact absurd hij (not_lt.2 hle)
      rw [Mat.getElem_ofFn, if_neg hwritten]
      exact h.upper i j hij
    · have hne : ¬(j = k ∧ k ≤ j) := by
        rintro ⟨rfl, -⟩
        exact absurd hj (Nat.not_lt.2 hk)
      rw [Mat.getElem_ofFn, if_neg hne]
      exact h.diagonal j hj

theorem Keeps.rotate_foldl {j : Fin n} (h : s.Keeps r j.val) {l : List (Fin n)}
    (hl : ∀ k ∈ l, j ≤ k) : (l.foldl Stage.rotate s).Keeps r j.val :=
  List.foldlRecOn (motive := fun s => s.Keeps r j.val) l Stage.rotate h
    fun _ hs k hk => hs.rotate (hl k hk)

/-- Once a row of `D` is eliminated, its column has its diagonal entry back. -/
theorem Keeps.eliminate {j : Fin n} (h : s.Keeps r j.val) (d : α) :
    (s.eliminate j d r[j][j]).Keeps r (j.val + 1) := by
  have hrotated :
      (if d != 0 then (starting j).foldl Stage.rotate (s.load j d) else s).Keeps r j.val := by
    split
    · have hloaded : (s.load j d).Keeps r j.val := ⟨h.upper, h.diagonal⟩
      exact hloaded.rotate_foldl fun k hk => mem_starting.1 hk
    · exact h
  unfold Stage.eliminate
  dsimp only
  generalize (if d != 0 then (starting j).foldl Stage.rotate (s.load j d) else s) = s' at hrotated
  refine ⟨fun i k hik => ?_, fun k hk => ?_⟩
  · have hne : ¬(j = i ∧ j = k) := by
      rintro ⟨rfl, rfl⟩
      exact lt_irrefl _ hik
    rw [Mat.getElem_setEntry, if_neg hne]
    exact hrotated.upper i k hik
  · rw [Mat.getElem_setEntry]
    split
    · next heq => rw [heq.1]
    · next hne =>
      have hkj : k.val ≠ j.val := fun h => hne ⟨Fin.ext h.symm, Fin.ext h.symm⟩
      exact hrotated.diagonal k (by omega)

end DampedSolve.Stage

/-- The solve leaves the upper triangle as it was. -/
theorem sameUpper_dampedSolve (r : Mat α n n) (pivot : Vector (Fin n) n) (damping qtb : Vector α n) :
    (dampedSolve r pivot damping qtb).workspace.SameUpper r := by
  have hstart : Stage.Keeps ⟨mirror r, qtb, Vector.replicate n 0, 0⟩ r 0 :=
    ⟨fun i j hij => sameUpper_mirror r i j hij.le, fun j hj => absurd hj (Nat.not_lt_zero _)⟩
  have hkeeps : Stage.Keeps ((List.finRange n).foldl
      (fun s j => s.eliminate j damping[pivot[j]] r[j][j]) ⟨mirror r, qtb, Vector.replicate n 0, 0⟩)
      r n :=
    foldl_finRange (I := fun count (s : Stage α n) => s.Keeps r count) hstart
      fun j s hs => hs.eliminate damping[pivot[j]]
  intro i j hij
  rcases hij.lt_or_eq with hlt | rfl
  · exact hkeeps.upper i j hlt
  · exact hkeeps.diagonal i i.isLt

end DampedSolve

/-! ### The damped step -/

namespace StepModel

section Readers

variable [NormedScalar α] (model : StepModel α n) {r r' : Mat α n n} (h : r.SameUpper r')

include h

theorem rank_congr : rank r = rank r' := by
  rw [rank, rank, h.diagonal]

theorem solveTriangle_congr : model.solveTriangle r = model.solveTriangle r' := by
  unfold solveTriangle
  rw [rank_congr h]
  dsimp only
  congr 1
  funext z j
  refine ext_getElem fun i => ?_
  rw [getElem_ofFn, getElem_ofFn, h.self j]
  split
  · next hij => rw [h i j hij.le]
  · rfl

theorem undamped_congr : model.undamped r = model.undamped r' := by
  rw [undamped, undamped, solveTriangle_congr model h]

theorem solveTransposed_congr (z : Vector α n) : solveTransposed r z = solveTransposed r' z := by
  unfold solveTransposed
  congr 1
  funext w j
  have hsum : ((before j).map fun i => r[i][j] * w[i]) = (before j).map fun i => r'[i][j] * w[i] :=
    List.map_congr_left fun i hi => by rw [h i j (mem_before.1 hi).le]
  rw [hsum, h.self j]

theorem lowerBound_congr (radius excess : α) :
    model.lowerBound r radius excess = model.lowerBound r' radius excess := by
  rw [lowerBound, lowerBound, rank_congr h, undamped_congr model h, solveTransposed_congr h]

theorem gradientNorm_congr : model.gradientNorm r = model.gradientNorm r' := by
  unfold gradientNorm
  congr 1
  refine List.map_congr_left fun j _ => ?_
  have hsum : ((upTo j).map fun i => r[i][j] * model.qtf[i]) =
      (upTo j).map fun i => r'[i][j] * model.qtf[i] :=
    List.map_congr_left fun i hi => by rw [h i j (mem_upTo.1 hi)]
  rw [hsum]

theorem upperBound_congr (radius : α) : model.upperBound r radius = model.upperBound r' radius := by
  rw [upperBound, upperBound, gradientNorm_congr model h]

theorem startSearch_congr (radius damping excess : α) :
    model.startSearch r radius damping excess =
      { model.startSearch r' radius damping excess with workspace := r } := by
  unfold startSearch
  rw [lowerBound_congr model h, upperBound_congr model h, gradientNorm_congr model h,
    undamped_congr model h]

end Readers

variable [NormedScalar α] {model : StepModel α n}

namespace Search

/-- What is tried does not depend on the workspace below the diagonal, and nor does what it leaves
there. -/
theorem attempt_congr {s : Search α n} {w : Mat α n n} (h : w.SameUpper s.workspace) (radius : α) :
    ({ s with workspace := w } : Search α n).attempt model radius = s.attempt model radius := by
  unfold attempt
  dsimp only
  rw [dampedSolve_congr h]
  rfl

theorem sameUpper_attempt (s : Search α n) (radius : α) :
    (s.attempt model radius).solution.workspace.SameUpper s.workspace :=
  sameUpper_dampedSolve _ _ _ _

theorem run_congr {s : Search α n} {w : Mat α n n} (h : w.SameUpper s.workspace) (radius : α)
    (corrections : ℕ) : ({ s with workspace := w } : Search α n).run model radius corrections =
      s.run model radius corrections := by
  cases corrections with
  | zero => rw [run, run, attempt_congr h]
  | succ corrections =>
      rw [run, run, attempt_congr h]
      rfl

theorem sameUpper_run (radius : α) (corrections : ℕ) (s : Search α n) :
    (s.run model radius corrections).workspace.SameUpper s.workspace := by
  induction corrections generalizing s with
  | zero => exact s.sameUpper_attempt radius
  | succ corrections ih =>
      unfold run
      dsimp only
      split
      · exact s.sameUpper_attempt radius
      · exact (ih _).trans (s.sameUpper_attempt radius)

end Search

theorem sameUpper_dampedStep (model : StepModel α n) (r : Mat α n n) (radius damping : α) :
    (model.dampedStep r radius damping).workspace.SameUpper r := by
  unfold dampedStep
  dsimp only
  split
  · exact .refl r
  · exact Search.sameUpper_run radius _ _

/-- A step depends on the upper triangle alone. -/
theorem dampedStep_congr (model : StepModel α n) {r r' : Mat α n n} (h : r.SameUpper r')
    (radius damping : α) :
    (model.dampedStep r radius damping).damping = (model.dampedStep r' radius damping).damping ∧
      (model.dampedStep r radius damping).x = (model.dampedStep r' radius damping).x := by
  unfold dampedStep
  dsimp only
  rw [undamped_congr model h]
  split
  · exact ⟨rfl, rfl⟩
  · rw [startSearch_congr model h, Search.run_congr h]
    exact ⟨rfl, rfl⟩

/-- Steps that share one workspace: each works in what the one before left. -/
def sharedSteps (model : StepModel α n) : Mat α n n → List (α × α) → List (DampedStep α n)
  | _, [] => []
  | r, (radius, damping) :: calls =>
    let step := model.dampedStep r radius damping
    step :: sharedSteps model step.workspace calls

/-- Steps that each work in a copy of `r`. -/
def separateSteps (model : StepModel α n) (r : Mat α n n) (calls : List (α × α)) :
    List (DampedStep α n) :=
  calls.map fun (radius, damping) => model.dampedStep r radius damping

/-- It makes no difference to the steps whether they share their workspace. -/
theorem sharedSteps_congr {r r' : Mat α n n} (h : r.SameUpper r') (calls : List (α × α)) :
    (model.sharedSteps r calls).map (fun d => (d.damping, d.x)) =
      (model.separateSteps r' calls).map fun d => (d.damping, d.x) := by
  induction calls generalizing r with
  | nil => rfl
  | cons call calls ih =>
      obtain ⟨hdamping, hx⟩ := model.dampedStep_congr h call.1 call.2
      have hrest := ih ((model.sameUpper_dampedStep r call.1 call.2).trans h)
      simp only [separateSteps, sharedSteps, List.map_cons] at hrest ⊢
      rw [hdamping, hx, hrest]

theorem sameUpper_sharedSteps (r : Mat α n n) (calls : List (α × α)) :
    ∀ d ∈ model.sharedSteps r calls, d.workspace.SameUpper r := by
  induction calls generalizing r with
  | nil => nofun
  | cons call calls ih =>
      have hfirst := model.sameUpper_dampedStep r call.1 call.2
      refine List.forall_mem_cons.2 ⟨hfirst, fun d hd => ?_⟩
      exact (ih _ d hd).trans hfirst

end StepModel

/-! ### What else reads the matrix -/

section Readers

variable [Scalar α]

namespace Linearization

variable (l : Linearization α m n) {r r' : Mat α n n}

theorem cosineAt_congr (h : r.SameUpper l.r) (norm : α) (j : Fin n) :
    ({ l with r } : Linearization α m n).cosineAt norm j = l.cosineAt norm j := by
  have hsum : ((upTo j).map fun i => r[i][j] * (l.qtf[i] / norm)) =
      (upTo j).map fun i => l.r[i][j] * (l.qtf[i] / norm) :=
    List.map_congr_left fun i hi => by rw [h i j (mem_upTo.1 hi)]
  unfold cosineAt
  dsimp only
  rw [hsum]

theorem gradientCosine_congr (h : r.SameUpper l.r) (norm : α) :
    ({ l with r } : Linearization α m n).gradientCosine norm = l.gradientCosine norm := by
  unfold gradientCosine
  simp only [cosineAt_congr l h]

theorem image_congr (h : r.SameUpper r') (step : Vector α n) : l.image r step = l.image r' step := by
  refine ext_getElem fun i => ?_
  rw [image, image, getElem_ofFn, getElem_ofFn]
  congr 1
  exact List.map_congr_left fun j hj => by rw [h i j (mem_starting.1 hj)]

end Linearization

namespace Covariance

variable {a b : Mat α n n}

theorem invertColumn_congr (h : a.SameUpper b) (c : Fin n) :
    (invertColumn a c).SameUpper (invertColumn b c) := by
  intro i j hij
  unfold invertColumn
  simp only [Mat.getElem_ofFn]
  split
  · next hj =>
    subst hj
    -- the column is inverted from its entries up to the diagonal, and those of the columns before
    refine List.foldl_rel (r := fun v v' : Vector α n => ∀ i ≤ j, v[i] = v'[i]) ?_ ?_ i hij
    · intro i hi
      rw [getElem_put, getElem_put, h.self j, Mat.getElem_column, Mat.getElem_column, h i j hi]
    · intro l hl v v' hv i hi
      have hlj : l ≤ j := (mem_before.1 hl).le
      rw [getElem_ofFn, getElem_ofFn, hv i hi, hv l hlj, h.self j, h.self l]
      split
      · next hil => rw [h i l hil.le]
      · rfl
  · exact h i j hij

theorem multiplyColumn_congr (h : a.SameUpper b) (c : Fin n) :
    (multiplyColumn a c).SameUpper (multiplyColumn b c) := by
  intro i j hij
  unfold multiplyColumn
  rw [Mat.getElem_ofFn, Mat.getElem_ofFn, h i j hij]
  split
  · next hbefore => rw [h j c hbefore.1.le, h i c (hij.trans hbefore.1.le)]
  · split
    · next hlast => rw [h.self c, h i c hlast.2]
    · rfl

theorem triangle_congr (h : a.SameUpper b) (rank : ℕ) : (triangle a rank).SameUpper (triangle b rank) :=
  List.foldl_rel (r := Mat.SameUpper)
    (List.foldl_rel (r := Mat.SameUpper) h fun c _ _ _ hc => invertColumn_congr hc c)
    fun c _ _ _ hc => multiplyColumn_congr hc c

theorem unpermute_congr (h : a.SameUpper b) (pivot : Vector (Fin n) n) (rank : ℕ) :
    unpermute a pivot rank = unpermute b pivot rank := by
  have hupper : upperTriangle a = upperTriangle b := by
    refine ext_getElem fun i => ext_getElem fun j => ?_
    rw [upperTriangle, upperTriangle, Mat.getElem_ofFn, Mat.getElem_ofFn]
    split
    · next hij => exact h i j hij
    · rfl
  rw [unpermute, unpermute, hupper]

end Covariance

theorem covariance_congr {r r' : Mat α n n} (h : r.SameUpper r') (pivot : Vector (Fin n) n)
    (tolerance : α) : covariance r pivot tolerance = covariance r' pivot tolerance := by
  have hrank : Covariance.rank r tolerance = Covariance.rank r' tolerance := by
    rw [Covariance.rank, Covariance.rank, h.diagonal]
  rw [covariance, covariance, hrank, Covariance.unpermute_congr (Covariance.triangle_congr h _)]

end Readers

end LeastSquares
