import LeastSquares.Proofs.Reals
import LeastSquares.Proofs.Workspace

/-!
A search in explicit memory. The search of the library says what each iteration computes and not
where. Here it is written again with its two pieces of memory: the buffer that the Jacobian is
copied into, masked and factored in, and the block at its top in which the steps of the iteration
work. `Memory` says what is found there: what the steps before left, or something new.

Every memory whose block keeps `R` gives the same run (`searchIn_agree`): the buffer is written
before it is read, and of the block only the upper triangle is read. Two runs agree when they halt
alike, leave the same journal, and come to related results; `Run.Agree.bind` is the rule that the
proof follows the search with.
-/

namespace LeastSquares

variable {α : Type} {n m k : ℕ}

/-! ### Writing into a buffer -/

namespace Mat

def assign (buffer source : Mat α m k) : Mat α m k :=
  (List.finRange m).foldl (fun b i =>
    (List.finRange k).foldl (fun b c => b.setEntry i c source[i][c]) b) buffer

/-- Row `i` of `b` is that of `source` up to `count`, and the other rows of `b` are those of `buffer`. -/
structure RowAssigned (source buffer : Mat α m k) (i : Fin m) (count : ℕ) (b : Mat α m k) : Prop where
  done : ∀ c : Fin k, c.val < count → b[i][c] = source[i][c]
  other : ∀ (l : Fin m) (c : Fin k), l ≠ i → b[l][c] = buffer[l][c]

theorem RowAssigned.setEntry {source buffer b : Mat α m k} {i : Fin m} {e : Fin k}
    (h : RowAssigned source buffer i e.val b) :
    RowAssigned source buffer i (e.val + 1) (b.setEntry i e source[i][e]) := by
  refine ⟨fun c hc => ?_, fun l c hl => ?_⟩
  · rw [getElem_setEntry]
    split
    · next heq => rw [heq.2]
    · next hne =>
      have hce : c.val ≠ e.val := fun h => hne ⟨rfl, Fin.ext h.symm⟩
      exact h.done c (by omega)
  · rw [getElem_setEntry, if_neg fun h => hl h.1.symm]
    exact h.other l c hl

theorem rowAssigned_foldl (source buffer : Mat α m k) (i : Fin m) :
    RowAssigned source buffer i k
      ((List.finRange k).foldl (fun b c => b.setEntry i c source[i][c]) buffer) :=
  foldl_finRange (I := RowAssigned source buffer i)
    ⟨fun _ hc => absurd hc (Nat.not_lt_zero _), fun _ _ _ => rfl⟩ fun _ _ ht => ht.setEntry

/-- Nothing of the buffer is left. -/
theorem assign_eq (buffer source : Mat α m k) : buffer.assign source = source := by
  have hall : ∀ (i : Fin m) (c : Fin k), i.val < m → (buffer.assign source)[i][c] = source[i][c] := by
    refine foldl_finRange (I := fun count (b : Mat α m k) => ∀ (i : Fin m) (c : Fin k),
      i.val < count → b[i][c] = source[i][c]) (fun _ _ hi => absurd hi (Nat.not_lt_zero _)) ?_
    intro e b hb i c hi
    have hrow := rowAssigned_foldl source b e
    by_cases hie : i = e
    · subst hie
      exact hrow.done c c.isLt
    · have hne : i.val ≠ e.val := fun h => hie (Fin.ext h)
      exact (hrow.other i c hie).trans (hb i c (by omega))
  exact ext_getElem fun i => ext_getElem fun c => hall i c i.isLt

def withTop (buffer : Mat α m k) (block : Mat α k k) : Mat α m k :=
  Mat.ofFn fun i c => if h : i.val < k then block[(⟨i.val, h⟩ : Fin k)][c] else buffer[i][c]

end Mat

namespace StepLimits

variable [Scalar α] (limits : StepLimits α k)

/-- Clears the columns that point outward, one after the other, in the matrix itself. -/
def maskInPlace (x : Vector α k) (residuals : Vector α m) (a : Mat α m k) : Mat α m k :=
  (List.finRange k).foldl (fun a c =>
    if limits.pointsOutward x a residuals c then a.map (put · c 0) else a) a

theorem pointsOutward_congr {x : Vector α k} {a a' : Mat α m k} {residuals : Vector α m} {c : Fin k}
    (h : ∀ i : Fin m, a[i][c] = a'[i][c]) :
    limits.pointsOutward x a residuals c = limits.pointsOutward x a' residuals c := by
  have hcolumn : a.column c = a'.column c :=
    ext_getElem fun i => by rw [Mat.getElem_column, Mat.getElem_column, h i]
  rw [pointsOutward, pointsOutward, columnSlope, columnSlope, hcolumn]

/-- The columns before `count` are masked, and the others are those of `a`. -/
def MaskedBefore (x : Vector α k) (residuals : Vector α m) (a : Mat α m k) (count : ℕ)
    (b : Mat α m k) : Prop :=
  ∀ (i : Fin m) (c : Fin k), b[i][c] =
    if c.val < count then (limits.maskJacobian x a residuals)[i][c] else a[i][c]

theorem MaskedBefore.clear {x : Vector α k} {residuals : Vector α m} {a b : Mat α m k} {e : Fin k}
    (h : limits.MaskedBefore x residuals a e.val b) :
    limits.MaskedBefore x residuals a (e.val + 1)
      (if limits.pointsOutward x b residuals e then b.map (put · e 0) else b) := by
  intro i c
  have hsame : limits.pointsOutward x b residuals e = limits.pointsOutward x a residuals e :=
    limits.pointsOutward_congr fun i => (h i e).trans (if_neg (lt_irrefl _))
  have hmasked : (limits.maskJacobian x a residuals)[i][e] =
      if limits.pointsOutward x a residuals e then 0 else a[i][e] := by
    rw [maskJacobian, Mat.getElem_ofFn, getElem_ofFn]
  have hrest : c ≠ e → b[i][c] =
      if c.val < e.val + 1 then (limits.maskJacobian x a residuals)[i][c] else a[i][c] := by
    intro hce
    have hne : c.val ≠ e.val := fun h => hce (Fin.ext h)
    rw [h i c]
    exact if_congr (by omega) rfl rfl
  rw [hsame]
  by_cases hout : limits.pointsOutward x a residuals e = true
  · have hcleared : (b.map (put · e 0))[i][c] = if e = c then 0 else b[i][c] := by
      simp [getElem_put]
    rw [if_pos hout] at hmasked
    simp only [hout, if_true, hcleared]
    split
    · next hec =>
      subst hec
      rw [if_pos (Nat.lt_succ_self _), hmasked]
    · next hec => exact hrest (Ne.symm hec)
  · rw [if_neg hout] at hmasked
    simp only [hout, if_false, Bool.false_eq_true]
    by_cases hce : c = e
    · subst hce
      rw [if_pos (Nat.lt_succ_self _), hmasked, h i c, if_neg (lt_irrefl _)]
    · exact hrest hce

theorem maskInPlace_eq (x : Vector α k) (residuals : Vector α m) (a : Mat α m k) :
    limits.maskInPlace x residuals a = limits.maskJacobian x a residuals := by
  have hall : limits.MaskedBefore x residuals a k (limits.maskInPlace x residuals a) :=
    foldl_finRange (I := limits.MaskedBefore x residuals a) (fun _ _ => rfl) fun _ _ h => h.clear
  exact ext_getElem fun i => ext_getElem fun c => (hall i c).trans (if_pos c.isLt)

end StepLimits

/-! ### Memory -/

/-- The memory of a search. -/
structure Memory (α : Type) (m k : ℕ) where
  /-- The buffer for a factorization, given the one that the iteration before left. -/
  buffer : Mat α m k → Mat α m k
  /-- What the block that holds `R` holds after a step, given `R` and what the step left. -/
  block : (r left : Mat α k k) → Mat α k k

namespace Memory

/-- One buffer, used throughout. -/
def shared : Memory α m k := ⟨id, fun _ left => left⟩

/-- A buffer of zeros for every factorization, and a copy of `R` for every step. -/
def fresh [Zero α] : Memory α m k := ⟨fun _ => Mat.zero, fun r _ => r⟩

/-- The block still has `R` in its upper triangle. -/
def Keeps (memory : Memory α m k) : Prop :=
  ∀ r left, left.SameUpper r → (memory.block r left).SameUpper r

theorem keeps_shared : (shared : Memory α m k).Keeps := fun _ _ h => h

theorem keeps_fresh [Zero α] : (fresh : Memory α m k).Keeps := fun r _ _ => .refl r

end Memory

namespace Setting

variable [NormedScalar α] (s : Setting α n m k) (memory : Memory α m k)

/-- Factors the Jacobian in the buffer. What is left there is `R` and the reflections. -/
def linearizeIn (p : Iterate α n m k) (jacobian buffer : Mat α m k) (tall : k ≤ m) :
    Linearization α m k × Mat α m k :=
  let a := s.limits.maskInPlace p.free p.residuals (buffer.assign jacobian)
  let qr := PivotedQR.factor a tall
  ({ jacobian
     pegged := (List.finRange k).countP (s.limits.isPegged p.free)
     r := qr.workspace
     pivot := qr.pivot
     columnNorms := qr.columnNorms
     qtf := qr.project p.residuals }, qr.triangular)

def proposeIn (l : Linearization α m k) (scale : Vector α k) (p : Progress α n m k) :
    Proposal α k :=
  let t := s.propose l scale p
  { t with damped := { t.damped with workspace := memory.block l.r t.damped.workspace } }

def tryProposal (l : Linearization α m k) (scale : Vector α k) (cosine : α) (p : Progress α n m k)
    (t : Proposal α k) : Run α n (TrialResult α n m k) := do
  Run.require (t.move.target.all Scalar.isFinite)
    (.nonFiniteParameters p.point.free.toList t.move.target.toList)
  let residuals ← s.residualsAt .trial (s.withFree p.point.x t.move.target)
  let v := s.judge l p.point t residuals
  let next := s.pointAfter p.point scale t residuals v
  v.logTrial next cosine
  return {
    progress := ⟨next, v.region, t.damped.workspace⟩
    accepted := v.accepted
    status :=
      s.options.stepStatus (v.statistics next.scaledNorm cosine) next.iterations
        (← Run.evaluations) }

theorem tryStep_eq (l : Linearization α m k) (scale : Vector α k) (cosine : α)
    (p : Progress α n m k) :
    s.tryStep l scale cosine p = s.tryProposal l scale cosine p (s.propose l scale p) := rfl

def tryUntilAcceptedIn (l : Linearization α m k) (scale : Vector α k) (cosine : α) :
    (trials : ℕ) → Progress α n m k → Run α n (TrialResult α n m k)
  | 0, _ => throw .outOfTrials
  | trials + 1, p => do
    let result ← s.tryProposal l scale cosine p (s.proposeIn memory l scale p)
    if result.accepted || !result.status.isEmpty then return result
    else tryUntilAcceptedIn l scale cosine trials result.progress

/-- The steps of an iteration. The next iteration is handed the block as they left it. -/
def advanceIn (l : Linearization α m k) (trials : ℕ) (c : Checkpoint α n m k) :
    Run α n (Finish α n m k ⊕ Checkpoint α n m k × Mat α k k) := do
  let cosine := l.gradientCosine c.point.norm
  let status := s.options.gradientStatus cosine
  if !status.isEmpty then return .inl ⟨c.point, l, l.r, status⟩
  if s.options.maxIterations = 0 then return .inl ⟨c.point, l, l.r, .ofReason .maxIterations⟩
  let scale := s.stepScale l c.scale
  let result ← s.tryUntilAcceptedIn memory l scale cosine trials ⟨c.point, c.region, l.r⟩
  let q := result.progress
  if !result.status.isEmpty then return .inl ⟨q.point, l, q.workspace, result.status⟩
  return .inr (⟨scale, q.region, q.point⟩, q.workspace)

def iterationIn (tall : k ≤ m) (trials : ℕ) (c : Checkpoint α n m k) (buffer : Mat α m k) :
    Run α n (Finish α n m k ⊕ Checkpoint α n m k × Mat α m k) := do
  let jacobian ← s.jacobianAt c.point.x c.point.residuals
  let (l, packed) := s.linearizeIn c.point jacobian buffer tall
  match ← s.advanceIn memory l trials (s.rescale l c) with
  | .inl finish => return .inl finish
  | .inr (next, block) => return .inr (next, packed.withTop block)

def iterateIn (tall : k ≤ m) (trials : ℕ) :
    (iterations : ℕ) → Checkpoint α n m k → Mat α m k → Run α n (Finish α n m k)
  | 0, _, _ => throw .outOfTrials
  | iterations + 1, c, buffer => do
    match ← s.iterationIn memory tall trials c (memory.buffer buffer) with
    | .inl finish => return finish
    | .inr (next, buffer) => iterateIn tall trials iterations next buffer

/-- The search from a vector of starting values, which begins with a buffer of zeros. -/
def searchIn (tall : k ≤ m) (trials : ℕ) (names : Vector (Option String) n) (x : Vector α n) :
    Run α n (Solution α n m) := do
  let p ← s.startAt x
  let finish ← s.iterateIn memory tall trials (s.options.maxIterations + 1) (s.firstCheckpoint p)
    Mat.zero
  s.conclude names p.norm finish

end Setting

/-- The fit of `minimizeWithin` in explicit memory. -/
def minimizeIn [NormedScalar α] (store : Store α) (function : ResidualFunction α)
    (memory : Memory α function.count store.free.size) (trials : ℕ) (options : Options α)
    (initial : Option (Array α)) :
    Except (Halt α) (Solution α store.size function.count) × Journal α store.size :=
  match prepare store function options initial with
  | .error cause => (.error (.failed cause), .empty)
  | .ok ⟨mode, x, tall⟩ =>
    Run.outcome <| (Setting.ofStore store function options mode).searchIn memory tall trials
      store.names x

/-! ### Runs that agree -/

namespace Run

variable {β γ β' γ' : Type}

/-- The runs halt alike and leave the same journal, and where they come to an end their results are
related. -/
def Agree (R : β → γ → Prop) (run : Run α n β) (run' : Run α n γ) : Prop :=
  ∀ j, (∃ halt i, run.resume j = (.error halt, i) ∧ run'.resume j = (.error halt, i)) ∨
    ∃ b c i, run.resume j = (.ok b, i) ∧ run'.resume j = (.ok c, i) ∧ R b c

namespace Agree

variable {R : β → γ → Prop} {S : β' → γ' → Prop}

theorem pure {b : β} {c : γ} (h : R b c) : Agree R (pure b : Run α n β) (pure c) :=
  fun j => .inr ⟨b, c, j, rfl, rfl, h⟩

theorem throw (halt : Halt α) : Agree R (throw halt : Run α n β) (throw halt) :=
  fun j => .inl ⟨halt, j, rfl, rfl⟩

theorem refl (run : Run α n β) : Agree Eq run run := by
  intro j
  rcases h : run.resume j with ⟨halt | b, i⟩
  · exact .inl ⟨halt, i, rfl, rfl⟩
  · exact .inr ⟨b, b, i, rfl, rfl, rfl⟩

theorem bind {run : Run α n β} {run' : Run α n γ} {f : β → Run α n β'} {f' : γ → Run α n γ'}
    (hrun : Agree R run run') (hf : ∀ b c, R b c → Agree S (f b) (f' c)) :
    Agree S (run >>= f) (run' >>= f') := by
  intro j
  rw [resume_bind, resume_bind]
  rcases hrun j with ⟨halt, i, h, h'⟩ | ⟨b, c, i, h, h', hbc⟩
  · rw [h, h']
    exact .inl ⟨halt, i, rfl, rfl⟩
  · rw [h, h']
    exact hf b c hbc i

theorem bind_eq {run : Run α n β} {f : β → Run α n β'} {f' : β → Run α n γ'}
    (hf : ∀ b, Agree S (f b) (f' b)) : Agree S (run >>= f) (run >>= f') :=
  (refl run).bind fun b _ h => h ▸ hf b

theorem resume_eq {run run' : Run α n β} (h : Agree Eq run run') (j : Journal α n) :
    run.resume j = run'.resume j := by
  rcases h j with ⟨halt, i, h, h'⟩ | ⟨b, c, i, h, h', rfl⟩
  · rw [h, h']
  · rw [h, h']

end Agree

end Run

/-! ### Every memory gives the same run -/

/-- The same proposal, in two blocks that both hold `r`. -/
def Proposal.Alike (r : Mat α k k) (t t' : Proposal α k) : Prop :=
  t.damped.workspace.SameUpper r ∧
    ∃ w, w.SameUpper r ∧ t' = { t with damped := { t.damped with workspace := w } }

def Progress.Alike (r : Mat α k k) (p p' : Progress α n m k) : Prop :=
  p.workspace.SameUpper r ∧ ∃ w, w.SameUpper r ∧ p' = { p with workspace := w }

structure TrialResult.Alike (r : Mat α k k) (a a' : TrialResult α n m k) : Prop where
  progress : a.progress.Alike r a'.progress
  accepted : a'.accepted = a.accepted
  status : a'.status = a.status

def Finish.Alike (f f' : Finish α n m k) : Prop :=
  ∃ w, w.SameUpper f.workspace ∧ f' = { f with workspace := w }

namespace Setting

open Run

variable [NormedScalar α] {s : Setting α n m k} {memory : Memory α m k} {l : Linearization α m k}
  {scale : Vector α k} {cosine : α} {tall : k ≤ m}

/-- The model does not depend on what the buffer held. -/
theorem linearizeIn_eq (p : Iterate α n m k) (jacobian buffer : Mat α m k) :
    s.linearizeIn p jacobian buffer tall =
      (.ofJacobian s.limits p jacobian tall,
        (PivotedQR.factor (s.limits.maskJacobian p.free jacobian p.residuals) tall).triangular) := by
  unfold linearizeIn
  rw [Mat.assign_eq, StepLimits.maskInPlace_eq]
  rfl

theorem proposeIn_alike (hmemory : memory.Keeps) {p p' : Progress α n m k} (h : p.Alike l.r p') :
    (s.propose l scale p).Alike l.r (s.proposeIn memory l scale p') := by
  obtain ⟨hp, w, hw, rfl⟩ := h
  obtain ⟨hdamping, hx⟩ :=
    (l.stepModel scale).dampedStep_congr (hw.trans hp.symm) p.region.radius p.region.damping
  have hleft := ((l.stepModel scale).sameUpper_dampedStep w p.region.radius p.region.damping).trans hw
  refine ⟨((l.stepModel scale).sameUpper_dampedStep p.workspace _ _).trans hp, _,
    hmemory l.r _ hleft, ?_⟩
  unfold proposeIn propose Progress.regionFor
  dsimp only
  rw [hdamping, hx]

theorem tryProposal_agree {t t' : Proposal α k} (h : t.Alike l.r t') (p : Progress α n m k)
    (w : Mat α k k) :
    Agree (TrialResult.Alike l.r) (s.tryProposal l scale cosine p t)
      (s.tryProposal l scale cosine { p with workspace := w } t') := by
  obtain ⟨ht, w', hw', rfl⟩ := h
  refine .bind_eq fun _ => .bind_eq fun r => ?_
  have hjudge : s.judge l p.point { t with damped := { t.damped with workspace := w' } } r =
      s.judge l p.point t r := by
    unfold judge
    dsimp only
    rw [l.image_congr (hw'.trans ht.symm)]
  dsimp only
  rw [hjudge]
  exact .bind_eq fun _ => .bind_eq fun _ => .pure ⟨⟨ht, w', hw', rfl⟩, rfl, rfl⟩

theorem tryUntilAccepted_agree (hmemory : memory.Keeps) (trials : ℕ) {p p' : Progress α n m k}
    (h : p.Alike l.r p') :
    Agree (TrialResult.Alike l.r) (s.tryUntilAccepted l scale cosine trials p)
      (s.tryUntilAcceptedIn memory l scale cosine trials p') := by
  induction trials generalizing p p' with
  | zero => exact .throw _
  | succ trials ih =>
      have ht : (s.propose l scale p).Alike l.r (s.proposeIn memory l scale p') :=
        proposeIn_alike hmemory h
      obtain ⟨hp, w, hw, rfl⟩ := h
      refine (tryProposal_agree ht p w).bind fun a a' ha => ?_
      rw [ha.accepted, ha.status]
      split
      · exact .pure ha
      · exact ih ha.progress

theorem advance_agree (hmemory : memory.Keeps) (trials : ℕ) (c : Checkpoint α n m k) :
    Agree (Sum.LiftRel Finish.Alike fun c c' => c'.1 = c) (s.advance l trials c)
      (s.advanceIn memory l trials c) := by
  have hsame : ∀ status, Finish.Alike ⟨c.point, l, l.r, status⟩ ⟨c.point, l, l.r, status⟩ :=
    fun _ => ⟨l.r, .refl _, rfl⟩
  unfold advance advanceIn
  dsimp only
  split
  · exact .pure (.inl (hsame _))
  · split
    · exact .pure (.inl (hsame _))
    · have hstart : Progress.Alike l.r (⟨c.point, c.region, l.r⟩ : Progress α n m k)
          ⟨c.point, c.region, l.r⟩ := ⟨.refl _, l.r, .refl _, rfl⟩
      refine (tryUntilAccepted_agree hmemory trials hstart).bind fun a a' ha => ?_
      obtain ⟨hp, w, hw, hprogress⟩ := ha.progress
      rw [ha.status, hprogress]
      split
      · exact .pure (.inl ⟨w, hw.trans hp.symm, rfl⟩)
      · exact .pure (.inr rfl)

theorem iteration_agree (hmemory : memory.Keeps) (trials : ℕ) (c : Checkpoint α n m k)
    (buffer : Mat α m k) :
    Agree (Sum.LiftRel Finish.Alike fun c c' => c'.1 = c) (s.iteration tall trials c)
      (s.iterationIn memory tall trials c buffer) := by
  refine .bind_eq fun jacobian => ?_
  rw [linearizeIn_eq, ← bind_pure (s.advance _ _ _)]
  refine (advance_agree hmemory trials _).bind fun outcome outcome' h => ?_
  cases h with
  | inl hf => exact .pure (.inl hf)
  | inr hc => exact .pure (.inr hc)

theorem iterate_agree (hmemory : memory.Keeps) (trials iterations : ℕ) (c : Checkpoint α n m k)
    (buffer : Mat α m k) :
    Agree Finish.Alike (s.iterate tall trials iterations c)
      (s.iterateIn memory tall trials iterations c buffer) := by
  induction iterations generalizing c buffer with
  | zero => exact .throw _
  | succ iterations ih =>
      refine (iteration_agree hmemory trials c _).bind fun outcome outcome' h => ?_
      cases h with
      | inl hf => exact .pure hf
      | inr hc =>
          subst hc
          exact ih _ _

/-- The covariance and the report of the end do not look below the diagonal. -/
theorem conclude_congr {f f' : Finish α n m k} (h : f.Alike f') (names : Vector (Option String) n)
    (start : α) : s.conclude names start f = s.conclude names start f' := by
  obtain ⟨w, hw, rfl⟩ := h
  have hcovariance : s.covarianceAt { f with workspace := w } = s.covarianceAt f := by
    unfold covarianceAt
    rw [covariance_congr hw]
  unfold conclude logFinish solutionOf
  rw [hcovariance]

/-- A search does not depend on its memory. -/
theorem search_agree (hmemory : memory.Keeps) (trials : ℕ) (names : Vector (Option String) n)
    (x : Vector α n) :
    Agree Eq (s.search tall trials names x) (s.searchIn memory tall trials names x) := by
  refine .bind_eq fun p => (iterate_agree hmemory trials _ _ _).bind fun f f' hf => ?_
  rw [conclude_congr hf]
  exact .refl _

end Setting

theorem minimizeIn_eq [NormedScalar α] {store : Store α} {function : ResidualFunction α}
    {memory : Memory α function.count store.free.size} (hmemory : memory.Keeps) (trials : ℕ)
    (options : Options α) (initial : Option (Array α)) :
    minimizeIn store function memory trials options initial =
      minimizeWithin trials store function options initial := by
  unfold minimizeIn minimizeWithin
  cases prepare store function options initial with
  | error cause => rfl
  | ok start => exact ((Setting.search_agree hmemory trials _ _).resume_eq .empty).symm

/-! ### Nothing leaks -/

/-- The solve and the step leave the upper triangle of `r` as it is, and so does a sequence of steps
after each of them. -/
structure StepModel.KeepsUpper [NormedScalar α] (model : StepModel α n) (r : Mat α n n) : Prop where
  solve : ∀ damping b, (dampedSolve r model.pivot damping b).workspace.SameUpper r
  step : ∀ radius damping, (model.dampedStep r radius damping).workspace.SameUpper r
  steps : ∀ calls, ∀ d ∈ model.sharedSteps r calls, d.workspace.SameUpper r

/-- Everything that is computed from `r` is the same from `r'`: what the solve returns, and what it
leaves; steps, one by one, and in a shared workspace as in copies; the gradient test, the image of a
step and the covariance. -/
structure StepModel.Indistinguishable [NormedScalar α] (model : StepModel α n) (r r' : Mat α n n) :
    Prop where
  solve : ∀ damping b,
    dampedSolve r model.pivot damping b = dampedSolve r' model.pivot damping b
  step : ∀ radius damping,
    (model.dampedStep r radius damping).damping = (model.dampedStep r' radius damping).damping ∧
      (model.dampedStep r radius damping).x = (model.dampedStep r' radius damping).x
  steps : ∀ calls, (model.sharedSteps r calls).map (fun d => (d.damping, d.x)) =
    (model.separateSteps r' calls).map fun d => (d.damping, d.x)
  gradientCosine : ∀ {m : ℕ} (l : Linearization α m n) (norm : α),
    ({ l with r := r } : Linearization α m n).gradientCosine norm =
      ({ l with r := r' } : Linearization α m n).gradientCosine norm
  image : ∀ {m : ℕ} (l : Linearization α m n) (step : Vector α n), l.image r step = l.image r' step
  covariance : ∀ pivot tolerance, covariance r pivot tolerance = covariance r' pivot tolerance

/-- The shared workspace never leaks, in any arithmetic. Nothing writes the upper triangle, nothing
reads what others left below it, and a fit in one shared buffer comes to the same result, and makes the
same calls, as one with a new buffer for every factorization and a copy of `R` for every step; this
is the fit of `minimizeWithin`. -/
theorem workspace_never_leaks [NormedScalar α] :
    (∀ {n : ℕ} (model : StepModel α n) (r : Mat α n n), model.KeepsUpper r) ∧
    (∀ {n : ℕ} (model : StepModel α n) (r r' : Mat α n n), r.SameUpper r' →
      model.Indistinguishable r r') ∧
    ∀ (store : Store α) (function : ResidualFunction α) (options : Options α)
      (initial : Option (Array α)) (trials : ℕ),
      minimizeIn store function .shared trials options initial =
          minimizeWithin trials store function options initial ∧
        minimizeIn store function .fresh trials options initial =
          minimizeWithin trials store function options initial := by
  refine ⟨fun model r => ⟨fun damping b => sameUpper_dampedSolve r _ _ _, model.sameUpper_dampedStep r,
    model.sameUpper_sharedSteps r⟩, fun model r r' h => ?_, fun store function options initial trials =>
    ⟨minimizeIn_eq Memory.keeps_shared _ _ _, minimizeIn_eq Memory.keeps_fresh _ _ _⟩⟩
  exact
    { solve := dampedSolve_congr h model.pivot
      step := model.dampedStep_congr h
      steps := model.sharedSteps_congr h
      gradientCosine := fun l norm => Linearization.gradientCosine_congr { l with r := r' } h norm
      image := fun l step => l.image_congr h step
      covariance := covariance_congr h }

/-- Two matrices that differ below the diagonal. -/
theorem workspace_never_leaks_square :
    Mat.SameUpper (#v[#v[1, 2], #v[3, 4]] : Mat ℝ 2 2) #v[#v[1, 2], #v[0, 4]] ∧
      StepModel.Indistinguishable (⟨#v[1, 0], #v[1, 1], #v[1, 1]⟩ : StepModel ℝ 2)
        #v[#v[1, 2], #v[3, 4]] #v[#v[1, 2], #v[0, 4]] := by
  have hupper : Mat.SameUpper (#v[#v[1, 2], #v[3, 4]] : Mat ℝ 2 2) #v[#v[1, 2], #v[0, 4]] :=
    Fin.forall_fin_two.2 ⟨Fin.forall_fin_two.2 ⟨fun _ => rfl, fun _ => rfl⟩,
      Fin.forall_fin_two.2 ⟨fun h => absurd h (by decide), fun _ => rfl⟩⟩
  exact ⟨hupper, workspace_never_leaks.2.1 _ _ _ hupper⟩

end LeastSquares
