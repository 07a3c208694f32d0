import LeastSquares.Proofs.Guarded

/-!
A fit that checks every size and every index. Vectors are arrays of any size, what belongs to the
free parameters is looked up under their numbers, and the scratch buffer is moved into the
factorization and back; the factorization, the product with `Qᵗ`, the differences and the lookup of
a parameter are those that can refuse what they are given.

`searchGuarded_follows` says that such a search does what the search of the library does and that no
check fails, because each iteration hands on buffers of the right shapes (`Checkpoint.Ready`);
`solveGuarded_eq` says so of the fit of a problem.
-/

namespace LeastSquares

variable {α β : Type} {n m k : ℕ}

/-! ### What a search works with -/

/-- A setting without sizes: the free parameters by number, and what belongs to them in arrays. -/
structure RawSetting (α : Type) (n m : ℕ) where
  eval : Vector α n → Except (FitError α) (Vector α m)
  jacobian : Vector α n → Except (FitError α) (Mat α m n)
  applyTies : Vector α n → Vector α n
  free : Array ℕ
  lower : Array (Option α)
  upper : Array (Option α)
  maxStep : Array (Option α)
  rules : Array (DifferenceRule α)
  options : Options α
  mode : JacobianMode

namespace RawSetting

variable [Scalar α]

/-- The setting for the parameters of a store. Each free parameter is looked up by its number. -/
def ofStore (store : Store α) (function : ResidualFunction α) (options : Options α)
    (mode : JacobianMode) : Except (FitError α) (RawSetting α store.size function.count) := do
  let free := store.free.toList.map (·.val)
  let parameters ← free.mapM store.get?
  return {
    eval := fun x => function.eval x
    jacobian := fun x => function.jacobian x
    applyTies := store.applyTies
    free := free.toArray
    lower := (parameters.map (·.bounds.finiteLower)).toArray
    upper := (parameters.map (·.bounds.finiteUpper)).toArray
    maxStep := (parameters.map fun p => p.maxStep.filter Scalar.isFinite).toArray
    rules := (parameters.map (·.differenceRule)).toArray
    options, mode }

variable (raw : RawSetting α n m)

/-- The setting, once it is checked that every free parameter is in range and has its limits and its
rule. -/
def check (k : ℕ) : Guarded α n (Setting α n m k) := do
  let free ← Vector.ofFnM fun c : Fin k => do Guarded.index n (← Guarded.read raw.free c)
  let lower ← Guarded.sized k raw.lower
  let upper ← Guarded.sized k raw.upper
  let maxStep ← Guarded.sized k raw.maxStep
  let rules ← Guarded.sized k raw.rules
  return {
    eval := raw.eval
    jacobian := raw.jacobian
    applyTies := raw.applyTies
    free
    limits := { lower, upper, maxStep }
    rules
    options := raw.options
    mode := raw.mode }

def residualsInto (k : ℕ) (purpose : Purpose) (x out : Array α) : Guarded α n (Array α) := do
  let s ← raw.check k
  let x ← Guarded.sized n x
  Guarded.tie x
  let r ← Guarded.ofRun (s.residualsAt purpose x)
  Guarded.store out r.toArray

def jacobianInto (k : ℕ) (x residuals : Array α) (out : Table α) : Guarded α n (Table α) := do
  let s ← raw.check k
  Guarded.ofRun Run.countJacobian
  let jacobian ←
    match s.mode with
    | .analytic => do
      let x ← Guarded.sized n x
      Guarded.tie x
      Guarded.ofRun (s.analyticJacobian x)
    | .finiteDifference =>
      if out.rows = residuals.size ∧ out.columns = raw.free.size ∧
          raw.rules.size = raw.free.size then do
        let x ← Guarded.sized n x
        let fx ← Guarded.sized m residuals
        differenceJacobian (fun y => do Guarded.tie y; Guarded.ofRun (s.residualsAt .probe y)) x fx
          s.free s.rules s.options.differenceScale
      else throw (.wrongBuffer out.rows out.columns residuals.size raw.free.size raw.rules.size)
  let out ← out.assign (.ofMat jacobian)
  Guarded.ofRun (Run.require (jacobian.entries.all Scalar.isFinite) .nonFiniteJacobian)
  return out

end RawSetting

/-! ### The search -/

structure SearchState (α : Type) where
  x : Array α
  free : Array α
  residuals : Array α
  /-- The buffer for the residuals of trial steps. -/
  trial : Array α
  scale : Array α
  jacobian : Table α
  /-- The buffer that is factored. -/
  scratch : Table α
  norm : α
  scaledNorm : α
  iterations : ℕ
  region : TrustRegion α

/-- The checkpoint that a state stands for, if its arrays have the sizes that are needed. -/
def SearchState.checkpoint (st : SearchState α) (n m k : ℕ) : Guarded α n (Checkpoint α n m k) := do
  let scale ← Guarded.sized k st.scale
  let x ← Guarded.sized n st.x
  let free ← Guarded.sized k st.free
  let residuals ← Guarded.sized m st.residuals
  return ⟨scale, st.region, ⟨x, free, residuals, st.norm, st.scaledNorm, st.iterations⟩⟩

structure StepResult (α : Type) (k : ℕ) where
  state : SearchState α
  workspace : Mat α k k
  accepted : Bool
  status : Status

structure Ending (α : Type) (m k : ℕ) where
  state : SearchState α
  model : Linearization α m k
  workspace : Mat α k k
  status : Status

namespace RawSetting

variable [NormedScalar α] (raw : RawSetting α n m) (k : ℕ)

/-- Copies the Jacobian to the scratch buffer, clears columns there, and moves the buffer into the
factorization, which returns it with `R` at the top. -/
def linearizeGuarded (st : SearchState α) :
    Guarded α n (Linearization α m k × Mat α m k × SearchState α) := do
  let s ← raw.check k
  let c ← st.checkpoint n m k
  let jacobian ← st.jacobian.shaped m k
  let filled ← st.scratch.assign st.jacobian
  let a ← filled.shaped m k
  let qr ← Guarded.sizes (PivotedQR.factor? (s.limits.maskInPlace c.point.free c.point.residuals a))
  let image ← Guarded.sizes (qr.applyQt? st.residuals)
  let l : Linearization α m k :=
    { jacobian
      pegged := (List.finRange k).countP (s.limits.isPegged c.point.free)
      r := qr.workspace
      pivot := qr.pivot
      columnNorms := qr.columnNorms
      qtf := Vector.ofFn fun j => image[j.castLE qr.tall] }
  return (l, qr.triangular, { st with scratch := .empty })

def chosenScale (d : List α) : Guarded α n (Vector α k) :=
  Vector.ofFnM fun c => do Guarded.read d.toArray (← Guarded.read raw.free c)

def rescaleGuarded (l : Linearization α m k) (st : SearchState α) :
    Guarded α n (SearchState α) := do
  if st.iterations = 0 then
    let s ← raw.check k
    let free ← Guarded.sized k st.free
    let scale ←
      match raw.options.scale with
      | some d => raw.chosenScale k d
      | none => pure l.initialScale
    let scaledNorm := s.scaledNorm scale free
    return { st with
      scale := scale.toArray
      scaledNorm
      region := .initial raw.options.factor scaledNorm }
  else return st

/-- The state after a step with the residuals `trial`. It moved only if the step was accepted. -/
def moveGuarded (c : Checkpoint α n m k) (t : Proposal α k) (v : Verdict α) (trial : Array α)
    (st : SearchState α) : Guarded α n (SearchState α) := do
  let s ← raw.check k
  let r ← Guarded.sized m trial
  if v.accepted then
    let x := s.withFree c.point.x t.move.target
    Guarded.tie x
    let residuals ← Guarded.store st.residuals trial
    return { st with
      x := (s.applyTies x).toArray
      free := t.move.target.toArray
      residuals
      trial
      norm := s.normOf r
      scaledNorm := s.scaledNorm c.scale t.move.target
      iterations := st.iterations + 1
      region := v.region }
  else return { st with trial, region := v.region }

def tryStepGuarded (l : Linearization α m k) (cosine : α) (st : SearchState α)
    (workspace : Mat α k k) : Guarded α n (StepResult α k) := do
  let s ← raw.check k
  let c ← st.checkpoint n m k
  let t := s.propose l c.scale ⟨c.point, c.region, workspace⟩
  Guarded.ofRun (Run.require (t.move.target.all Scalar.isFinite)
    (.nonFiniteParameters c.point.free.toList t.move.target.toList))
  let x := s.withFree c.point.x t.move.target
  let trial ← raw.residualsInto k .trial x.toArray st.trial
  let r ← Guarded.sized m trial
  let v := s.judge l c.point t r
  let next ← raw.moveGuarded k c t v trial st
  let reached ← next.checkpoint n m k
  Guarded.ofRun (v.logTrial reached.point cosine)
  return {
    state := next
    workspace := t.damped.workspace
    accepted := v.accepted
    status :=
      s.options.stepStatus (v.statistics next.scaledNorm cosine) next.iterations
        (← Guarded.ofRun Run.evaluations) }

def tryUntilAcceptedGuarded (l : Linearization α m k) (cosine : α) :
    (trials : ℕ) → SearchState α → Mat α k k → Guarded α n (StepResult α k)
  | 0, _, _ => throw (.halted .outOfTrials)
  | trials + 1, st, workspace => do
    let result ← raw.tryStepGuarded k l cosine st workspace
    if result.accepted || !result.status.isEmpty then return result
    else tryUntilAcceptedGuarded l cosine trials result.state result.workspace

def advanceGuarded (l : Linearization α m k) (trials : ℕ) (st : SearchState α) :
    Guarded α n (Ending α m k ⊕ SearchState α × Mat α k k) := do
  let s ← raw.check k
  let cosine := l.gradientCosine st.norm
  let status := s.options.gradientStatus cosine
  if !status.isEmpty then return .inl ⟨st, l, l.r, status⟩
  if s.options.maxIterations = 0 then return .inl ⟨st, l, l.r, .ofReason .maxIterations⟩
  let scale ← Guarded.sized k st.scale
  let result ← raw.tryUntilAcceptedGuarded k l cosine trials
    { st with scale := (s.stepScale l scale).toArray } l.r
  if !result.status.isEmpty then
    return .inl ⟨result.state, l, result.workspace, result.status⟩
  return .inr (result.state, result.workspace)

/-- One iteration. The next one gets the scratch buffer back, with the matrix that the steps left.
-/
def iterationGuarded (trials : ℕ) (st : SearchState α) :
    Guarded α n (Ending α m k ⊕ SearchState α) := do
  let jacobian ← raw.jacobianInto k st.x st.residuals st.jacobian
  let (l, packed, st) ← raw.linearizeGuarded k { st with jacobian }
  match ← raw.advanceGuarded k l trials (← raw.rescaleGuarded k l st) with
  | .inl finish => return .inl finish
  | .inr (next, block) => return .inr { next with scratch := .ofMat (packed.withTop block) }

def iterateGuarded (trials : ℕ) :
    (iterations : ℕ) → SearchState α → Guarded α n (Ending α m k)
  | 0, _ => throw (.halted .outOfTrials)
  | iterations + 1, st => do
    match ← raw.iterationGuarded k trials st with
    | .inl finish => return finish
    | .inr next => iterateGuarded trials iterations next

def startGuarded (x : Array α) : Guarded α n (SearchState α) := do
  let s ← raw.check k
  Guarded.ofRun (Run.log (.started n k m s.mode))
  let x ← Guarded.sized n x
  Guarded.tie x
  let x := s.applyTies x
  let residuals ← raw.residualsInto k .start x.toArray (Array.replicate m 0)
  let r ← Guarded.sized m residuals
  return {
    x := x.toArray
    free := (s.freePart x).toArray
    residuals
    trial := Array.replicate m 0
    scale := Array.replicate k 0
    jacobian := .ofMat (Mat.zero : Mat α m k)
    scratch := .ofMat (Mat.zero : Mat α m k)
    norm := s.normOf r
    scaledNorm := 0
    iterations := 0
    region := .initial s.options.factor 0 }

def searchGuarded (trials : ℕ) (names : Vector (Option String) n) (x : Array α) :
    Guarded α n (Solution α n m) := do
  let s ← raw.check k
  let st ← raw.startGuarded k x
  let finish ← raw.iterateGuarded k trials (s.options.maxIterations + 1) st
  let c ← finish.state.checkpoint n m k
  Guarded.ofRun
    (s.conclude names st.norm ⟨c.point, finish.model, finish.workspace, finish.status⟩)

end RawSetting

/-! ### The setting -/

namespace Setting

/-- The setting without the sizes that its type carries. -/
def raw (s : Setting α n m k) : RawSetting α n m where
  eval := s.eval
  jacobian := s.jacobian
  applyTies := s.applyTies
  free := (s.free.map (·.val)).toArray
  lower := s.limits.lower.toArray
  upper := s.limits.upper.toArray
  maxStep := s.limits.maxStep.toArray
  rules := s.rules.toArray
  options := s.options
  mode := s.mode

variable (s : Setting α n m k)

theorem read_free (c : Fin k) :
    (Guarded.read s.raw.free c.val : Guarded α n ℕ) = pure s.free[c].val := by
  refine Guarded.read_eq ?_
  simp [raw, getElem_eq_val]

theorem check_raw [Scalar α] : s.raw.check k = pure s := by
  have hfree : (Vector.ofFnM fun c : Fin k => do
      Guarded.index n (← Guarded.read s.raw.free c) : Guarded α n _) = pure s.free := by
    refine Guarded.ofFnM_eq fun c => ?_
    rw [s.read_free, pure_bind, Guarded.index_val]
  unfold RawSetting.check
  rw [hfree, pure_bind]
  simp only [raw, Guarded.sized_toArray, pure_bind]

end Setting

namespace Store

variable [Scalar α] (store : Store α)

omit [Scalar α] in
theorem get?_val (i : Fin store.size) : store.get? i.val = .ok (store.get i) := by
  rw [get?, Array.getElem?_eq_getElem i.isLt]
  rfl

omit [Scalar α] in
theorem mapM_get? (l : List (Fin store.size)) :
    (l.map (·.val)).mapM store.get? = .ok (l.map store.get) := by
  induction l with
  | nil => rfl
  | cons i l ih =>
      rw [List.map_cons, List.mapM_cons, store.get?_val, ih]
      rfl

theorem toArray_map_free (f : Parameter α → β) :
    ((store.free.toList.map store.get).map f).toArray =
      (Vector.ofFn fun c : Fin store.free.size => f (store.get store.freePlaces[c])).toArray := by
  refine Array.ext (by simp) fun i _ _ => ?_
  simp only [List.getElem_toArray, List.getElem_map, Array.getElem_toList, Vector.getElem_toArray,
    Vector.getElem_ofFn]
  rfl

end Store

theorem RawSetting.ofStore_eq [Scalar α] (store : Store α) (function : ResidualFunction α)
    (options : Options α) (mode : JacobianMode) :
    RawSetting.ofStore store function options mode =
      .ok (Setting.ofStore store function options mode).raw := by
  have hfree : (store.free.toList.map (·.val)).toArray =
      ((⟨store.free, rfl⟩ : Vector _ store.free.size).map (·.val)).toArray :=
    Array.ext (by simp) fun i _ _ => by simp
  have hparameters := store.mapM_get? store.free.toList
  unfold RawSetting.ofStore
  dsimp only
  rw [hparameters, hfree]
  refine congrArg Except.ok ?_
  simp only [store.toArray_map_free]
  rfl

/-! ### The search follows the one of the library -/

/-- The state that stands for a checkpoint, with its buffers. Between the factorization and the next
iteration there is nothing in the scratch buffer. -/
def Checkpoint.state (c : Checkpoint α n m k) (trial : Vector α m) (jacobian scratch : Table α) :
    SearchState α where
  x := c.point.x.toArray
  free := c.point.free.toArray
  residuals := c.point.residuals.toArray
  trial := trial.toArray
  scale := c.scale.toArray
  jacobian
  scratch
  norm := c.point.norm
  scaledNorm := c.point.scaledNorm
  iterations := c.point.iterations
  region := c.region

theorem Checkpoint.checkpoint_state (c : Checkpoint α n m k) (trial : Vector α m)
    (jacobian scratch : Table α) :
    (c.state trial jacobian scratch).checkpoint n m k = pure c := by
  unfold SearchState.checkpoint
  simp only [state, Guarded.sized_toArray, pure_bind]

/-- A state between two iterations: every buffer is there. -/
def Checkpoint.Ready (c : Checkpoint α n m k) (st : SearchState α) : Prop :=
  ∃ (trial : Vector α m) (jacobian scratch : Mat α m k),
    st = c.state trial (.ofMat jacobian) (.ofMat scratch)

/-- A state within an iteration: the scratch buffer was moved to the factorization. -/
def Checkpoint.Factored (c : Checkpoint α n m k) (st : SearchState α) : Prop :=
  ∃ (trial : Vector α m) (jacobian : Mat α m k), st = c.state trial (.ofMat jacobian) .empty

structure TrialResult.SameStep (scale : Vector α k) (a : TrialResult α n m k) (b : StepResult α k) :
    Prop where
  state : Checkpoint.Factored ⟨scale, a.progress.region, a.progress.point⟩ b.state
  workspace : b.workspace = a.progress.workspace
  accepted : b.accepted = a.accepted
  status : b.status = a.status

structure Finish.SameEnd (f : Finish α n m k) (e : Ending α m k) : Prop where
  state : ∃ scale region, Checkpoint.Factored ⟨scale, region, f.point⟩ e.state
  model : e.model = f.model
  workspace : e.workspace = f.workspace
  status : e.status = f.status

namespace Setting

open Guarded

section Evaluation

variable [Scalar α] (s : Setting α n m k)

theorem residualsInto_follows (purpose : Purpose) (x : Vector α n) (out : Vector α m) :
    Follows (fun r a => a = r.toArray) (s.residualsAt purpose x)
      (s.raw.residualsInto k purpose x.toArray out.toArray) := by
  unfold RawSetting.residualsInto
  rw [s.check_raw, pure_bind, sized_toArray, pure_bind]
  refine .tie x ((Follows.ofRun _).then_pure fun r r' hr => ⟨r'.toArray, store_eq ?_, by rw [hr]⟩)
  rw [Vector.size_toArray, Vector.size_toArray]

theorem differences_follow (x : Vector α n) (fx : Vector α m) :
    Follows Eq
      (differenceJacobian (s.residualsAt .probe) x fx s.free s.rules s.options.differenceScale)
      (differenceJacobian (fun y => do tie y; ofRun (s.residualsAt .probe y)) x fx s.free s.rules
        s.options.differenceScale) :=
  Follows.congruence.differenceJacobian fun _ _ => .tie _ (.ofRun _)

theorem jacobianInto_follows (x : Vector α n) (fx : Vector α m) (out : Mat α m k) :
    Follows (fun a t => t = .ofMat a) (s.jacobianAt x fx)
      (s.raw.jacobianInto k x.toArray fx.toArray (.ofMat out)) := by
  have hbuffer : (Table.ofMat out).rows = fx.toArray.size ∧
      (Table.ofMat out).columns = s.raw.free.size ∧ s.raw.rules.size = s.raw.free.size := by
    simp [Table.ofMat, raw]
  have hend : ∀ a : Mat α m k, Follows (n := n) (fun a t => t = .ofMat a)
      (do Run.require (a.entries.all Scalar.isFinite) .nonFiniteJacobian; return a)
      (do
        let t ← (Table.ofMat out).assign (.ofMat a)
        ofRun (Run.require (a.entries.all Scalar.isFinite) .nonFiniteJacobian)
        return t) := by
    intro a
    rw [Table.assign_ofMat, pure_bind]
    exact (Follows.ofRun _).bind fun _ _ _ => .pure rfl
  unfold jacobianAt RawSetting.jacobianInto
  rw [s.check_raw, pure_bind]
  refine (Follows.ofRun _).bind fun _ _ _ => ?_
  cases s.mode with
  | analytic =>
      dsimp only
      rw [sized_toArray, pure_bind]
      exact .tie x ((Follows.ofRun _).bind fun a a' ha => ha ▸ hend a)
  | finiteDifference =>
      dsimp only
      rw [if_pos hbuffer, sized_toArray, pure_bind, sized_toArray, pure_bind]
      exact (s.differences_follow x fx).bind fun a a' ha => ha ▸ hend a

end Evaluation

variable [NormedScalar α] (s : Setting α n m k)

/-- The scratch buffer is moved, and nothing is refused. -/
theorem linearizeGuarded_eq (tall : k ≤ m) (c : Checkpoint α n m k) (trial : Vector α m)
    (jacobian scratch : Mat α m k) :
    s.raw.linearizeGuarded k (c.state trial (.ofMat jacobian) (.ofMat scratch)) =
      pure (.ofJacobian s.limits c.point jacobian tall,
        (PivotedQR.factor (s.limits.maskJacobian c.point.free jacobian c.point.residuals)
          tall).triangular,
        c.state trial (.ofMat jacobian) .empty) := by
  have hfactor : ∀ a : Mat α m k, PivotedQR.factor? a = .ok (.factor a tall) :=
    fun _ => dif_pos tall
  have hproduct : ∀ qr : PivotedQR α m k,
      qr.applyQt? c.point.residuals.toArray = .ok (qr.applyQt c.point.residuals) :=
    fun _ => dif_pos c.point.residuals.size_toArray
  unfold RawSetting.linearizeGuarded
  rw [s.check_raw, pure_bind, c.checkpoint_state, pure_bind]
  simp only [Checkpoint.state, Table.shaped_ofMat, Table.assign_ofMat, pure_bind,
    s.limits.maskInPlace_eq, hfactor, hproduct]
  rfl

theorem chosenScale_raw {d : List α} (hd : d.length = n) :
    s.raw.chosenScale k d = pure (s.free.map fun j => d.getD j.val 1) := by
  refine ofFnM_eq fun c => ?_
  have hc : s.free[c].val < d.length := lt_of_lt_of_eq s.free[c].isLt hd.symm
  rw [s.read_free, pure_bind]
  refine read_eq ?_
  rw [List.getElem?_toArray, getElem_map, List.getD_eq_getElem?_getD, List.getElem?_eq_getElem hc]
  rfl

theorem rescaleGuarded_eq (hscale : ∀ d, s.options.scale = some d → d.length = n)
    (l : Linearization α m k) (c : Checkpoint α n m k) (trial : Vector α m)
    (jacobian scratch : Table α) :
    s.raw.rescaleGuarded k l (c.state trial jacobian scratch) =
      pure ((s.rescale l c).state trial jacobian scratch) := by
  unfold RawSetting.rescaleGuarded rescale
  by_cases h : c.point.iterations = 0
  · rw [if_pos h, if_pos (show (c.state trial jacobian scratch).iterations = 0 from h), s.check_raw,
      pure_bind]
    simp only [Checkpoint.state, sized_toArray, pure_bind]
    cases hd : s.options.scale with
    | none =>
        simp only [raw, hd, chosenScale]
        rfl
    | some d =>
        have hchosen := s.chosenScale_raw (hscale d hd)
        simp only [raw, hd] at hchosen ⊢
        rw [hchosen, pure_bind]
        simp only [chosenScale, hd]
        rfl
  · rw [if_neg h, if_neg (show ¬(c.state trial jacobian scratch).iterations = 0 from h)]

theorem moveGuarded_follows (c : Checkpoint α n m k) (t : Proposal α k) (v : Verdict α)
    (r trial : Vector α m) (jacobian : Mat α m k) :
    Follows
      (fun _ : Unit => Checkpoint.Factored ⟨c.scale, v.region, s.pointAfter c.point c.scale t r v⟩)
      (pure ())
      (s.raw.moveGuarded k c t v r.toArray (c.state trial (.ofMat jacobian) .empty)) := by
  unfold RawSetting.moveGuarded pointAfter
  rw [s.check_raw, pure_bind, sized_toArray, pure_bind]
  split
  · have hsize : (c.state trial (.ofMat jacobian) .empty).residuals.size = r.toArray.size := by
      simp [Checkpoint.state]
    refine .tie _ ?_
    rw [store_eq hsize, pure_bind]
    exact .pure ⟨r, jacobian, rfl⟩
  · exact .pure ⟨r, jacobian, rfl⟩

theorem tryStepGuarded_follows (l : Linearization α m k) (cosine : α) (c : Checkpoint α n m k)
    {st : SearchState α} (hst : c.Factored st) (workspace : Mat α k k) :
    Follows (TrialResult.SameStep c.scale)
      (s.tryStep l c.scale cosine ⟨c.point, c.region, workspace⟩)
      (s.raw.tryStepGuarded k l cosine st workspace) := by
  obtain ⟨trial, jacobian, rfl⟩ := hst
  unfold RawSetting.tryStepGuarded tryStep
  rw [s.check_raw, pure_bind, c.checkpoint_state, pure_bind]
  refine (Follows.ofRun _).bind fun _ _ _ => ?_
  refine (s.residualsInto_follows .trial _ trial).bind fun r a ha => ?_
  subst ha
  rw [sized_toArray, pure_bind]
  refine .aside (s.moveGuarded_follows c _ _ r trial jacobian) fun st hst => ?_
  obtain ⟨trial', jacobian', rfl⟩ := hst
  rw [Checkpoint.checkpoint_state, pure_bind]
  refine (Follows.ofRun _).bind fun _ _ _ => (Follows.ofRun _).bind fun count count' hcount => ?_
  subst hcount
  exact .pure ⟨⟨trial', jacobian', rfl⟩, rfl, rfl, rfl⟩

theorem tryUntilAcceptedGuarded_follows (l : Linearization α m k) (cosine : α) (trials : ℕ)
    (c : Checkpoint α n m k) {st : SearchState α} (hst : c.Factored st) (workspace : Mat α k k) :
    Follows (TrialResult.SameStep c.scale)
      (s.tryUntilAccepted l c.scale cosine trials ⟨c.point, c.region, workspace⟩)
      (s.raw.tryUntilAcceptedGuarded k l cosine trials st workspace) := by
  induction trials generalizing c st workspace with
  | zero => exact .throw _
  | succ trials ih =>
      refine (s.tryStepGuarded_follows l cosine c hst workspace).bind fun a b hab => ?_
      rw [hab.accepted, hab.status, hab.workspace]
      split
      · exact .pure hab
      · exact ih ⟨c.scale, a.progress.region, a.progress.point⟩ hab.state a.progress.workspace

theorem advanceGuarded_follows (l : Linearization α m k) (trials : ℕ) (c : Checkpoint α n m k)
    {st : SearchState α} (hst : c.Factored st) :
    Follows (Sum.LiftRel Finish.SameEnd fun c next => c.Factored next.1) (s.advance l trials c)
      (s.raw.advanceGuarded k l trials st) := by
  have hstop : ∀ status, Finish.SameEnd ⟨c.point, l, l.r, status⟩ ⟨st, l, l.r, status⟩ :=
    fun _ => ⟨⟨c.scale, c.region, hst⟩, rfl, rfl, rfl⟩
  obtain ⟨trial, jacobian, rfl⟩ := hst
  unfold advance RawSetting.advanceGuarded
  rw [s.check_raw, pure_bind]
  dsimp only [Checkpoint.state] at hstop ⊢
  split
  · exact .pure (.inl (hstop _))
  · split
    · exact .pure (.inl (hstop _))
    · rw [sized_toArray, pure_bind]
      have hstate : Checkpoint.Factored ⟨s.stepScale l c.scale, c.region, c.point⟩
          { c.state trial (.ofMat jacobian) .empty with
            scale := (s.stepScale l c.scale).toArray } :=
        ⟨trial, jacobian, rfl⟩
      refine (s.tryUntilAcceptedGuarded_follows l _ trials _ hstate l.r).bind fun a b hab => ?_
      rw [hab.status, hab.workspace]
      split
      · exact .pure (.inl ⟨⟨_, _, hab.state⟩, rfl, rfl, rfl⟩)
      · exact .pure (.inr hab.state)

theorem iterationGuarded_follows (tall : k ≤ m)
    (hscale : ∀ d, s.options.scale = some d → d.length = n) (trials : ℕ) (c : Checkpoint α n m k)
    {st : SearchState α} (hst : c.Ready st) :
    Follows (Sum.LiftRel Finish.SameEnd Checkpoint.Ready) (s.iteration tall trials c)
      (s.raw.iterationGuarded k trials st) := by
  obtain ⟨trial, old, scratch, rfl⟩ := hst
  refine (s.jacobianInto_follows c.point.x c.point.residuals old).bind fun jacobian t ht => ?_
  subst ht
  change Follows _ _
    (s.raw.linearizeGuarded k (c.state trial (.ofMat jacobian) (.ofMat scratch)) >>= _)
  rw [s.linearizeGuarded_eq tall c trial jacobian scratch, pure_bind]
  dsimp only
  rw [s.rescaleGuarded_eq hscale, pure_bind]
  refine (s.advanceGuarded_follows _ trials _ ⟨trial, jacobian, rfl⟩).then_pure fun a b hab => ?_
  cases hab with
  | inl hfinish => exact ⟨_, rfl, .inl hfinish⟩
  | @inr next found hnext =>
      obtain ⟨st, block⟩ := found
      obtain ⟨trial', jacobian', rfl⟩ := hnext
      exact ⟨_, rfl, .inr ⟨trial', jacobian', _, rfl⟩⟩

theorem iterateGuarded_follows (tall : k ≤ m)
    (hscale : ∀ d, s.options.scale = some d → d.length = n) (trials iterations : ℕ)
    (c : Checkpoint α n m k) {st : SearchState α} (hst : c.Ready st) :
    Follows Finish.SameEnd (s.iterate tall trials iterations c)
      (s.raw.iterateGuarded k trials iterations st) := by
  induction iterations generalizing c st with
  | zero => exact .throw _
  | succ iterations ih =>
      refine (s.iterationGuarded_follows tall hscale trials c hst).bind fun a b hab => ?_
      cases hab with
      | inl hfinish => exact .pure hfinish
      | inr hnext => exact ih _ hnext

theorem startGuarded_follows (x : Vector α n) :
    Follows (fun p st => (s.firstCheckpoint p).Ready st ∧ st.norm = p.norm) (s.startAt x)
      (s.raw.startGuarded k x.toArray) := by
  have hbuffer : Array.replicate m (0 : α) = (Vector.replicate m (0 : α)).toArray := rfl
  unfold RawSetting.startGuarded startAt
  rw [s.check_raw, pure_bind]
  refine (Follows.ofRun _).bind fun _ _ _ => ?_
  rw [sized_toArray, pure_bind]
  refine .tie x ?_
  rw [hbuffer]
  refine (s.residualsInto_follows .start (s.applyTies x) _).bind fun r a ha => ?_
  subst ha
  rw [sized_toArray, pure_bind]
  exact .pure ⟨⟨_, _, _, rfl⟩, rfl⟩

/-- A search that checks every size and every index comes to what the search of the library comes
to. -/
theorem searchGuarded_follows (tall : k ≤ m)
    (hscale : ∀ d, s.options.scale = some d → d.length = n) (trials : ℕ)
    (names : Vector (Option String) n) (x : Vector α n) :
    Follows Eq (s.search tall trials names x)
      (s.raw.searchGuarded k trials names x.toArray) := by
  unfold RawSetting.searchGuarded search
  rw [s.check_raw, pure_bind]
  refine (s.startGuarded_follows x).bind fun p st hst => ?_
  refine (s.iterateGuarded_follows tall hscale trials _ _ hst.1).bind fun f e hfe => ?_
  obtain ⟨scale, region, trial, jacobian, hstate⟩ := hfe.state
  rw [hstate, Checkpoint.checkpoint_state, pure_bind, hst.2, hfe.model, hfe.workspace, hfe.status]
  exact .ofRun _

end Setting

/-! ### Fits -/

theorem checkScale_ok {options : Options α} {d : List α} (h : options.checkScale n = .ok ())
    (hd : options.scale = some d) : d.length = n := by
  rw [Options.checkScale, hd] at h
  by_contra hne
  simp [hne] at h

section Fits

variable [NormedScalar α]

def minimizeGuarded (trials : ℕ) (store : Store α) (function : ResidualFunction α)
    (options : Options α) (initial : Option (Array α)) :
    Except (Stop α) (Solution α store.size function.count) × Watch α store.size :=
  match prepare store function options initial with
  | .error cause => (.error (.halted (.failed cause)), .empty)
  | .ok start =>
    match RawSetting.ofStore store function options start.mode with
    | .error cause => (.error (.halted (.failed cause)), .empty)
    | .ok raw =>
      (raw.searchGuarded store.free.size trials store.names start.x.toArray).resume .empty

theorem minimizeGuarded_of_error {trials : ℕ} {store : Store α} {function : ResidualFunction α}
    {options : Options α} {initial : Option (Array α)} {cause : FitError α}
    (h : prepare store function options initial = .error cause) :
    minimizeGuarded trials store function options initial =
      (.error (.halted (.failed cause)), .empty) := by
  unfold minimizeGuarded
  rw [h]

theorem minimizeGuarded_of_start {trials : ℕ} {store : Store α} {function : ResidualFunction α}
    {options : Options α} {initial : Option (Array α)} {start : Start store function}
    (h : prepare store function options initial = .ok start) :
    minimizeGuarded trials store function options initial =
      ((Setting.ofStore store function options start.mode).raw.searchGuarded store.free.size trials
        store.names start.x.toArray).resume .empty := by
  unfold minimizeGuarded
  rw [h]
  dsimp only
  rw [RawSetting.ofStore_eq]

/-- No check fails in a search that was prepared. -/
theorem searchGuarded_of_prepare {store : Store α} {function : ResidualFunction α}
    {options : Options α} {initial : Option (Array α)} {start : Start store function}
    (h : prepare store function options initial = .ok start) (trials : ℕ) :
    Guarded.Follows Eq
      ((Setting.ofStore store function options start.mode).search start.tall trials store.names
        start.x)
      ((Setting.ofStore store function options start.mode).raw.searchGuarded store.free.size trials
        store.names start.x.toArray) :=
  Setting.searchGuarded_follows _ start.tall (fun _ hd => checkScale_ok (prepare_ok h).2.2.2.1 hd) _
    _ _

theorem minimizeGuarded_eq (trials : ℕ) (store : Store α) (function : ResidualFunction α)
    (options : Options α) (initial : Option (Array α)) :
    (minimizeGuarded trials store function options initial).1 =
        (minimizeWithin trials store function options initial).1.mapError .halted ∧
      (minimizeGuarded trials store function options initial).2.journal =
        (minimizeWithin trials store function options initial).2 := by
  cases h : prepare store function options initial with
  | error cause =>
      rw [minimizeGuarded_of_error h, minimizeWithin_of_error h]
      exact ⟨rfl, rfl⟩
  | ok start =>
      rw [minimizeGuarded_of_start h, minimizeWithin_of_start h]
      exact (searchGuarded_of_prepare h trials).resume_eq .empty

namespace Problem

variable (p : Problem α) (trials : ℕ) (initial : Option (Array α))

def solveWithin : Except (Halt α) ((m : ℕ) × Solution α p.parameters.size m) ×
    Journal α p.parameters.size :=
  match p.function? with
  | .error cause => (.error (.failed cause), .empty)
  | .ok f =>
    let (result, journal) := minimizeWithin trials p.parameters f p.options initial
    (result.map fun solution => ⟨f.count, solution⟩, journal)

/-- A problem is solved with the bound on trial steps that its options give. -/
theorem solve_eq_solveWithin : p.solve initial = p.solveWithin p.options.trialBound initial := rfl

def solveGuarded : Except (Stop α) ((m : ℕ) × Solution α p.parameters.size m) ×
    Watch α p.parameters.size :=
  match p.function? with
  | .error cause => (.error (.halted (.failed cause)), .empty)
  | .ok f =>
    let (result, watch) := minimizeGuarded trials p.parameters f p.options initial
    (result.map fun solution => ⟨f.count, solution⟩, watch)

variable {p trials initial} in
theorem solveGuarded_error_iff {f : ResidualFunction α} {stop : Stop α}
    {w : Watch α p.parameters.size} (hf : p.residuals = some f) :
    p.solveGuarded trials initial = (.error stop, w) ↔
      minimizeGuarded trials p.parameters f p.options initial = (.error stop, w) := by
  unfold solveGuarded function?
  rw [hf]
  dsimp only
  rcases minimizeGuarded trials p.parameters f p.options initial with ⟨_ | _, _⟩ <;>
    simp [Except.map]

theorem solveGuarded_eq :
    (p.solveGuarded trials initial).1 = (p.solveWithin trials initial).1.mapError .halted ∧
      (p.solveGuarded trials initial).2.journal = (p.solveWithin trials initial).2 := by
  unfold solveGuarded solveWithin
  cases p.function? with
  | error cause => exact ⟨rfl, rfl⟩
  | ok f =>
      obtain ⟨hresult, hjournal⟩ := minimizeGuarded_eq trials p.parameters f p.options initial
      refine ⟨?_, hjournal⟩
      dsimp only
      rw [hresult]
      cases (minimizeWithin trials p.parameters f p.options initial).1 <;> rfl

end Problem

end Fits

end LeastSquares
