import LeastSquares.Proofs.SavedStores

/-!
What calls can make of a store. The setters work on a parameter in place, so they are written here
once more as sequences of checks and writes. A call that fails has written nothing, since every
check stands before the first write; one that succeeds changes the fields it names and no others.

Limits are checked wherever they come from, so in every store that calls can make they are numbers
in order. The steps of a parameter are checked by their setter alone: a text that is loaded may
bring any finite number, and such numbers are the only ones that are not positive.
-/

namespace LeastSquares

variable {α : Type}

/-! ### Writing in place -/

/-- A computation that changes its state in place: what it wrote stays written when it fails. -/
abbrev InPlace (σ ε β : Type) := ExceptT ε (StateM σ) β

namespace InPlace

variable {σ ε β γ : Type}

def resume (x : InPlace σ ε β) (s : σ) : Except ε β × σ := StateT.run (ExceptT.run x) s

def check (x : Except ε β) : InPlace σ ε β := ExceptT.mk (pure x)

/-- Whether a computation replaces the state by a result, and leaves it where there is none. -/
def Replaces (x : InPlace σ ε Unit) (s : σ) (result : Except ε σ) : Prop :=
  x.resume s = match result with
    | .ok t => (.ok (), t)
    | .error cause => (.error cause, s)

namespace Replaces

variable {x : InPlace σ ε Unit} {s t : σ} {result : Except ε σ} (h : x.Replaces s result)

include h

/-- A computation that fails leaves its state as it was. -/
theorem of_error {cause : ε} (hx : x.resume s = (.error cause, t)) : t = s := by
  have heq := hx.symm.trans h
  cases result with
  | ok => cases heq
  | error => exact congrArg Prod.snd heq

theorem of_ok {u : Unit} (hx : x.resume s = (.ok u, t)) : result = .ok t := by
  have heq := hx.symm.trans h
  cases result with
  | ok => exact congrArg Except.ok (congrArg Prod.snd heq).symm
  | error => cases heq

end Replaces

theorem resume_bind (x : InPlace σ ε β) (f : β → InPlace σ ε γ) (s : σ) :
    resume (x >>= f) s =
      match resume x s with
      | (.ok b, t) => resume (f b) t
      | (.error cause, t) => (.error cause, t) := by
  change StateT.run (ExceptT.run (x >>= f)) s = _
  rw [ExceptT.run_bind, StateT.run_bind]
  unfold resume
  generalize StateT.run (ExceptT.run x) s = result
  rcases result with ⟨_ | _, _⟩ <;> rfl

@[simp] theorem resume_check (x : Except ε β) (s : σ) :
    resume (check x : InPlace σ ε β) s = (x, s) := rfl

@[simp] theorem resume_get (s : σ) :
    resume (getThe σ : InPlace σ ε σ) s = (.ok s, s) := rfl

@[simp] theorem resume_modify (f : σ → σ) (s : σ) :
    resume (modify f : InPlace σ ε PUnit) s = (.ok (), f s) := rfl

end InPlace

namespace Parameter

section Setters

variable [Scalar α]

/-- The setters, check by check and field by field. -/
def write : Change α → InPlace (Parameter α) (FitError α) Unit
  | .value value fixed => do
    modify fun p => { p with value := some value }
    modify fun p => { p with fixed }
  | .limits lower upper => do
    let bounds ← InPlace.check <| (Bounds.between lower upper).mapError (.parameter <| .bounds ·)
    modify fun p => { p with bounds }
  | .step step maxStep relative => do
    if !Scalar.isFinite step || step < 0 then throw (.parameter (.invalidStep step))
    if !Scalar.isNumber maxStep || maxStep ≤ 0 then throw (.parameter (.invalidMaxStep maxStep))
    modify fun p => { p with step := if 0 < step then some step else none }
    modify fun p => { p with maxStep := if Scalar.isFinite maxStep then some maxStep else none }
    modify fun p => { p with relativeStep := relative }
  | .side side => modify fun p => { p with side }
  | .tie tie => modify fun p => { p with tie := some tie }
  | .noTie => modify fun p => { p with tie := none }
  | .name name => modify fun p => { p with name := some name }

theorem write_replaces (p : Parameter α) (c : Change α) : (write c).Replaces p (p.change c) := by
  cases c with
  | limits lower upper =>
      unfold InPlace.Replaces write change Parameter.setLimits
      dsimp only
      cases Bounds.between lower upper <;> rfl
  | step step maxStep relative =>
      unfold InPlace.Replaces write change Parameter.setStep
      dsimp only
      split
      · rfl
      · split <;> rfl
  | _ => rfl

end Setters

/-! ### What a setter leaves alone -/

inductive Field where
  | name
  | value
  | fixed
  | bounds
  | tie
  | step
  | maxStep
  | relativeStep
  | side
  deriving DecidableEq

def SameAt (p q : Parameter α) : Field → Prop
  | .name => q.name = p.name
  | .value => q.value = p.value
  | .fixed => q.fixed = p.fixed
  | .bounds => q.bounds = p.bounds
  | .tie => q.tie = p.tie
  | .step => q.step = p.step
  | .maxStep => q.maxStep = p.maxStep
  | .relativeStep => q.relativeStep = p.relativeStep
  | .side => q.side = p.side

def Change.fields : Change α → List Field
  | .value .. => [.value, .fixed]
  | .limits .. => [.bounds]
  | .step .. => [.step, .maxStep, .relativeStep]
  | .side _ => [.side]
  | .tie _ | .noTie => [.tie]
  | .name _ => [.name]

/-- A setter changes no field that it does not name. -/
theorem sameAt_of_change [Scalar α] {p q : Parameter α} {c : Change α} (h : p.change c = .ok q)
    {f : Field} (hf : f ∉ c.fields) : p.SameAt q f := by
  cases c with
  | limits lower upper =>
      obtain ⟨bounds, -, rfl⟩ := setLimits_ok.1 (mapError_eq_ok.1 h)
      cases f <;> first | rfl | exact absurd (List.mem_singleton_self _) hf
  | step step maxStep relative =>
      obtain ⟨-, -, -, -, rfl⟩ := setStep_ok.1 (mapError_eq_ok.1 h)
      cases f <;> first | rfl | simp [Change.fields] at hf
  | _ =>
      cases h
      cases f <;> first | rfl | simp [Change.fields] at hf

end Parameter

namespace Store

/-! ### What a call leaves alone -/

/-- A call on a store: a setter of the parameter at an index, or a text that is loaded in its
place. -/
inductive Call where
  | change (index : ℕ) (c : Parameter.Change Float)
  | load (text : String)

namespace Call

def result (s : Store Float) : Call → Except (FitError Float) (Store Float)
  | .change index c => s.modify? index (·.change c)
  | .load text => Store.load text

/-- The call in place. What a setter wrote into its parameter stands in the store, whether it failed
or not. -/
def write : Call → InPlace (Store Float) (FitError Float) Unit
  | .change index c => do
    let s ← getThe (Store Float)
    let p ← InPlace.check (s.get? index)
    let (result, q) := (Parameter.write c).resume p
    modify (·.put index q)
    InPlace.check result
  | .load text => do
    let s ← InPlace.check (Store.load text)
    set s

theorem put_self {s : Store Float} {index : ℕ} {p : Parameter Float}
    (h : s.parameters[index]? = some p) : s.put index p = s := by
  refine congrArg Store.mk (Array.ext_getElem? fun i => ?_)
  rw [Array.getElem?_setIfInBounds]
  split
  · next heq =>
    subst heq
    rw [h, if_pos (Array.getElem?_eq_some_iff.1 h).1]
  · rfl

/-- What a setter does to its parameter, it does to the store. -/
theorem resume_change {s : Store Float} {index : ℕ} {p : Parameter Float}
    (h : s.parameters[index]? = some p) (c : Parameter.Change Float) :
    (change index c).write.resume s =
      (((Parameter.write c).resume p).1, s.put index ((Parameter.write c).resume p).2) := by
  unfold write
  simp only [InPlace.resume_bind, InPlace.resume_get, InPlace.resume_check, get?_eq_ok h,
    InPlace.resume_modify]

/-- A call has written everything or nothing. -/
theorem write_replaces (s : Store Float) (call : Call) : call.write.Replaces s (call.result s) := by
  cases call with
  | change index c =>
      cases hp : s.parameters[index]? with
      | none =>
          -- an index out of range fails before anything is written
          have hget : s.get? index = .error (.parameterIndex index s.size) := by rw [get?, hp]
          unfold InPlace.Replaces result modify? write
          simp only [InPlace.resume_bind, InPlace.resume_get, InPlace.resume_check, hget]
          rfl
      | some p =>
          have hwrite : (Parameter.write c).resume p = _ := Parameter.write_replaces p c
          unfold InPlace.Replaces
          rw [resume_change hp, hwrite, result, modify?_eq hp]
          cases p.change c with
          | error cause => exact Prod.ext rfl (put_self hp)
          | ok q => rfl
  | load text =>
      unfold InPlace.Replaces result write
      dsimp only
      cases Store.load text <;> rfl

end Call

end Store

/-! ### Numbers that are read -/

namespace Json

theorem isFinite_of_toFloat? {j : Json} {x : Float} (h : j.toFloat? = some x) :
    Scalar.isFinite x = true := by
  cases j with
  | number n =>
      obtain ⟨hfinite, hx⟩ := Option.ite_none_right_eq_some.1 h
      cases hx
      exact hfinite
  | _ => cases h

theorem Fields.optional_eq_some {fields : Fields} {name : String} {β : Type}
    {decode : Json → Option β} {b : β} (h : fields.optional name decode = some (some b)) :
    ∃ j, decode j = some b := by
  unfold Fields.optional at h
  split at h
  · next j _ =>
    refine ⟨j, ?_⟩
    cases j <;> simp_all [toOption?]
  · split at h <;> cases h

theorem mem_of_mapM {β γ : Type} {f : β → Option γ} {bs : List β} {cs : List γ}
    (h : bs.mapM f = some cs) {c : γ} (hc : c ∈ cs) : ∃ b ∈ bs, f b = some c := by
  induction bs generalizing cs with
  | nil =>
      cases h
      cases hc
  | cons b bs ih =>
      simp only [List.mapM_cons, Option.bind_eq_bind, Option.bind_eq_some_iff, Option.pure_def,
        Option.some.injEq] at h
      obtain ⟨d, hd, ds, hds, rfl⟩ := h
      rcases List.mem_cons.1 hc with rfl | hc
      · exact ⟨b, List.mem_cons_self, hd⟩
      · obtain ⟨b', hb', heq⟩ := ih hds hc
        exact ⟨b', List.mem_cons_of_mem _ hb', heq⟩

end Json

/-! ### Limits in order -/

namespace Double

open Float.Model Float.Model.UnpackedFloat

theorem unpacked_one_div_zero : unpacked (1 / 0) = .infinity .positive := by rfl

theorem unpacked_neg_one_div_zero : unpacked (-1 / 0) = .infinity .negative := by rfl

theorem isNumber_of_infinity {x : Float} {s : Sign} (h : unpacked x = .infinity s) :
    Scalar.isNumber x = true := by
  rw [isNumber_iff, h]
  exact nofun

theorem not_lt_negative_infinity {x : Float} (hx : unpacked x = .infinity .negative) (y : Float) :
    ¬ y < x := by
  rw [lt_iff, hx]
  rcases unpacked y with ⟨⟨⟩⟩ | _ | ⟨⟨⟩⟩ | ⟨⟨⟩, _⟩
  all_goals exact Bool.false_ne_true

end Double

namespace Bounds

def least (b : Bounds Float) : Float := b.lower.getD (-1 / 0)

def greatest (b : Bounds Float) : Float := b.upper.getD (1 / 0)

structure Ordered (b : Bounds Float) : Prop where
  least : Scalar.isNumber b.least = true
  greatest : Scalar.isNumber b.greatest = true
  le : b.least ≤ b.greatest

theorem ordered_of_make {lower upper : Option Float} {b : Bounds Float}
    (h : make lower upper = .ok b) : b.Ordered := by
  obtain ⟨hlower, hupper, hordered, rfl⟩ := make_eq_ok_iff.1 h
  have hleast : Scalar.isNumber (least ⟨lower, upper⟩) = true := by
    cases lower with
    | none => exact Double.isNumber_of_infinity Double.unpacked_neg_one_div_zero
    | some l => exact hlower l rfl
  have hgreatest : Scalar.isNumber (greatest ⟨lower, upper⟩) = true := by
    cases upper with
    | none => exact Double.isNumber_of_infinity Double.unpacked_one_div_zero
    | some u => exact hupper u rfl
  refine ⟨hleast, hgreatest, Double.le_of_not_lt hgreatest hleast ?_⟩
  cases lower with
  | none => exact Double.not_lt_negative_infinity Double.unpacked_neg_one_div_zero _
  | some l =>
      cases upper with
      | none => exact Double.not_lt_of_infinity Double.unpacked_one_div_zero _
      | some u => exact hordered l rfl u rfl

theorem ordered_unbounded : (unbounded : Bounds Float).Ordered := by
  have hmake : make (none : Option Float) none = .ok unbounded := rfl
  exact ordered_of_make hmake

theorem ordered_of_ofJson? {j : Json} {b : Bounds Float} (h : ofJson? j = some b) : b.Ordered := by
  simp only [ofJson?, Option.bind_eq_bind, Option.bind_eq_some_iff] at h
  obtain ⟨fields, -, lower, -, upper, -, h⟩ := h
  cases hmake : make lower upper with
  | error cause =>
      rw [hmake] at h
      cases h
  | ok made =>
      rw [hmake] at h
      cases h
      exact ordered_of_make hmake

end Bounds

/-! ### What calls can make of a parameter -/

namespace Parameter

/-- What a text that is loaded makes sure of. -/
structure Read (p : Parameter Float) : Prop where
  bounds : p.bounds.Ordered
  step : ∀ h ∈ p.step, Scalar.isFinite h = true
  maxStep : ∀ h ∈ p.maxStep, Scalar.isFinite h = true

theorem read_of_ofJson? {j : Json} {p : Parameter Float} (h : ofJson? j = some p) : p.Read := by
  simp only [ofJson?, Option.bind_eq_bind, Option.bind_eq_some_iff, Option.pure_def,
    Option.some.injEq] at h
  obtain ⟨fields, -, name, -, value, -, fixed, -, bounds, hbounds, step, hstep, maxStep, hmaxStep,
    relativeStep, -, side, -, rfl⟩ := h
  refine ⟨?_, fun x hx => ?_, fun x hx => ?_⟩
  · change bounds.Ordered
    unfold Json.Fields.withDefault at hbounds
    split at hbounds
    · exact Bounds.ordered_of_ofJson? hbounds
    · cases hbounds
      exact Bounds.ordered_unbounded
  · obtain rfl : step = some x := hx
    obtain ⟨j, hj⟩ := Json.Fields.optional_eq_some hstep
    exact Json.isFinite_of_toFloat? hj
  · obtain rfl : maxStep = some x := hx
    obtain ⟨j, hj⟩ := Json.Fields.optional_eq_some hmaxStep
    exact Json.isFinite_of_toFloat? hj

/-- A size that is finite where it is there, and positive unless a loaded parameter brings it. -/
def Traced (loaded : Parameter Float → Prop) (size : Parameter Float → Option Float)
    (p : Parameter Float) : Prop :=
  ∀ h ∈ size p, Scalar.isFinite h = true ∧ (0 < h ∨ ∃ q, loaded q ∧ size q = some h)

/-- What the setters and the loader make sure of together. -/
structure Sound (loaded : Parameter Float → Prop) (p : Parameter Float) : Prop where
  bounds : p.bounds.Ordered
  step : p.Traced loaded Parameter.step
  maxStep : p.Traced loaded Parameter.maxStep

variable {loaded : Parameter Float → Prop} {p q : Parameter Float}

theorem sound_default : Sound loaded {} :=
  ⟨Bounds.ordered_unbounded, by simp [Traced], by simp [Traced]⟩

theorem Read.sound (h : p.Read) (hp : loaded p) : p.Sound loaded :=
  ⟨h.bounds, fun x hx => ⟨h.step x hx, .inr ⟨p, hp, hx⟩⟩,
    fun x hx => ⟨h.maxStep x hx, .inr ⟨p, hp, hx⟩⟩⟩

/-- What a setter writes into a size is finite and positive. -/
theorem Sound.change (h : p.Sound loaded) {c : Change Float} (hq : p.change c = .ok q) :
    q.Sound loaded := by
  cases c with
  | limits lower upper =>
      obtain ⟨bounds, hbounds, rfl⟩ := setLimits_ok.1 (mapError_eq_ok.1 hq)
      exact ⟨Bounds.ordered_of_make hbounds, h.step, h.maxStep⟩
  | step step maxStep relative =>
      obtain ⟨hfinite, -, hnumber, hmaxStep, rfl⟩ := setStep_ok.1 (mapError_eq_ok.1 hq)
      refine ⟨h.bounds, fun x hx => ?_, fun x hx => ?_⟩
      · obtain ⟨hpos, hx⟩ := Option.ite_none_right_eq_some.1 hx
        cases hx
        exact ⟨hfinite, .inl hpos⟩
      · obtain ⟨hcap, hx⟩ := Option.ite_none_right_eq_some.1 hx
        cases hx
        -- a cap that is not at most zero is above it, being a number
        refine ⟨hcap, .inl (by_contra fun hpos => hmaxStep ?_)⟩
        exact Double.le_of_not_lt (by decide) hnumber hpos
  | _ => cases hq; exact ⟨h.bounds, h.step, h.maxStep⟩

end Parameter

namespace Store

/-- The store after calls, one after the other, whether they fail or not. -/
def after (s : Store Float) (calls : List Call) : Store Float :=
  calls.foldl (fun s call => (call.write.resume s).2) s

/-- Whether a text that is loaded among the calls has a parameter at an index. -/
def Call.Loads (calls : List Call) (i : ℕ) (p : Parameter Float) : Prop :=
  ∃ text s, .load text ∈ calls ∧ Store.load text = .ok s ∧ s.parameters[i]? = some p

def Sound (calls : List Call) (s : Store Float) : Prop :=
  ∀ (i : ℕ) (p : Parameter Float), s.parameters[i]? = some p → p.Sound (Call.Loads calls i)

variable {s t : Store Float} {calls : List Call}

theorem read_of_load {text : String} (h : Store.load text = .ok s) {p : Parameter Float}
    (hp : p ∈ s.parameters) : p.Read := by
  unfold load at h
  split at h
  · next read hread =>
    cases h
    simp only [Option.bind_eq_some_iff, ofJson?, Option.bind_eq_bind, Option.pure_def,
      Option.some.injEq, Json.Fields.required] at hread
    obtain ⟨_, -, fields, -, parameters, ⟨j, -, hj⟩, rfl⟩ := hread
    cases j with
    | array items =>
        obtain ⟨item, -, hitem⟩ := Json.mem_of_mapM hj (List.mem_toArray.1 hp)
        exact Parameter.read_of_ofJson? hitem
    | _ => cases hj
  · cases h

theorem sound_ofSize (n : ℕ) : (ofSize n).Sound calls := by
  intro i p hp
  obtain ⟨-, rfl⟩ := Array.mem_replicate.1 (Array.mem_of_getElem? hp)
  exact Parameter.sound_default

theorem Sound.result (hs : s.Sound calls) {call : Call} (hcall : call ∈ calls)
    (h : call.result s = .ok t) : t.Sound calls := by
  intro i q hq
  cases call with
  | change index c =>
      obtain ⟨p, r, hp, hr, rfl⟩ := modify?_eq_ok h
      change (s.parameters.setIfInBounds index r)[i]? = some q at hq
      rw [Array.getElem?_setIfInBounds] at hq
      split at hq
      · next heq =>
        subst heq
        obtain ⟨-, heq⟩ := Option.ite_none_right_eq_some.1 hq
        cases heq
        exact (hs index p hp).change hr
      · exact hs i q hq
  | load text =>
      exact (read_of_load h (Array.mem_of_getElem? hq)).sound ⟨text, t, hcall, h, hq⟩

theorem Sound.resume (hs : s.Sound calls) {call : Call} (hcall : call ∈ calls) :
    (call.write.resume s).2.Sound calls := by
  have hwrite : call.write.resume s = _ := call.write_replaces s
  rw [hwrite]
  cases hresult : call.result s with
  | error => exact hs
  | ok t => exact hs.result hcall hresult

/-- Every store that calls can make, the failed ones included. -/
theorem Sound.after (hs : s.Sound calls) {more : List Call} (hmore : more ⊆ calls) :
    (s.after more).Sound calls := by
  -- `calls` stays, so that a step may come from any text that is loaded, early or late
  induction more generalizing s with
  | nil => exact hs
  | cons call more ih =>
      have hcall : (call.write.resume s).2.Sound calls := hs.resume (hmore List.mem_cons_self)
      exact ih hcall fun _ h => hmore (List.mem_cons_of_mem _ h)

/-- What a setter of the parameter at an index makes of a store. -/
structure ChangedAt (s t : Store Float) (index : ℕ) (c : Parameter.Change Float) : Prop where
  size : t.size = s.size
  others : ∀ i ≠ index, t.parameters[i]? = s.parameters[i]?
  changed : ∃ p q, s.parameters[index]? = some p ∧ t.parameters[index]? = some q ∧
    p.change c = .ok q ∧ ∀ f ∉ c.fields, p.SameAt q f

theorem changedAt_of_modify? {index : ℕ} {c : Parameter.Change Float}
    (h : s.modify? index (·.change c) = .ok t) : s.ChangedAt t index c := by
  obtain ⟨p, q, hp, hq, rfl⟩ := modify?_eq_ok h
  refine ⟨Array.size_setIfInBounds, fun i hi => ?_, p, q, hp, ?_, hq, fun f hf =>
    Parameter.sameAt_of_change hq hf⟩
  · exact Array.getElem?_setIfInBounds_ne hi.symm
  · exact Array.getElem?_setIfInBounds_self_of_lt (Array.getElem?_eq_some_iff.1 hp).1

end Store

/-- Every parameter that calls can make has limits that are numbers in order, and steps that are
finite and, unless a text that was loaded brings them for this parameter, positive. A call that
fails leaves the store as it was. A setter that succeeds changes the parameter it is called on, and
there only the fields that it names. -/
theorem store_calls (n : ℕ) (calls : List Store.Call) :
    ((Store.ofSize n).after calls).Sound calls ∧
      (∀ (call : Store.Call) (s t : Store Float) cause,
        call.write.resume s = (.error cause, t) → t = s) ∧
      ∀ index c (s t : Store Float), (Store.Call.change index c).write.resume s = (.ok (), t) →
        s.ChangedAt t index c := by
  refine ⟨(Store.sound_ofSize n).after (List.Subset.refl _), fun call s t cause h => ?_,
    fun index c s t h => ?_⟩
  · exact (call.write_replaces s).of_error h
  · exact Store.changedAt_of_modify? (((Store.Call.change index c).write_replaces s).of_ok h)

/-- A saved parameter with a step and a cap below zero. -/
def negativeSteps : String :=
  "\x7b\"params\":[\x7b\"name\":null,\"value\":null,\"fixed\":false,\"step\":-0.5," ++
    "\"max_step\":-0.5,\"relative_step\":false\x7d]\x7d"

/-- A text that is loaded brings steps that no setter admits. -/
theorem exists_negative_steps :
    ∃ p ∈ ((Store.ofSize 1).after [.load negativeSteps]).parameters.toList,
      (∃ h ∈ p.step, ¬ 0 < h) ∧ ∃ h ∈ p.maxStep, ¬ 0 < h := by
  decide +kernel

end LeastSquares
