import LeastSquares.Parameter.Json
import LeastSquares.Proofs.DoubleSigns
import LeastSquares.Proofs.JsonText
import LeastSquares.Proofs.JsonValues

/-!
What a saved store is when it is loaded again. Ties are left out on purpose. Apart from them a
parameter comes back as it was, with two exceptions: a value that is not finite is lost, and limits
that are both infinite with the same sign come back as no limits at all. The second exception frees
a parameter that the limits held.
-/

namespace LeastSquares

/-! ### Limits -/

namespace Double

open Float.Model Float.Model.UnpackedFloat

theorem infinite_cases {x : Float} (hnumber : Scalar.isNumber x = true)
    (hinfinite : Scalar.isFinite x = false) :
    unpacked x = .infinity .positive ∨ unpacked x = .infinity .negative := by
  rw [isNumber_iff] at hnumber
  rw [isFinite_iff] at hinfinite
  cases h : unpacked x with
  | infinity s => cases s <;> simp
  | notANumber => exact absurd h hnumber
  | zero s => rw [h] at hinfinite; cases hinfinite
  | finite s m e hm => rw [h] at hinfinite; cases hinfinite

theorem zero_lt_of_infinity {x : Float} (h : unpacked x = .infinity .positive) : 0 < x := by
  rw [lt_iff, h]
  rfl

theorem lt_zero_of_infinity {x : Float} (h : unpacked x = .infinity .negative) : x < 0 := by
  rw [lt_iff, h]
  rfl

theorem not_isFinite_of_infinity {x : Float} {s : Sign} (h : unpacked x = .infinity s) :
    Scalar.isFinite x = false := by
  rw [isFinite_iff, h]
  rfl

theorem lt_infinity {x y : Float} (hx : unpacked x = .infinity .positive)
    (hnumber : Scalar.isNumber y = true) (hy : unpacked y ≠ .infinity .positive) : y < x := by
  rw [isNumber_iff] at hnumber
  rw [lt_iff, hx]
  generalize unpacked y = z at *
  rcases z with ⟨⟨⟩⟩ | _ | _ | ⟨⟨⟩, _⟩
  all_goals first
    | rfl
    | exact absurd rfl hy
    | exact absurd rfl hnumber

theorem negative_infinity_lt {x y : Float} (hx : unpacked x = .infinity .negative)
    (hnumber : Scalar.isNumber y = true) (hy : unpacked y ≠ .infinity .negative) : x < y := by
  rw [isNumber_iff] at hnumber
  rw [lt_iff, hx]
  generalize unpacked y = z at *
  rcases z with ⟨⟨⟩⟩ | _ | _ | ⟨⟨⟩, _⟩
  all_goals first
    | rfl
    | exact absurd rfl hy
    | exact absurd rfl hnumber

end Double

open Double

namespace Bounds

/-- Bounds as they come back: without their infinite limits. -/
def restored (b : Bounds Float) : Bounds Float := ⟨b.finiteLower, b.finiteUpper⟩

def atInfinity (b : Bounds Float) : Bool :=
  b.isDegenerate && b.finiteLower.isNone && b.finiteUpper.isNone

theorem make_eq_ok_iff {lower upper : Option Float} {b : Bounds Float} :
    make lower upper = .ok b ↔ (∀ l ∈ lower, Scalar.isNumber l = true) ∧
      (∀ u ∈ upper, Scalar.isNumber u = true) ∧ (∀ l ∈ lower, ∀ u ∈ upper, ¬ u < l) ∧
      b = ⟨lower, upper⟩ := by
  unfold make
  cases lower <;> cases upper <;> split <;> grind

theorem isDegenerate_of_atInfinity {b : Bounds Float} (h : b.atInfinity = true) :
    b.isDegenerate = true := by
  simp only [atInfinity, Bool.and_eq_true] at h
  exact h.1.1

/-- A lower limit that was set is finite or infinity. -/
theorem lowerLimit_cases {lower l : Float} (h : lowerLimit lower = some l)
    (hnumber : Scalar.isNumber l = true) :
    Scalar.isFinite l = true ∨ unpacked l = .infinity .positive := by
  unfold lowerLimit at h
  split at h
  · cases h
  · next hlimit =>
    cases h
    cases hfinite : Scalar.isFinite lower with
    | true => exact .inl rfl
    | false =>
        refine .inr ((infinite_cases hnumber hfinite).resolve_right fun hnegative => hlimit ?_)
        exact ⟨by rw [hfinite]; rfl, lt_zero_of_infinity hnegative⟩

theorem upperLimit_cases {upper u : Float} (h : upperLimit upper = some u)
    (hnumber : Scalar.isNumber u = true) :
    Scalar.isFinite u = true ∨ unpacked u = .infinity .negative := by
  unfold upperLimit at h
  split at h
  · cases h
  · next hlimit =>
    cases h
    cases hfinite : Scalar.isFinite upper with
    | true => exact .inl rfl
    | false =>
        refine .inr ((infinite_cases hnumber hfinite).resolve_left fun hpositive => hlimit ?_)
        exact ⟨by rw [hfinite]; rfl, zero_lt_of_infinity hpositive⟩

theorem restored_eq_self {b : Bounds Float} (hlower : ∀ l ∈ b.lower, Scalar.isFinite l = true)
    (hupper : ∀ u ∈ b.upper, Scalar.isFinite u = true) : b.restored = b := by
  have hl : b.finiteLower = b.lower := Json.filter_isFinite_eq_self_iff.2 hlower
  have hu : b.finiteUpper = b.upper := Json.filter_isFinite_eq_self_iff.2 hupper
  rw [restored, hl, hu]

/-- What limits can be set: they are finite where they are there, or the ends are both infinity, or
both minus infinity. -/
theorem between_cases {lower upper : Float} {b : Bounds Float} (h : between lower upper = .ok b) :
    b.restored = b ∨ (∃ l, b = ⟨some l, none⟩ ∧ unpacked l = .infinity .positive) ∨
      ∃ u, b = ⟨none, some u⟩ ∧ unpacked u = .infinity .negative := by
  obtain ⟨hl, hu, hordered, rfl⟩ := make_eq_ok_iff.1 h
  have hlower : ∀ l ∈ lowerLimit lower,
      Scalar.isFinite l = true ∨ unpacked l = .infinity .positive :=
    fun l hmem => lowerLimit_cases hmem (hl l hmem)
  have hupper : ∀ u ∈ upperLimit upper,
      Scalar.isFinite u = true ∨ unpacked u = .infinity .negative :=
    fun u hmem => upperLimit_cases hmem (hu u hmem)
  generalize lowerLimit lower = lower at *
  generalize upperLimit upper = upper at *
  have hkept (hl : ∀ l ∈ lower, Scalar.isFinite l = true)
      (hu : ∀ u ∈ upper, Scalar.isFinite u = true) :
      restored ⟨lower, upper⟩ = ⟨lower, upper⟩ := restored_eq_self hl hu
  cases lower with
  | none =>
      cases upper with
      | none => exact .inl rfl
      | some u =>
          rcases hupper u rfl with hfinite | hinfinity
          · exact .inl (hkept (by simp) (by simpa using hfinite))
          · exact .inr (.inr ⟨u, rfl, hinfinity⟩)
  | some l =>
      rcases hlower l rfl with hfinite | hinfinity
      · cases upper with
        | none => exact .inl (hkept (by simpa using hfinite) (by simp))
        | some u =>
            rcases hupper u rfl with hfinite' | hinfinity
            · exact .inl (hkept (by simpa using hfinite) (by simpa using hfinite'))
            · refine absurd (negative_infinity_lt hinfinity (hl l rfl) fun h => ?_)
                (hordered l rfl u rfl)
              rw [not_isFinite_of_infinity h] at hfinite
              cases hfinite
      · cases upper with
        | none => exact .inr (.inl ⟨l, rfl, hinfinity⟩)
        | some u =>
            refine absurd (lt_infinity hinfinity (hu u rfl) fun h => ?_) (hordered l rfl u rfl)
            rcases hupper u rfl with hfinite | hnegative
            · rw [not_isFinite_of_infinity h] at hfinite
              cases hfinite
            · rw [h] at hnegative
              cases hnegative

/-- Limits come back unless they hold the parameter at infinity. -/
theorem restored_of_between {lower upper : Float} {b : Bounds Float}
    (h : between lower upper = .ok b) :
    b.restored = b ∧ b.atInfinity = false ∨
      b.restored = unbounded ∧ b.atInfinity = true := by
  rcases between_cases h with hkept | ⟨l, rfl, hl⟩ | ⟨u, rfl, hu⟩
  · refine .inl ⟨hkept, Bool.eq_false_iff.2 fun hinfinity => ?_⟩
    simp only [atInfinity, Bool.and_eq_true, Option.isNone_iff_eq_none] at hinfinity
    obtain ⟨⟨hdegenerate, hl⟩, hu⟩ := hinfinity
    rw [← hkept, restored, hl, hu] at hdegenerate
    cases hdegenerate
  · refine .inr ⟨?_, ?_⟩
    · simp [restored, finiteLower, finiteUpper, not_isFinite_of_infinity hl, unbounded]
    · simp [atInfinity, isDegenerate, finiteLower, finiteUpper, not_isFinite_of_infinity hl,
        zero_lt_of_infinity hl]
  · refine .inr ⟨?_, ?_⟩
    · simp [restored, finiteLower, finiteUpper, not_isFinite_of_infinity hu, unbounded]
    · simp [atInfinity, isDegenerate, finiteLower, finiteUpper, not_isFinite_of_infinity hu,
        lt_zero_of_infinity hu]

theorem make_restored {lower upper : Float} {b : Bounds Float} (h : between lower upper = .ok b) :
    make b.finiteLower b.finiteUpper = .ok b.restored := by
  obtain ⟨hl, hu, hordered, rfl⟩ := make_eq_ok_iff.1 h
  have hlower : ∀ l ∈ finiteLower ⟨lowerLimit lower, upperLimit upper⟩, l ∈ lowerLimit lower :=
    fun l hl => (Option.filter_eq_some_iff.1 hl).1
  have hupper : ∀ u ∈ finiteUpper ⟨lowerLimit lower, upperLimit upper⟩, u ∈ upperLimit upper :=
    fun u hu => (Option.filter_eq_some_iff.1 hu).1
  exact make_eq_ok_iff.2 ⟨fun l h => hl l (hlower l h), fun u h => hu u (hupper u h),
    fun l h u h' => hordered l (hlower l h) u (hupper u h'), rfl⟩

theorem ofJson?_toJson {lower upper : Float} {b : Bounds Float} (h : between lower upper = .ok b)
    (hlower : ∀ l ∈ b.lower, Scalar.isFinite l = true → Json.Number.Exact l)
    (hupper : ∀ u ∈ b.upper, Scalar.isFinite u = true → Json.Number.Exact u) :
    ofJson? b.toJson = some b.restored := by
  have hl : (Json.ofOption Json.ofFloat b.finiteLower).toOption? Json.toFloat? =
      some b.finiteLower :=
    Json.toOption?_ofFloat_of_isFinite (fun l hl => (Option.filter_eq_some_iff.1 hl).2)
      fun l hl => (Option.filter_eq_some_iff.1 hl).elim (hlower l)
  have hu : (Json.ofOption Json.ofFloat b.finiteUpper).toOption? Json.toFloat? =
      some b.finiteUpper :=
    Json.toOption?_ofFloat_of_isFinite (fun u hu => (Option.filter_eq_some_iff.1 hu).2)
      fun u hu => (Option.filter_eq_some_iff.1 hu).elim (hupper u)
  rw [ofJson?, toJson, Json.fields?_record (by simp)]
  simp [Json.Fields.withDefault, List.lookup_cons, hl, hu, make_restored h, Except.toOption]

end Bounds

/-! ### Parameters -/

theorem Side.ofJson?_name (side : Side) : Side.ofJson? (.ofString side.name) = some side := by
  cases side <;> decide +kernel

namespace Parameter

def restored (p : Parameter Float) : Parameter Float :=
  { p with
    value := p.value.filter Scalar.isFinite
    bounds := p.bounds.restored
    tie := none }

structure Checked (p : Parameter Float) : Prop where
  bounds : ∃ lower upper, Bounds.between lower upper = .ok p.bounds
  step : ∀ h ∈ p.step, Scalar.isFinite h = true
  maxStep : ∀ cap ∈ p.maxStep, Scalar.isFinite cap = true

def numbers (p : Parameter Float) : List (Option Float) :=
  [p.value, p.bounds.lower, p.bounds.upper, p.step, p.maxStep]

theorem ofJson?_toJson {p : Parameter Float} (h : p.Checked)
    (hexact : ∀ x, some x ∈ p.numbers → Scalar.isFinite x = true → Json.Number.Exact x) :
    ofJson? p.toJson = some p.restored := by
  have hnumber {o : Option Float} (ho : o ∈ p.numbers) (x : Float) (hx : x ∈ o) :
      Scalar.isFinite x = true → Json.Number.Exact x := hexact x (Option.mem_def.1 hx ▸ ho)
  have hvalue := Json.toOption?_ofFloat (hnumber (o := p.value) (by simp [numbers]))
  have hstep := Json.toOption?_ofFloat_of_isFinite h.step fun x hx =>
    hnumber (by simp [numbers]) x hx (h.step x hx)
  have hmaxStep := Json.toOption?_ofFloat_of_isFinite h.maxStep fun x hx =>
    hnumber (by simp [numbers]) x hx (h.maxStep x hx)
  obtain ⟨lower, upper, hbetween⟩ := h.bounds
  have hbounds := Bounds.ofJson?_toJson hbetween (hnumber (by simp [numbers]))
    (hnumber (by simp [numbers]))
  rw [ofJson?, toJson, Json.fields?_record (by simp)]
  simp [Json.Fields.withDefault, Json.Fields.required, Json.Fields.optional, List.lookup_cons,
    hvalue, hstep, hmaxStep, hbounds, Json.toBool?, Side.ofJson?_name, restored]

end Parameter

/-! ### Configured stores -/

/-- One call that configures a parameter. -/
inductive Parameter.Change (α : Type) where
  | value (value : α) (fixed : Bool)
  | limits (lower upper : α)
  | step (step maxStep : α) (relative : Bool)
  | side (side : Side)
  | tie (tie : Tie α)
  | noTie
  | name (name : String)

section Configuration

variable {α : Type} [Scalar α]

def Parameter.change (p : Parameter α) : Change α → Except (FitError α) (Parameter α)
  | .value value fixed => .ok (p.setValue value fixed)
  | .limits lower upper => (p.setLimits lower upper).mapError (.parameter <| .bounds ·)
  | .step step maxStep relative => (p.setStep step maxStep relative).mapError .parameter
  | .side side => .ok (p.setSide side)
  | .tie tie => .ok (p.setTie tie)
  | .noTie => .ok p.clearTie
  | .name name => .ok (p.setName name)

theorem Parameter.setLimits_ok {p q : Parameter α} {lower upper : α} :
    p.setLimits lower upper = .ok q ↔
      ∃ bounds, Bounds.between lower upper = .ok bounds ∧ q = { p with bounds } := by
  unfold setLimits
  cases Bounds.between lower upper <;> simp [Except.map, eq_comm]

theorem Parameter.setStep_ok {p q : Parameter α} {step maxStep : α} {relative : Bool} :
    p.setStep step maxStep relative = .ok q ↔
      Scalar.isFinite step = true ∧ ¬ step < 0 ∧ Scalar.isNumber maxStep = true ∧ ¬ maxStep ≤ 0 ∧
        q = { p with
          step := if 0 < step then some step else none
          maxStep := if Scalar.isFinite maxStep then some maxStep else none
          relativeStep := relative } := by
  constructor
  · intro h
    unfold setStep at h
    split at h
    · cases h
    · next hstep =>
      split at h
      · cases h
      · next hmaxStep =>
        simp only [Bool.or_eq_true, Bool.not_eq_true', decide_eq_true_eq, not_or,
          Bool.not_eq_false] at hstep hmaxStep
        exact ⟨hstep.1, hstep.2, hmaxStep.1, hmaxStep.2, (Except.ok.inj h).symm⟩
  · rintro ⟨hfinite, hnonneg, hnumber, hpositive, rfl⟩
    rw [setStep, if_neg (by simp [hfinite, hnonneg]), if_neg (by simp [hnumber, hpositive])]

def Store.configure (s : Store α) (calls : List (ℕ × Parameter.Change α)) :
    Except (FitError α) (Store α) :=
  calls.foldlM (fun s call => s.modify? call.1 (·.change call.2)) s

end Configuration

namespace Parameter

/-- The setters keep what they check. -/
theorem Checked.change {p q : Parameter Float} (h : p.Checked) {c : Change Float}
    (hq : p.change c = .ok q) : q.Checked := by
  cases c with
  | limits lower upper =>
      obtain ⟨bounds, hbounds, rfl⟩ := setLimits_ok.1 (mapError_eq_ok.1 hq)
      exact ⟨⟨lower, upper, hbounds⟩, h.step, h.maxStep⟩
  | step step maxStep relative =>
      obtain ⟨hfinite, -, -, -, rfl⟩ := setStep_ok.1 (mapError_eq_ok.1 hq)
      refine ⟨h.bounds, fun x hx => ?_, fun x hx => ?_⟩
      · obtain ⟨-, hx⟩ := Option.ite_none_right_eq_some.1 hx
        cases hx
        exact hfinite
      · obtain ⟨hcap, hx⟩ := Option.ite_none_right_eq_some.1 hx
        cases hx
        exact hcap
  | _ => cases hq; exact ⟨h.bounds, h.step, h.maxStep⟩

theorem checked_default : Checked {} :=
  ⟨⟨-1 / 0, 1 / 0, by rfl⟩, by simp, by simp⟩

end Parameter

namespace Store

def Checked (s : Store Float) : Prop := ∀ p ∈ s.parameters, p.Checked

theorem checked_ofSize (n : ℕ) : (ofSize n).Checked := by
  intro p hp
  obtain ⟨-, rfl⟩ := Array.mem_replicate.1 hp
  exact Parameter.checked_default

section Modify

variable {s : Store Float} {index : ℕ}

theorem get?_eq_ok {p : Parameter Float} (h : s.parameters[index]? = some p) :
    s.get? index = .ok p := by
  rw [get?, h]

theorem modify?_eq {p : Parameter Float} (h : s.parameters[index]? = some p)
    (change : Parameter Float → Except (FitError Float) (Parameter Float)) :
    s.modify? index change = (change p).map (s.put index) := by
  rw [modify?, get?_eq_ok h]
  change (change p >>= fun q => pure (s.put index q)) = _
  cases change p <;> rfl

theorem modify?_eq_ok {t : Store Float}
    {change : Parameter Float → Except (FitError Float) (Parameter Float)}
    (h : s.modify? index change = .ok t) :
    ∃ p q, s.parameters[index]? = some p ∧ change p = .ok q ∧ t = s.put index q := by
  cases hp : s.parameters[index]? with
  | none =>
      rw [modify?, get?, hp] at h
      cases h
  | some p =>
      rw [modify?_eq hp] at h
      cases hq : change p with
      | error cause =>
          rw [hq] at h
          cases h
      | ok q =>
          rw [hq] at h
          cases h
          exact ⟨p, q, rfl, hq, rfl⟩

end Modify

theorem Checked.modify? {s t : Store Float} (hs : s.Checked) {index : ℕ}
    {c : Parameter.Change Float} (h : s.modify? index (·.change c) = .ok t) : t.Checked := by
  obtain ⟨p, q, hp, hq, rfl⟩ := modify?_eq_ok h
  intro r hr
  rcases Array.mem_or_eq_of_mem_setIfInBounds hr with hr | rfl
  · exact hs r hr
  · exact (hs p (Array.mem_of_getElem? hp)).change hq

theorem Checked.configure {s t : Store Float} (hs : s.Checked)
    {calls : List (ℕ × Parameter.Change Float)} (h : s.configure calls = .ok t) : t.Checked := by
  induction calls generalizing s with
  | nil => cases h; exact hs
  | cons call calls ih =>
      rw [Store.configure, List.foldlM_cons] at h
      cases hs' : s.modify? call.1 (·.change call.2) with
      | error cause =>
          rw [hs'] at h
          cases h
      | ok s' =>
          rw [hs'] at h
          exact ih (hs.modify? hs') h

def restored (s : Store Float) : Store Float := ⟨s.parameters.map Parameter.restored⟩

/-- Every number of a store that can be written is read as itself. -/
def Exact (s : Store Float) : Prop :=
  ∀ p ∈ s.parameters, ∀ x, some x ∈ p.numbers → Scalar.isFinite x = true → Json.Number.Exact x

theorem load_save_eq {s : Store Float} (hs : s.Checked) (hexact : s.Exact) :
    load s.save = .ok s.restored := by
  have hparameters : (Json.ofList Parameter.toJson s.parameters.toList).toList? Parameter.ofJson? =
      some (s.parameters.toList.map Parameter.restored) :=
    Json.toList?_ofList fun p hp =>
      Parameter.ofJson?_toJson (hs p (by simpa using hp)) (hexact p (by simpa using hp))
  have hstore : ofJson? s.toJson = some s.restored := by
    rw [ofJson?, toJson, Json.fields?_record (by simp)]
    simp [Json.Fields.required, List.lookup_cons, hparameters, restored, ← Array.toList_map]
  rw [load, save, Json.read?_pretty, Option.bind_some, hstore]

end Store

/-- How a saved parameter `p` comes back. -/
structure Parameter.ComesBackAs (p q : Parameter Float) : Prop where
  name : q.name = p.name
  fixed : q.fixed = p.fixed
  step : q.step = p.step
  maxStep : q.maxStep = p.maxStep
  relativeStep : q.relativeStep = p.relativeStep
  side : q.side = p.side
  tie : q.tie = none
  value : q.value = p.value.filter Scalar.isFinite
  value_eq_iff : q.value = p.value ↔ ∀ v ∈ p.value, Scalar.isFinite v = true
  bounds : q.bounds = if p.bounds.atInfinity then Bounds.unbounded else p.bounds
  bounds_eq_iff : q.bounds = p.bounds ↔ p.bounds.atInfinity = false
  /-- Limits at infinity hold a parameter, and it comes back free unless it was fixed as well. -/
  isFixed_eq_iff : q.isFixed = p.isFixed ↔ p.fixed = true ∨ p.bounds.atInfinity = false

theorem Parameter.Checked.comesBackAs {p : Parameter Float} (h : p.Checked) :
    p.ComesBackAs p.restored := by
  obtain ⟨lower, upper, hbetween⟩ := h.bounds
  have hbounds : p.restored.bounds = p.bounds.restored := rfl
  have hfixed : p.restored.isFixed = (p.fixed || p.bounds.restored.isDegenerate) := rfl
  have hwas : p.isFixed = (p.fixed || p.bounds.isDegenerate) := rfl
  refine ⟨rfl, rfl, rfl, rfl, rfl, rfl, rfl, rfl, Json.filter_isFinite_eq_self_iff, ?_, ?_, ?_⟩
  all_goals
    rcases Bounds.restored_of_between hbetween with ⟨hkept, hinfinity⟩ | ⟨hlost, hinfinity⟩
  · rw [hbounds, hkept, hinfinity]
    rfl
  · rw [hbounds, hlost, hinfinity]
    rfl
  · simp [hbounds, hkept, hinfinity]
  · have hdegenerate := Bounds.isDegenerate_of_atInfinity hinfinity
    rw [hbounds, hlost, hinfinity]
    refine ⟨fun heq => ?_, fun h => by cases h⟩
    rw [← heq] at hdegenerate
    cases hdegenerate
  · simp [hfixed, hwas, hkept, hinfinity]
  · have hdegenerate := Bounds.isDegenerate_of_atInfinity hinfinity
    have hunbounded : (Bounds.unbounded : Bounds Float).isDegenerate = false := rfl
    rw [hfixed, hwas, hlost, hinfinity, hdegenerate, hunbounded]
    cases p.fixed <;> simp

/-- Every store that its setters can make is saved and loaded again, with all its parameters. One
comes back without its tie, without its value if that is not finite, and without limits if they are
at infinity; nothing else about it changes. -/
theorem load_save {n : ℕ} {calls : List (ℕ × Parameter.Change Float)} {s : Store Float}
    (hs : (Store.ofSize n).configure calls = .ok s) (hexact : s.Exact) :
    ∃ t, Store.load s.save = .ok t ∧ ∃ hsize : s.size = t.size,
      ∀ i : Fin s.size, (s.get i).ComesBackAs (t.get (i.cast hsize)) := by
  have hchecked := (Store.checked_ofSize n).configure hs
  have hsize : s.size = s.restored.size := (Array.size_map ..).symm
  refine ⟨s.restored, Store.load_save_eq hchecked hexact, hsize, fun i => ?_⟩
  have hget : s.restored.get (i.cast hsize) = (s.get i).restored := Array.getElem_map ..
  rw [hget]
  exact (hchecked _ (Array.getElem_mem _)).comesBackAs

/-- A parameter with a name and a value between limits, and one that is held at infinity. -/
def configured : Store Float :=
  ⟨#[{ name := some "width", value := some 0.5, bounds := ⟨some 0, some 1⟩ },
    { bounds := ⟨some (1 / 0), none⟩ }]⟩

theorem load_save_configured :
    (Store.ofSize 2).configure [(0, .name "width"), (0, .value 0.5 false), (0, .limits 0 1),
      (1, .limits (1 / 0) (1 / 0))] = .ok configured ∧ configured.Exact ∧
    ∃ t, Store.load configured.save = .ok t ∧ ∃ hsize : configured.size = t.size,
      ∀ i : Fin configured.size,
        (configured.get i).ComesBackAs (t.get (i.cast hsize)) := by
  have hs : (Store.ofSize 2).configure [(0, .name "width"), (0, .value 0.5 false),
      (0, .limits 0 1), (1, .limits (1 / 0) (1 / 0))] = .ok configured := by rfl
  have hexact : configured.Exact := by
    intro p hp x hx hfinite
    simp only [configured, List.mem_toArray, List.mem_cons, List.not_mem_nil, or_false] at hp
    rcases hp with rfl | rfl
    · simp only [Parameter.numbers, List.mem_cons, Option.some.injEq, reduceCtorEq,
        List.not_mem_nil, or_false] at hx
      rcases hx with rfl | rfl | rfl <;> decide +kernel
    · simp only [Parameter.numbers, List.mem_cons, Option.some.injEq, reduceCtorEq,
        List.not_mem_nil, or_false, false_or] at hx
      subst hx
      cases hfinite
  exact ⟨hs, hexact, load_save hs hexact⟩

/-- Limits at infinity hold a parameter, and a saved store loses them. -/
theorem exists_freed_parameter :
    ∃ s t : Store Float, (Store.ofSize 1).configure [(0, .limits (1 / 0) (1 / 0))] = .ok s ∧
      s.Exact ∧ Store.load s.save = .ok t ∧
      (s.get? 0).map Parameter.isFixed = .ok true ∧
      (t.get? 0).map Parameter.isFixed = .ok false := by
  have hs : (Store.ofSize 1).configure [(0, .limits (1 / 0) (1 / 0))] =
      .ok (⟨#[{ bounds := ⟨some (1 / 0), none⟩ }]⟩ : Store Float) := by rfl
  have hexact : Store.Exact ⟨#[{ bounds := ⟨some (1 / 0), none⟩ }]⟩ := by
    intro p hp x hx hfinite
    simp only [List.mem_toArray, List.mem_singleton] at hp
    subst hp
    simp only [Parameter.numbers, List.mem_cons, Option.some.injEq, reduceCtorEq,
      List.not_mem_nil, or_false, false_or] at hx
    subst hx
    cases hfinite
  have hload := Store.load_save_eq ((Store.checked_ofSize 1).configure hs) hexact
  refine ⟨_, _, hs, hexact, hload, ?_, ?_⟩
  · rfl
  · rw [Store.restored, List.map_toArray]
    rfl

end LeastSquares
