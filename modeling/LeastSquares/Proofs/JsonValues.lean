import LeastSquares.Json.Record
import LeastSquares.Scalar
import Mathlib.Data.List.Basic

/-!
What is made into a document can be read from it. A value is read back by the function that belongs
to the one that wrote it: counts that fit 64 bits, names, and doubles that are finite and whose
shortest digits are read as themselves; lists of values and values that may be absent follow. The
fields of a record are found by their names, in whatever order they stand and whichever others are
missing.
-/

namespace LeastSquares.Json

variable {β γ : Type}

/-! ### Values -/

theorem toNat?_ofNat {n : ℕ} (h : n < UInt64.size) : (ofNat n).toNat? = some n :=
  if_pos (by simp [Number.ofNat, Number.isInteger, h])

@[simp] theorem toChoice?_ofString (s : String) : (ofString s).toChoice? = some s := rfl

/-- Whether the shortest digits of a double are read as the double. -/
def Number.Exact (x : Float) : Prop := (Number.ofFloat x).toFloat = x

instance (x : Float) : Decidable (Number.Exact x) := inferInstanceAs (Decidable (_ = _))

theorem toFloat?_ofFloat {x : Float} (hfinite : Scalar.isFinite x = true)
    (hexact : Number.Exact x) : (ofFloat x).toFloat? = some x := by
  have hfinite : x.isFinite = true := hfinite
  have hexact : (Number.ofFloat x).toFloat = x := hexact
  simp [ofFloat, toFloat?, hfinite, hexact]

theorem toOption?_ofOption {f : β → Json} {g : Json → Option β} {o : Option β}
    (hnull : g .null = none) (ho : ∀ b ∈ o, g (f b) = some b) :
    (ofOption f o).toOption? g = some o := by
  cases o with
  | none => rfl
  | some b =>
      have hb := ho b rfl
      change (f b).toOption? g = _
      cases hj : f b with
      | null =>
          rw [hj, hnull] at hb
          cases hb
      | _ => rw [toOption?, ← hj, hb, Option.map_some]; nofun

@[simp] theorem toOption?_ofString (s : Option String) :
    (ofOption ofString s).toOption? toString? = some s :=
  toOption?_ofOption rfl fun _ _ => rfl

theorem toOption?_ofFloat_of_isFinite {x : Option Float}
    (hfinite : ∀ v ∈ x, Scalar.isFinite v = true) (hexact : ∀ v ∈ x, Number.Exact v) :
    (ofOption ofFloat x).toOption? toFloat? = some x :=
  toOption?_ofOption rfl fun v hv => toFloat?_ofFloat (hfinite v hv) (hexact v hv)

theorem filter_isFinite_eq_self_iff {x : Option Float} :
    x.filter Scalar.isFinite = x ↔ ∀ v ∈ x, Scalar.isFinite v = true := by
  cases x <;> simp

/-- A number that may be absent is read back if it is finite, and is absent otherwise. -/
theorem toOption?_ofFloat {x : Option Float}
    (hexact : ∀ v ∈ x, Scalar.isFinite v = true → Number.Exact v) :
    (ofOption ofFloat x).toOption? toFloat? = some (x.filter Scalar.isFinite) := by
  cases x with
  | none => rfl
  | some v =>
      rw [Option.filter_some]
      by_cases hv : Scalar.isFinite v = true
      · rw [if_pos hv]
        exact toOption?_ofFloat_of_isFinite (by simpa using hv) (by simpa using hexact v rfl hv)
      · have hnull : ofFloat v = .null := if_neg hv
        rw [if_neg hv, ofOption, hnull]
        rfl

theorem toList?_ofList {f : β → Json} {g : Json → Option γ} {h : β → γ} {bs : List β}
    (hbs : ∀ b ∈ bs, g (f b) = some (h b)) : (ofList f bs).toList? g = some (bs.map h) := by
  induction bs with
  | nil => rfl
  | cons b bs ih =>
      have hrest : (bs.map f).mapM g = some (bs.map h) :=
        ih fun b hb => hbs b (List.mem_cons_of_mem _ hb)
      rw [ofList, toList?, List.map_cons, List.mapM_cons, hbs b List.mem_cons_self, hrest]
      rfl

/-! ### Records -/

theorem unique?_record {fields : List (String × Json)} (hnames : (fields.map Prod.fst).Nodup)
    (name : String) :
    unique? (fields.map fun (name, value) => (some name, value)) name =
      some (fields.lookup name) := by
  induction fields with
  | nil => rfl
  | cons field fields ih =>
      obtain ⟨first, value⟩ := field
      obtain ⟨hfirst, hnames⟩ := List.nodup_cons.1 hnames
      specialize ih hnames
      unfold unique? at ih ⊢
      rw [List.map_cons, List.filter_cons, List.lookup_cons]
      by_cases heq : first = name
      · subst heq
        have hrest : (fields.map fun (name, value) => (some name, value)).filter
            (·.1 == some first) = [] := by
          rw [List.filter_eq_nil_iff]
          intro other hother
          obtain ⟨original, hmem, rfl⟩ := List.mem_map.1 hother
          have hne : original.1 ≠ first := fun h =>
            hfirst (List.mem_map.2 ⟨original, hmem, h⟩)
          simpa using hne
        rw [if_pos (by simp), hrest]
        simp
      · rw [if_neg (by simpa using heq), ih, beq_false_of_ne (Ne.symm heq)]

/-- The fields of a record are found by their names. -/
theorem fields?_record {fields : List (String × Json)} (hnames : (fields.map Prod.fst).Nodup)
    (names : List String) :
    (record fields).fields? names = some ⟨fun name => fields.lookup name, false⟩ := by
  rw [record, fields?, if_pos]
  · simp only [unique?_record hnames]
    rfl
  · simp [unique?_record hnames]

def without (removed : String → Bool) : Json → Json
  | .object fields => .object (fields.filter fun field => !field.1.any removed)
  | j => j

theorem without_none (j : Json) : (j.without fun _ => false) = j := by
  cases j with
  | object fields => simp [without]
  | _ => rfl

theorem without_record (removed : String → Bool) (fields : List (String × Json)) :
    (record fields).without removed = record (fields.filter fun field => !removed field.1) := by
  rw [record, without, record, List.filter_map]
  rfl

theorem lookup_filter_not (removed : String → Bool) (fields : List (String × Json))
    (name : String) :
    (fields.filter fun field => !removed field.1).lookup name =
      if removed name then none else fields.lookup name := by
  induction fields with
  | nil => simp
  | cons field fields ih =>
      obtain ⟨first, value⟩ := field
      rw [List.filter_cons, List.lookup_cons]
      by_cases heq : name = first
      · subst heq
        cases hremoved : removed name <;> simp [hremoved, ih]
      · have hne : (name == first) = false := beq_false_of_ne heq
        cases removed first <;> simp [ih, List.lookup_cons, hne]

/-- Whichever fields are removed, the others are found by their names. -/
theorem fields?_without {fields : List (String × Json)} (hnames : (fields.map Prod.fst).Nodup)
    (removed : String → Bool) (names : List String) :
    ((record fields).without removed).fields? names =
      some ⟨fun name => if removed name then none else fields.lookup name, false⟩ := by
  rw [without_record, fields?_record (hnames.sublist (List.filter_sublist.map _))]
  simp only [lookup_filter_not]

/-- A field with a default is read where it stands, and has its default where it is removed. -/
theorem Fields.withDefault_without {fields : List (String × Json)} {removed : String → Bool}
    {name : String} {decode : Json → Option β} {j : Json} {default value : β}
    (hfield : fields.lookup name = some j) (hvalue : decode j = some value) :
    Fields.withDefault ⟨fun name => if removed name then none else fields.lookup name, false⟩ name
      decode default = some (if removed name then default else value) := by
  unfold withDefault
  dsimp only
  cases removed name <;> simp [hfield, hvalue]

end LeastSquares.Json
