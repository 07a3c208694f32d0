import LeastSquares.Options.Json
import LeastSquares.Proofs.JsonText
import LeastSquares.Proofs.JsonValues
import LeastSquares.Proofs.Runs

/-!
What saved options are when they are loaded again. A number that is not finite is written as null,
which only an option that may be absent is read from, and as its absence. Options that pass their
check have no such number, so they come back as they were. An option that is missing from the text
has its default, whichever others are missing, and those that are there are read as before.
-/

namespace LeastSquares

theorem NormMethod.ofJson?_name (m : NormMethod) : ofJson? (.ofString m.name) = some m := by
  cases m <;> decide +kernel

theorem JacobianChoice.ofJson?_name (c : JacobianChoice) : ofJson? (.ofString c.name) = some c := by
  cases c <;> decide +kernel

namespace Options

def numbers (o : Options Float) : List Float :=
  [o.ftol, o.xtol, o.gtol, o.damp, o.factor, o.rankTolerance] ++ o.relativeError.toList ++
    o.scale.getD []

/-- Every number of the options is read as itself. -/
def Exact (o : Options Float) : Prop := ∀ x ∈ o.numbers, Json.Number.Exact x

/-- Options with the defaults of those whose field names `removed` has. -/
def reset {α : Type} [Scalar α] (removed : String → Bool) (o : Options α) : Options α :=
  let d : Options α := default
  { ftol := if removed "ftol" then d.ftol else o.ftol
    xtol := if removed "xtol" then d.xtol else o.xtol
    gtol := if removed "gtol" then d.gtol else o.gtol
    damp := if removed "damp" then d.damp else o.damp
    factor := if removed "factor" then d.factor else o.factor
    maxIterations := if removed "max_iterations" then d.maxIterations else o.maxIterations
    maxEvaluations := if removed "max_evaluations" then d.maxEvaluations else o.maxEvaluations
    relativeError := if removed "epsfcn" then d.relativeError else o.relativeError
    rankTolerance := if removed "covtol" then d.rankTolerance else o.rankTolerance
    scale := if removed "diag" then d.scale else o.scale
    finiteCheck := if removed "finite_check" then d.finiteCheck else o.finiteCheck
    norm := if removed "norm" then d.norm else o.norm
    jacobian := if removed "diff_method" then d.jacobian else o.jacobian }

theorem InRange.isFinite {o : Options Float} (h : o.InRange) :
    ∀ x ∈ o.numbers, Scalar.isFinite x = true := by
  have htolerance {x : Float} (hx : isTolerance x = true) : Scalar.isFinite x = true :=
    (Bool.and_eq_true_iff.1 hx).1
  have hpositive {x : Float} (hx : isPositive x = true) : Scalar.isFinite x = true :=
    (Bool.and_eq_true_iff.1 hx).1
  intro x hx
  simp only [numbers, List.mem_append, List.mem_cons, List.not_mem_nil, or_false,
    Option.mem_toList] at hx
  rcases hx with ((rfl | rfl | rfl | rfl | rfl | rfl) | herror) | hscale
  · exact htolerance h.ftol
  · exact htolerance h.xtol
  · exact htolerance h.gtol
  · exact htolerance h.damp
  · exact hpositive h.factor
  · exact htolerance h.rankTolerance
  · exact hpositive (h.relativeError x herror)
  · exact hpositive (h.scale x hscale)

/-- What the fields of a document say about each option. -/
structure ReadFrom (fields : Json.Fields) (o : Options Float) : Prop where
  ftol : fields.withDefault "ftol" Json.toFloat? default.ftol = some o.ftol
  xtol : fields.withDefault "xtol" Json.toFloat? default.xtol = some o.xtol
  gtol : fields.withDefault "gtol" Json.toFloat? default.gtol = some o.gtol
  damp : fields.withDefault "damp" Json.toFloat? default.damp = some o.damp
  factor : fields.withDefault "factor" Json.toFloat? default.factor = some o.factor
  maxIterations : fields.withDefault "max_iterations" Json.toNat?
    (default : Options Float).maxIterations = some o.maxIterations
  maxEvaluations : fields.withDefault "max_evaluations" (Json.toOption? Json.toNat?)
    (default : Options Float).maxEvaluations = some o.maxEvaluations
  relativeError : fields.withDefault "epsfcn" (Json.toOption? Json.toFloat?)
    default.relativeError = some o.relativeError
  rankTolerance : fields.withDefault "covtol" Json.toFloat? default.rankTolerance =
    some o.rankTolerance
  scale : fields.withDefault "diag" (Json.toOption? (Json.toList? Json.toFloat?))
    default.scale = some o.scale
  finiteCheck : fields.withDefault "finite_check" Json.toBool?
    (default : Options Float).finiteCheck = some o.finiteCheck
  norm : fields.withDefault "norm" NormMethod.ofJson? (default : Options Float).norm = some o.norm
  jacobian : fields.withDefault "diff_method" JacobianChoice.ofJson?
    (default : Options Float).jacobian = some o.jacobian

theorem ReadFrom.ofJson? {j : Json} {fields : Json.Fields} {o : Options Float}
    (h : ReadFrom fields o) (hfields : j.fields? fieldNames = some fields) :
    Options.ofJson? j = some o := by
  rw [Options.ofJson?, hfields, Option.bind_eq_bind, Option.bind_some]
  dsimp only
  rw [h.ftol, h.xtol, h.gtol, h.damp, h.factor, h.maxIterations, h.maxEvaluations, h.relativeError,
    h.rankTolerance, h.scale, h.finiteCheck, h.norm, h.jacobian]
  rfl

/-- Whichever fields of saved options are removed, the others are read back. -/
theorem ofJson?_without {o : Options Float} (hfinite : ∀ x ∈ o.numbers, Scalar.isFinite x = true)
    (hexact : o.Exact) (hiterations : o.maxIterations < UInt64.size)
    (hevaluations : ∀ n ∈ o.maxEvaluations, n < UInt64.size) (removed : String → Bool) :
    ofJson? (o.toJson.without removed) = some (o.reset removed) := by
  have hnumber {x : Float} (hx : x ∈ o.numbers) : (Json.ofFloat x).toFloat? = some x :=
    Json.toFloat?_ofFloat (hfinite x hx) (hexact x hx)
  have herror : (Json.ofOption .ofFloat o.relativeError).toOption? Json.toFloat? =
      some o.relativeError :=
    Json.toOption?_ofOption rfl fun x hx => hnumber (by simp [numbers, Option.mem_def.1 hx])
  have hscale : (Json.ofOption (.ofList .ofFloat) o.scale).toOption? (Json.toList? Json.toFloat?) =
      some o.scale := by
    refine Json.toOption?_ofOption rfl fun scale hmem => ?_
    have hentries : (Json.ofList .ofFloat scale).toList? Json.toFloat? = some (scale.map id) :=
      Json.toList?_ofList fun x hx => hnumber (by simp [numbers, Option.mem_def.1 hmem, hx])
    rwa [List.map_id] at hentries
  have hmost : (Json.ofOption .ofNat o.maxEvaluations).toOption? Json.toNat? =
      some o.maxEvaluations :=
    Json.toOption?_ofOption rfl fun n hn => Json.toNat?_ofNat (hevaluations n hn)
  refine ReadFrom.ofJson? ?_ (Json.fields?_without (by simp) removed _)
  constructor
  case maxEvaluations => exact Json.Fields.withDefault_without (by simp [List.lookup_cons]) hmost
  case relativeError => exact Json.Fields.withDefault_without (by simp [List.lookup_cons]) herror
  case scale => exact Json.Fields.withDefault_without (by simp [List.lookup_cons]) hscale
  case maxIterations =>
    exact Json.Fields.withDefault_without (by simp [List.lookup_cons])
      (Json.toNat?_ofNat hiterations)
  case finiteCheck =>
    have hbool : (Json.bool o.finiteCheck).toBool? = some o.finiteCheck := rfl
    exact Json.Fields.withDefault_without (by simp [List.lookup_cons]) hbool
  case norm =>
    exact Json.Fields.withDefault_without (by simp [List.lookup_cons]) (NormMethod.ofJson?_name _)
  case jacobian =>
    exact Json.Fields.withDefault_without (by simp [List.lookup_cons])
      (JacobianChoice.ofJson?_name _)
  all_goals
    exact Json.Fields.withDefault_without (by simp [List.lookup_cons]) (hnumber (by simp [numbers]))

theorem load_compact (j : Json) : load j.compact = ofJson? j := by
  rw [load, Json.read?_compact]
  rfl

/-- Options that pass their check come back as they were saved. When fields are removed from the
saved text, exactly their options have their defaults instead. -/
theorem load_save_of_validate {o : Options Float} (hvalid : o.validate = .ok ())
    (hiterations : o.maxIterations < UInt64.size)
    (hevaluations : ∀ n ∈ o.maxEvaluations, n < UInt64.size) (hexact : o.Exact) :
    load o.save = some o ∧
    ∀ removed : String → Bool,
      load (o.toJson.without removed).compact = some (o.reset removed) := by
  have hread := ofJson?_without (validate_ok.1 hvalid).isFinite hexact hiterations hevaluations
  constructor
  · rw [save, load_compact]
    have hwhole := hread fun _ => false
    rwa [Json.without_none] at hwhole
  · intro removed
    rw [load_compact, hread]

/-- Options that differ from the defaults in every field. -/
def tuned : Options Float where
  ftol := 1e-6
  xtol := 0.001
  gtol := 0
  damp := 0.5
  factor := 0.1
  maxIterations := 2 ^ 64 - 1
  maxEvaluations := some 50
  relativeError := some 1e-6
  rankTolerance := 1e-20
  scale := some [0.5, 1e20, 3]
  finiteCheck := false
  norm := .fast
  jacobian := .finiteDifference

theorem load_save_of_validate_tuned :
    tuned.validate = .ok () ∧ tuned.maxIterations < UInt64.size ∧
    (∀ n ∈ tuned.maxEvaluations, n < UInt64.size) ∧ tuned.Exact ∧
    load tuned.save = some tuned ∧
    load (tuned.toJson.without fun name => name == "factor" || name == "diag").compact =
      some { tuned with factor := 100, scale := none } := by
  have hvalid : tuned.validate = .ok () := by rfl
  have hiterations : tuned.maxIterations < UInt64.size := by decide
  have hevaluations : ∀ n ∈ tuned.maxEvaluations, n < UInt64.size := by decide
  have hexact : tuned.Exact := by unfold Exact; decide +kernel
  obtain ⟨hsaved, hremoved⟩ := load_save_of_validate hvalid hiterations hevaluations hexact
  exact ⟨hvalid, hiterations, hevaluations, hexact, hsaved, hremoved _⟩

end Options

end LeastSquares
