import LeastSquares.Json.Reader
import LeastSquares.Json.Record
import LeastSquares.Json.Writer
import LeastSquares.Options

/-!
Options as JSON. Every option may be missing from a document and then has its default.
-/

namespace LeastSquares

namespace NormMethod

def name : NormMethod → String
  | careful => "Careful"
  | fast => "Fast"

def ofName? (name : String) : Option NormMethod := [careful, fast].find? (·.name == name)

def ofJson? (j : Json) : Option NormMethod := j.toChoice?.bind ofName?

end NormMethod

namespace JacobianChoice

def name : JacobianChoice → String
  | auto => "Auto"
  | finiteDifference => "FiniteDifference"
  | analytical => "Analytical"

def ofName? (name : String) : Option JacobianChoice :=
  [auto, finiteDifference, analytical].find? (·.name == name)

def ofJson? (j : Json) : Option JacobianChoice := j.toChoice?.bind ofName?

end JacobianChoice

def JacobianMode.name : JacobianMode → String
  | analytic => "Analytic"
  | finiteDifference => "FiniteDifference"

namespace Options

def fieldNames : List String :=
  ["ftol", "xtol", "gtol", "damp", "factor", "max_iterations", "max_evaluations", "epsfcn",
    "covtol", "diag", "finite_check", "norm", "diff_method"]

def toJson (o : Options Float) : Json :=
  .record [("ftol", .ofFloat o.ftol), ("xtol", .ofFloat o.xtol), ("gtol", .ofFloat o.gtol),
    ("damp", .ofFloat o.damp), ("factor", .ofFloat o.factor),
    ("max_iterations", .ofNat o.maxIterations),
    ("max_evaluations", .ofOption .ofNat o.maxEvaluations),
    ("epsfcn", .ofOption .ofFloat o.relativeError), ("covtol", .ofFloat o.rankTolerance),
    ("diag", .ofOption (.ofList .ofFloat) o.scale), ("finite_check", .bool o.finiteCheck),
    ("norm", .ofString o.norm.name), ("diff_method", .ofString o.jacobian.name)]

def ofJson? (j : Json) : Option (Options Float) := do
  let fields ← j.fields? fieldNames
  let d : Options Float := default
  let ftol ← fields.withDefault "ftol" Json.toFloat? d.ftol
  let xtol ← fields.withDefault "xtol" Json.toFloat? d.xtol
  let gtol ← fields.withDefault "gtol" Json.toFloat? d.gtol
  let damp ← fields.withDefault "damp" Json.toFloat? d.damp
  let factor ← fields.withDefault "factor" Json.toFloat? d.factor
  let maxIterations ← fields.withDefault "max_iterations" Json.toNat? d.maxIterations
  let maxEvaluations ←
    fields.withDefault "max_evaluations" (Json.toOption? Json.toNat?) d.maxEvaluations
  let relativeError ← fields.withDefault "epsfcn" (Json.toOption? Json.toFloat?) d.relativeError
  let rankTolerance ← fields.withDefault "covtol" Json.toFloat? d.rankTolerance
  let scale ← fields.withDefault "diag" (Json.toOption? (Json.toList? Json.toFloat?)) d.scale
  let finiteCheck ← fields.withDefault "finite_check" Json.toBool? d.finiteCheck
  let norm ← fields.withDefault "norm" NormMethod.ofJson? d.norm
  let jacobian ← fields.withDefault "diff_method" JacobianChoice.ofJson? d.jacobian
  return {
    ftol, xtol, gtol, damp, factor, maxIterations, maxEvaluations, relativeError, rankTolerance
    scale, finiteCheck, norm, jacobian }

def save (o : Options Float) : String := o.toJson.compact

def load (text : String) : Option (Options Float) := (Json.read? text).bind ofJson?

end Options

end LeastSquares
