import LeastSquares.Options.Json
import LeastSquares.Parameter.Json
import LeastSquares.Problem
import LeastSquares.Report.Message
import LeastSquares.Text.Quoted

/-!
Structural dumps of problems and their parts, with every field by name. A tie shows only as being
there.
-/

namespace LeastSquares

namespace Dump

def record (name : String) (fields : List (String × String)) : String :=
  name ++ " \x7b " ++ ", ".intercalate (fields.map fun (field, value) => field ++ ": " ++ value) ++
    " \x7d"

def list (items : List String) : String := "[" ++ ", ".intercalate items ++ "]"

def bool (b : Bool) : String := if b then "true" else "false"

def number (x : Float) : String := Layout.structural.text x

def option {β : Type} (dump : β → String) (value : Option β) : String := optionText dump value

end Dump

def Bounds.dump (b : Bounds Float) : String :=
  Dump.record "Bounds"
    [("min", b.lower.elim "-inf" Dump.number), ("max", b.upper.elim "inf" Dump.number)]

def Parameter.dump (p : Parameter Float) : String :=
  Dump.record "Parameter"
    [("name", Dump.option Text.quote p.name), ("value", Dump.option Dump.number p.value),
      ("fixed", Dump.bool p.fixed), ("bounds", p.bounds.dump), ("tied", Dump.bool p.isTied),
      ("step", Dump.option Dump.number p.step), ("max_step", Dump.option Dump.number p.maxStep),
      ("relative_step", Dump.bool p.relativeStep), ("side", p.side.name)]

def Store.dump (s : Store Float) : String :=
  Dump.record "ParameterStore" [("params", Dump.list (s.parameters.toList.map Parameter.dump))]

def Options.dump (o : Options Float) : String :=
  Dump.record "SolverConfig"
    [("ftol", Dump.number o.ftol), ("xtol", Dump.number o.xtol), ("gtol", Dump.number o.gtol),
      ("damp", Dump.number o.damp), ("factor", Dump.number o.factor),
      ("max_iterations", toString o.maxIterations),
      ("max_evaluations", Dump.option toString o.maxEvaluations),
      ("epsfcn", Dump.option Dump.number o.relativeError), ("covtol", Dump.number o.rankTolerance),
      ("diag", Dump.option (fun d => Dump.list (d.map Dump.number)) o.scale),
      ("finite_check", Dump.bool o.finiteCheck), ("norm", o.norm.name),
      ("diff_method", o.jacobian.name)]

def Problem.dump (p : Problem Float) : String :=
  Dump.record "Problem"
    [("params", p.parameters.dump),
      ("residual_count", Dump.option (fun f => toString f.count) p.residuals),
      ("config", p.options.dump)]

end LeastSquares
