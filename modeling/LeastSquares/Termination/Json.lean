import LeastSquares.Json.Reader
import LeastSquares.Json.Writer
import LeastSquares.Termination

/-!
The status of a search as JSON: the names of its reasons in their fixed order. On reading, the order
does not matter and a reason may be repeated.
-/

namespace LeastSquares

namespace Reason

def name : Reason → String
  | ftolConverged => "FtolConverged"
  | xtolConverged => "XtolConverged"
  | gtolConverged => "GtolConverged"
  | maxIterations => "MaxIterations"
  | maxEvaluations => "MaxEvaluations"
  | ftolTooSmall => "FtolTooSmall"
  | xtolTooSmall => "XtolTooSmall"
  | gtolTooSmall => "GtolTooSmall"

def ofName? (name : String) : Option Reason := all.find? (·.name == name)

def ofJson? (j : Json) : Option Reason := j.toChoice?.bind ofName?

end Reason

namespace Status

def toJson (s : Status) : Json := .ofList (fun r => .ofString r.name) s.reasons

def ofJson? (j : Json) : Option Status :=
  (j.toList? Reason.ofJson?).map fun reasons => reasons.foldl insert empty

def save (s : Status) : String := s.toJson.compact

def load (text : String) : Option Status := (Json.read? text).bind ofJson?

end Status

end LeastSquares
