import LeastSquares.Json.Writer
import LeastSquares.Solution
import LeastSquares.Termination.Json

/-!
A solution as JSON and as text for reading.
-/

namespace LeastSquares

namespace Json

/-- A vector or a matrix: its format version, its dimensions and its entries row by row. -/
def tensor (dimensions : List Nat) (entries : List Float) : Json :=
  .record [("v", .ofNat 1), ("dim", .ofList .ofNat dimensions), ("data", .ofList .ofFloat entries)]

def ofVector {n : Nat} (v : Vector Float n) : Json := tensor [n] v.toList

def ofMat {m n : Nat} (a : Mat Float m n) : Json := tensor [m, n] a.entries

end Json

namespace Solution

variable {n m : Nat} (s : Solution Float n m)

def toJson : Json :=
  .record [("params", .ofVector s.parameters), ("perror", .ofVector s.errors),
    ("covar", .ofMat s.covariance), ("status", s.status.toJson), ("niter", .ofNat s.iterations),
    ("nfev", .ofNat s.evaluations), ("njev", .ofNat s.jacobians), ("fnorm", .ofFloat s.chiSquare),
    ("orig_fnorm", .ofFloat s.startChiSquare), ("fvec", .ofVector s.residuals),
    ("fjac", .ofMat s.jacobian), ("nfree", .ofNat s.free), ("npegged", .ofNat s.pegged),
    ("names", .ofList (.ofOption .ofString) s.names.toList)]

def save : String := s.toJson.pretty

def alignRight (width : Nat) (text : String) : String :=
  String.ofList (List.replicate (width - text.length) ' ') ++ text

/-- The line of one parameter; one without a name goes by its index. -/
def parameterLine (i : Fin n) : String :=
  let name := s.names[i].getD s!"p[{i}]"
  s!"  {alignRight 12 name} = {Layout.exponential 8 s.parameters[i]} +/- " ++
    Layout.exponential 3 s.errors[i]

def text : String :=
  let lines :=
    ["Fit Result:",
      "  Status: " ++ s.status.text,
      s!"  Chi-square: {Layout.exponential 6 s.chiSquare} (start " ++
        s!"{Layout.exponential 6 s.startChiSquare}), dof {s.degreesOfFreedom}",
      s!"  Iterations: {s.iterations}, function evaluations: {s.evaluations}, " ++
        s!"Jacobian evaluations: {s.jacobians}",
      s!"  Free parameters: {s.free} ({s.pegged} pegged)"] ++
    (List.finRange n).map s.parameterLine
  String.join (lines.map (· ++ "\n"))

end Solution

end LeastSquares
