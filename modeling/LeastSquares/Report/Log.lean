import LeastSquares.Decimal.Layout
import LeastSquares.Options.Json
import LeastSquares.Search.Journal

/-!
The log of a search: each entry has a level and a line of text.
-/

namespace LeastSquares.LogEntry

def level : LogEntry Float → String
  | started .. | accepted .. => "DEBUG"
  | trial .. => "TRACE"
  | rankDeficient .. => "WARN"
  | finished .. => "INFO"

def text : LogEntry Float → String
  | started parameters free residuals mode =>
    s!"Starting fit: {parameters} parameters ({free} free), {residuals} residuals, " ++
      s!"{mode.name} Jacobian"
  | trial norm ratio part radius damping =>
    s!"Trial step: fnorm1 = {Layout.exponential 6 norm}, ratio = {Layout.fixed 4 ratio}, " ++
      s!"alpha = {Layout.fixed 4 part}, delta = {Layout.exponential 4 radius}, " ++
      s!"par = {Layout.exponential 4 damping}"
  | accepted iteration chiSquare cosine evaluations =>
    s!"Iteration {iteration}: chi-square = {Layout.exponential 6 chiSquare}, " ++
      s!"|grad| = {Layout.exponential 3 cosine}, nfev = {evaluations}"
  | rankDeficient rank free =>
    s!"Covariance is rank deficient: rank {rank} of {free}; trailing rows set to zero"
  | finished iterations evaluations status startChiSquare chiSquare =>
    s!"Fit finished after {iterations} iterations ({evaluations} evaluations): {status.text}; " ++
      s!"chi-square {Layout.exponential 6 startChiSquare} -> {Layout.exponential 6 chiSquare}"

def line (entry : LogEntry Float) : String := entry.level ++ " " ++ entry.text

end LeastSquares.LogEntry
