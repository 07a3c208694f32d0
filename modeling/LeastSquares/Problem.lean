import LeastSquares.Search.Minimize

/-!
Fitting problems: parameters, a residual function and options. `minimize` checks all three and
searches; nothing is evaluated before every check has passed.
-/

namespace LeastSquares

variable {α : Type}

section Preparation

variable [Scalar α]

/-- A checked start of a search: how the Jacobian is taken, the starting vector, and that there are
enough residuals. -/
structure Start (store : Store α) (function : ResidualFunction α) where
  mode : JacobianMode
  x : Vector α store.size
  tall : store.free.size ≤ function.count

def Store.startingVector (store : Store α) :
    Option (Array α) → Except (FitError α) (Vector α store.size)
  | none => store.values
  | some values =>
    if h : values.size = store.size then .ok ⟨values, h⟩
    else .error (.sizes (.initialValues store.size values.size))

/-- How the Jacobian is taken under the options. Damped residuals have to be differenced. -/
def Options.mode? (options : Options α) (function : ResidualFunction α) :
    Except (FitError α) JacobianMode := do
  let mode ← options.jacobian.mode? function.hasJacobian
  if mode = .analytic ∧ 0 < options.damp then throw (.conflict .dampingNeedsDifferences)
  return mode

def Options.checkScale (options : Options α) (n : Nat) : Except (FitError α) Unit :=
  match options.scale with
  | some d => if d.length = n then .ok () else .error (.sizes (.scaleEntries n d.length))
  | none => .ok ()

def prepare (store : Store α) (function : ResidualFunction α) (options : Options α)
    (initial : Option (Array α)) : Except (FitError α) (Start store function) := do
  options.validate
  let x ← store.startingVector initial
  store.check x
  if store.free.size = 0 then throw .noFreeParameters
  if tall : store.free.size ≤ function.count then
    options.checkScale store.size
    return { mode := ← options.mode? function, x, tall }
  else throw (.tooFewResiduals function.count store.free.size)

/-- A bound on the steps tried in one iteration. No iteration reaches it that has a bound on
evaluations, and otherwise it exceeds the number of times that a double can be halved. -/
def Options.trialBound (options : Options α) : Nat :=
  match options.maxEvaluations with
  | some limit => limit + 1
  | none => 100000

end Preparation

/-- Minimizes the sum of squares over the free parameters, trying at most `trials` steps in an
iteration. The starting values replace all values in the store when they are given. -/
def minimizeWithin [NormedScalar α] (trials : Nat) (store : Store α) (function : ResidualFunction α)
    (options : Options α) (initial : Option (Array α)) :
    Except (Halt α) (Solution α store.size function.count) × Journal α store.size :=
  match prepare store function options initial with
  | .error cause => (.error (.failed cause), .empty)
  | .ok start =>
    Run.outcome <| (Setting.ofStore store function options start.mode).search start.tall trials
      store.names start.x

def minimize [NormedScalar α] (store : Store α) (function : ResidualFunction α) (options : Options α)
    (initial : Option (Array α)) :
    Except (Halt α) (Solution α store.size function.count) × Journal α store.size :=
  minimizeWithin options.trialBound store function options initial

structure JacobianCheck (α : Type) (m k : Nat) where
  free : List Nat
  analytic : Mat α m k
  numeric : Mat α m k

namespace JacobianCheck

variable [Scalar α] {m k : Nat} (c : JacobianCheck α m k)

def pairs : List (α × α) := c.analytic.entries.zip c.numeric.entries

def maxAbsolute : α := Scalar.maximum 0 (c.pairs.map fun (a, b) => Scalar.abs (a - b))

/-- The largest difference relative to the entries, or to one for small entries. -/
def maxRelative : α :=
  Scalar.maximum 0 <| c.pairs.map fun (a, b) =>
    Scalar.abs (a - b) / Scalar.max (Scalar.max (Scalar.abs a) (Scalar.abs b)) 1

end JacobianCheck

structure Problem (α : Type) where
  parameters : Store α
  residuals : Option (ResidualFunction α)
  options : Options α

namespace Problem

section

variable [Scalar α]

/-- A problem with `n` parameters, the default options and no residual function yet. -/
def ofSize (n : Nat) : Problem α := ⟨.ofSize n, none, .default⟩

variable (p : Problem α)

def setParameterCount (n : Nat) : Problem α := { p with parameters := .ofSize n }

def function? : Except (FitError α) (ResidualFunction α) :=
  match p.residuals with
  | some f => .ok f
  | none => .error .missingResidualFunction

def jacobianMode? : Except (FitError α) JacobianMode := do
  p.options.jacobian.mode? (← p.function?).hasJacobian

def jacobiansAt (f : ResidualFunction α) (x : Vector α p.parameters.size) :
    Run α p.parameters.size (JacobianCheck α f.count p.parameters.free.size) := do
  let options := { p.options with damp := 0 }
  let x := p.parameters.applyTies x
  let exact := Setting.ofStore p.parameters f options .analytic
  let fx ← exact.residualsAt .start x
  let analytic ← exact.jacobianAt x fx
  let numeric ← (Setting.ofStore p.parameters f options .finiteDifference).jacobianAt x fx
  return { free := p.parameters.free.toList.map (·.val), analytic, numeric }

def checkJacobian (values : Array α) :
    Except (Halt α) ((m : Nat) × (k : Nat) × JacobianCheck α m k) × Journal α p.parameters.size :=
  match p.function? with
  | .error cause => (.error (.failed cause), .empty)
  | .ok f =>
    if !f.hasJacobian then (.error (.failed (.conflict .nothingToCheck)), .empty)
    else if h : values.size = p.parameters.size then
      let (result, journal) := Run.outcome (p.jacobiansAt f ⟨values, h⟩)
      (result.map fun check => ⟨f.count, p.parameters.free.size, check⟩, journal)
    else (.error (.failed (.sizes (.parameterValues p.parameters.size values.size))), .empty)

end

def solve [NormedScalar α] (p : Problem α) (initial : Option (Array α)) :
    Except (Halt α) ((m : Nat) × Solution α p.parameters.size m) × Journal α p.parameters.size :=
  match p.function? with
  | .error cause => (.error (.failed cause), .empty)
  | .ok f =>
    let (result, journal) := minimize p.parameters f p.options initial
    (result.map fun solution => ⟨f.count, solution⟩, journal)

end Problem

end LeastSquares
