import LeastSquares.Model.Basic

/-!
Gaussian peaks `amplitude · exp(-(x - center)² / (2 sigma²))`, on a constant baseline if there is
one.
-/

namespace LeastSquares

structure Gaussian where
  hasBaseline : Bool
  deriving DecidableEq, Repr

namespace Gaussian

variable {α : Type} [Scalar α] (g : Gaussian)

def parameterNames : List String :=
  ["amplitude", "center", "sigma"] ++ if g.hasBaseline then ["baseline"] else []

def parameterCount : Nat := if g.hasBaseline then 4 else 3

/-- The full width at half maximum of a peak, in units of sigma: `2 √(2 ln 2)`. -/
def widthPerSigma : α := 2.354820045030949

structure Shape (α : Type) where
  amplitude : α
  center : α
  sigma : α
  baseline : α

def shape? {n : Nat} (p : Vector α n) : Except (FitError α) (Shape α) :=
  match g.hasBaseline, p.toList with
  | false, [amplitude, center, sigma] => .ok ⟨amplitude, center, sigma, 0⟩
  | true, [amplitude, center, sigma, baseline] => .ok ⟨amplitude, center, sigma, baseline⟩
  | _, _ => .error (.sizes (.peakParameters g.parameterCount n))

namespace Shape

variable (s : Shape α)

def offset (x : α) : α := (x - s.center) / s.sigma

def height (x : α) : α := Scalar.exp (-0.5 * s.offset x * s.offset x)

def value (x : α) : α := s.amplitude * s.height x + s.baseline

def derivative (x : α) : Nat → α
  | 0 => s.height x
  | 1 => s.amplitude * s.height x * s.offset x / s.sigma
  | 2 => s.amplitude * s.height x * s.offset x * s.offset x / s.sigma
  | _ => 1

end Shape

def model : Model α where
  eval p xs := do
    let s ← g.shape? p
    return xs.map s.value
  hasJacobian := true
  jacobian p xs := do
    let s ← g.shape? p
    return Mat.ofFn fun i j => s.derivative xs[i] j

/-! ### A first guess -/

/-- The least number among `xs`; infinite if there is none. -/
def least (xs : List α) : α :=
  match xs.filter Scalar.isNumber with
  | [] => 1 / 0
  | x :: rest => Scalar.minimum x rest

def greatest (xs : List α) : α :=
  match xs.filter Scalar.isNumber with
  | [] => -1 / 0
  | x :: rest => Scalar.maximum x rest

/-- The highest sample so far: its place, and its height unless that is minus infinity. -/
structure Highest (α : Type) where
  place : α
  height : Option α

/-- The higher of the highest sample before and a new one; the first of equal ones is kept. -/
def Highest.compare (best : Highest α) (sample : α × α) : Highest α :=
  let isHigher : Bool :=
    match best.height with
    | some h => h < sample.2
    | none => Scalar.isFinite sample.2 || 0 < sample.2
  if isHigher then ⟨sample.1, some sample.2⟩ else best

/-- The width of a peak over samples: their extent at half maximum, or else their spacing. -/
def guessSigma (xs above : List α) : α :=
  let width := greatest above - least above
  if 0 < width then width / widthPerSigma
  else Scalar.max ((greatest xs - least xs) / Scalar.ofNat xs.length) Scalar.epsilon

/-- A peak estimated from samples: the baseline is the least of them, the peak the highest above
it. -/
def guessShape (first : α) (samples : List (α × α)) : Shape α :=
  let baseline := if g.hasBaseline then least (samples.map (·.2)) else 0
  let best := samples.foldl Highest.compare ⟨first, none⟩
  let amplitude := best.height.getD (-1 / 0) - baseline
  let half := baseline + 0.5 * amplitude
  let above := samples.filter fun sample => half ≤ sample.2
  ⟨amplitude, best.place, guessSigma (samples.map (·.1)) (above.map (·.1)), baseline⟩

def parameters (s : Shape α) : List α :=
  [s.amplitude, s.center, s.sigma] ++ if g.hasBaseline then [s.baseline] else []

def guess? (x y : Array α) : Except (FitError α) (List α) :=
  match x.toList with
  | [] => .error (.sizes (.guess 0 y.size))
  | first :: rest =>
    if y.size = x.size then
      .ok (g.parameters (g.guessShape first ((first :: rest).zip y.toList)))
    else .error (.sizes (.guess x.size y.size))

/-- The problem of fitting the peak, with named parameters that start at the guess; sigma is kept
positive. -/
def problem? (x y invSigma : Array α) : Except (FitError α) (Problem α) := do
  let start ← g.guess? x y
  let problem ← Problem.ofModel? g.parameterCount g.model x y invSigma
  let parameters := (start.zip g.parameterNames).map fun (value, name) =>
    let p := (Parameter.ofValue value).setName name
    if name = "sigma" then { p with bounds := ⟨some Scalar.minNormal, none⟩ } else p
  return { problem with parameters := ⟨parameters.toArray⟩ }

end Gaussian

end LeastSquares
