import LeastSquares.Decimal.Basic

/-!
How decimals are written. A `Layout` says which numbers are written positionally, and whether a
whole number keeps a fractional zero. Of two shortest decimals that are equally close to a double
the one of larger magnitude is written.
-/

namespace LeastSquares

structure Layout where
  /-- The decimal exponents written positionally, the first included and the last not; every
  exponent when absent. -/
  positional : Option (Int × Int)
  wholePoint : Bool

namespace Layout

def message : Layout := ⟨none, false⟩

/-- Numbers in structural dumps are positional from `1e-4` up to below `1e16`. -/
def structural : Layout := ⟨some (-4, 16), true⟩

end Layout

namespace Decimal

def leadingExponent (d : Decimal) : Int :=
  if d.coefficient = 0 then 0 else d.exponent + digitCount d.coefficient - 1

def zeros (n : Nat) : String := String.ofList (List.replicate n '0')

def sign (d : Decimal) : String := if d.negative then "-" else ""

def positional (d : Decimal) (wholePoint : Bool) : String :=
  let digits := Nat.toDigits 10 d.coefficient
  let places := (-d.exponent).toNat
  if places = 0 then
    let whole := if d.coefficient = 0 then "0" else String.ofList digits ++ zeros d.exponent.toNat
    if wholePoint then whole ++ ".0" else whole
  else
    let padded := List.replicate (places + 1 - digits.length) '0' ++ digits
    let split := padded.length - places
    String.ofList (padded.take split) ++ "." ++ String.ofList (padded.drop split)

def scientific (d : Decimal) : String :=
  let mantissa :=
    match Nat.toDigits 10 d.coefficient with
    | [] => "0"
    | [c] => String.ofList [c]
    | c :: rest => String.ofList (c :: '.' :: rest)
  mantissa ++ "e" ++ toString d.leadingExponent

def text (layout : Layout) (d : Decimal) : String :=
  let isPositional :=
    match layout.positional with
    | none => true
    | some (first, last) => first ≤ d.leadingExponent && d.leadingExponent < last
  d.sign ++ if isPositional then d.positional layout.wholePoint else d.scientific

end Decimal

namespace Layout

def written (write : Float → String) (x : Float) : String :=
  if x.isNaN then "NaN"
  else if x.isInf then (if x < 0 then "-inf" else "inf")
  else write x

def text (layout : Layout) (x : Float) : String :=
  written (fun x => (Decimal.shortest .up x).text layout) x

def fixed (places : Nat) (x : Float) : String :=
  written (fun x =>
    let d := Decimal.toPlaces x places
    d.sign ++ d.positional false) x

def exponential (places : Nat) (x : Float) : String :=
  written (fun x =>
    let d := Decimal.toDigits x places
    let e := d.leadingExponent
    let digits := if d.coefficient = 0 then List.replicate (places + 1) '0'
      else Nat.toDigits 10 d.coefficient
    let mantissa :=
      match digits with
      | c :: rest => String.ofList (if rest.isEmpty then [c] else c :: '.' :: rest)
      | [] => "0"
    d.sign ++ mantissa ++ "e" ++ toString e) x

end Layout

end LeastSquares
