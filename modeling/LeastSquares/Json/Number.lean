import LeastSquares.Decimal.Layout

/-!
Numbers in JSON text. Writing a double gives its shortest digits. Reading takes three steps, each of
which may round: the digits in front that fit 64 bits make an integer, the integer becomes a double,
and the double is multiplied or divided by a power of ten. What is read can therefore be a neighbour
of the double nearest to the token, and a double that is written need not read back to itself.
-/

namespace LeastSquares

/-- The digits of a decimal up to the last that makes an integer of 64 bits with those before it.
Nineteen digits always do, and twenty may. -/
def Decimal.leading (d : Decimal) : Decimal :=
  let extra := digitCount d.coefficient - 20
  let dropped := if d.coefficient / tenTo extra < UInt64.size then extra else extra + 1
  ⟨d.negative, d.coefficient / tenTo dropped, d.exponent + dropped⟩

structure Json.Number where
  negative : Bool
  digits : Nat
  places : Nat
  exponent : Option Int
  deriving DecidableEq, Repr

namespace Json.Number

def isInteger (n : Number) : Bool := n.places == 0 && n.exponent.isNone

def value (n : Number) : Decimal := ⟨n.negative, n.digits, n.exponent.getD 0 - n.places⟩

def ofNat (n : Nat) : Number := ⟨false, n, 0, none⟩

/-! ### Writing -/

/-- The token of a decimal. It is positional from `1e-5` up to below `1e16`, and then has a digit
behind the point; otherwise one digit stands before the point. -/
def ofDecimal (d : Decimal) : Number :=
  let e := d.leadingExponent
  if -5 ≤ e && e < 16 then
    if 0 ≤ d.exponent then ⟨d.negative, d.coefficient * tenTo (d.exponent.toNat + 1), 1, none⟩
    else ⟨d.negative, d.coefficient, (-d.exponent).toNat, none⟩
  else ⟨d.negative, d.coefficient, digitCount d.coefficient - 1, some e⟩

/-- The token of a finite double: its shortest digits, and the even ones where two are equally
close. -/
def ofFloat (x : Float) : Number := ofDecimal (Decimal.shortest .toEven x)

def text (n : Number) : String :=
  let mantissa : Decimal := ⟨n.negative, n.digits, -n.places⟩
  let exponent :=
    match n.exponent with
    | some e => "e" ++ (if 0 ≤ e then "+" else "") ++ toString e
    | none => ""
  mantissa.sign ++ mantissa.positional false ++ exponent

/-! ### Reading -/

/-- The part of a token that is read: of the digits before the point those in front that fit 64
bits, and the digits behind the point as far as they fit with these. -/
def leading (n : Number) : Decimal :=
  let whole := Decimal.leading ⟨n.negative, n.digits / tenTo n.places, 0⟩
  Decimal.leading
    { whole with
      coefficient := whole.coefficient * tenTo n.places + n.digits % tenTo n.places
      exponent := whole.exponent + (n.exponent.getD 0 - n.places) }

def power (e : Nat) : Float := Decimal.toFloat ⟨false, 1, e⟩

/-- A non-negative double times `10 ^ e`, infinite when it overflows. The largest power of ten that
does not overflow is `1e308`, so that an exponent below -308 takes two quotients; where these do not
suffice, nothing is left of an integer of 64 bits. -/
def scaled (x : Float) (e : Int) : Float :=
  if x == 0 then x
  else if 0 ≤ e then x * power e.toNat
  else if -308 ≤ e then x / power (-e).toNat
  else if -616 ≤ e then x / power 308 / power (-e - 308).toNat
  else 0

def toFloat (n : Number) : Float :=
  let d := n.leading
  let x := scaled (Decimal.toFloat ⟨false, d.coefficient, 0⟩) d.exponent
  if n.negative then -x else x

def toNat? (n : Number) : Option Nat :=
  if n.isInteger && !n.negative && n.digits < UInt64.size then some n.digits else none

end Json.Number

end LeastSquares
