/-!
Decimal numbers and doubles. A finite double is an integer times a power of two, so every question
about its decimal digits is one about integers, and is answered here in exact arithmetic: the
shortest decimal that reads back to it, its value rounded to a number of digits or places, and the
double nearest to a decimal.
-/

namespace LeastSquares

/-- The number `± coefficient · 10 ^ exponent`. Zero has a sign. -/
structure Decimal where
  negative : Bool
  coefficient : Nat
  exponent : Int
  deriving DecidableEq, Repr

def twoTo (k : Nat) : Nat := Nat.pow 2 k

def tenTo (k : Nat) : Nat := Nat.pow 10 k

inductive Halfway where
  | toEven
  | up
  deriving DecidableEq, Repr

def roundDiv (halfway : Halfway) (num den : Nat) : Nat :=
  let q := num / den
  let twice := 2 * (num % den)
  if twice > den ∨ (twice = den ∧ (halfway = .up ∨ q % 2 = 1)) then q + 1 else q

def digitCount (n : Nat) : Nat := (Nat.toDigits 10 n).length

structure Binary where
  significand : Nat
  exponent : Int
  deriving DecidableEq, Repr

namespace Binary

def ofFloat (x : Float) : Binary :=
  let bits := x.toBits.toNat % twoTo 63
  let field : Nat := bits / twoTo 52
  let fraction := bits % twoTo 52
  if field = 0 then ⟨fraction, -1074⟩ else ⟨twoTo 52 + fraction, field - 1075⟩

/-- The numerator and denominator of the number in units of `10 ^ e`. -/
def ratio (b : Binary) (e : Int) : Nat × Nat :=
  (b.significand * twoTo b.exponent.toNat * tenTo (-e).toNat,
    twoTo (-b.exponent).toNat * tenTo e.toNat)

/-- The exponent `e` of a positive number, for which it is at least `10 ^ e` and below
`10 ^ (e + 1)`. The estimate from the power of two is off by one at most. -/
def decimalExponent (b : Binary) : Int :=
  let estimate := (b.exponent + b.significand.log2) * 30103 / 100000
  let atLeast (e : Int) : Bool := let (num, den) := b.ratio e; den ≤ num
  if atLeast (estimate + 1) then estimate + 1
  else if atLeast estimate then estimate
  else estimate - 1

end Binary

namespace Decimal

/-- The multiple of `10 ^ e` nearest to `b` among its two neighbours on that grid that lie between
`low` and `high`; the ends count if `closed`. -/
def onGrid? (halfway : Halfway) (b low high : Binary) (closed : Bool) (e : Int) : Option Nat :=
  let (num, den) := b.ratio e
  let inside (c : Nat) : Bool :=
    let (lowNum, lowDen) := low.ratio e
    let (highNum, highDen) := high.ratio e
    if closed then lowNum ≤ c * lowDen && c * highDen ≤ highNum
    else lowNum < c * lowDen && c * highDen < highNum
  let near := roundDiv halfway num den
  let floor := num / den
  let far := if near = floor then floor + 1 else floor
  if inside near then some near else if inside far then some far else none

def refine (halfway : Halfway) (b low high : Binary) (closed : Bool) :
    (steps : Nat) → Int → Nat × Int
  | 0, e => (b.significand, e)
  | steps + 1, e =>
    match onGrid? halfway b low high closed e with
    | some c => (c, e)
    | none => refine halfway b low high closed steps (e - 1)

/-- The decimal with fewest digits that has `x` as its nearest double, and the closest to `x` of
those; `halfway` chooses between two that are equally close. The reals nearest to `x` lie halfway to
the neighbours of `x`; below a power of two the neighbour is twice as near. The halfway points
belong to them when the significand is even. -/
def shortest (halfway : Halfway) (x : Float) : Decimal :=
  let negative := x.toBits >>> 63 == 1
  let b := Binary.ofFloat x
  if b.significand = 0 then ⟨negative, 0, 0⟩
  else
    let half : Nat := if b.significand = twoTo 52 ∧ -1074 < b.exponent then 1 else 2
    let low : Binary := ⟨4 * b.significand - half, b.exponent - 2⟩
    let high : Binary := ⟨4 * b.significand + 2, b.exponent - 2⟩
    let (c, e) := refine halfway b low high (b.significand % 2 = 0) 20 (b.decimalExponent + 1)
    ⟨negative, c, e⟩

def toPlaces (x : Float) (places : Nat) : Decimal :=
  let (num, den) := (Binary.ofFloat x).ratio (-places)
  ⟨x.toBits >>> 63 == 1, roundDiv .toEven num den, -places⟩

/-- The finite double `x` rounded to `digits + 1` digits. -/
def toDigits (x : Float) (digits : Nat) : Decimal :=
  let negative := x.toBits >>> 63 == 1
  let b := Binary.ofFloat x
  if b.significand = 0 then ⟨negative, 0, -digits⟩
  else
    let e := b.decimalExponent - digits
    let (num, den) := b.ratio e
    let c := roundDiv .toEven num den
    if c = tenTo (digits + 1) then ⟨negative, tenTo digits, e + 1⟩ else ⟨negative, c, e⟩

/-- The bits of the magnitude of the double nearest to `num / den`. The exponent is chosen so that
the significand has 53 bits, or fewer at the smallest exponent; a significand that rounds up to
`2 ^ 53` carries into the exponent field. -/
def nearestBits (num den : Nat) : Nat :=
  let shifted (q : Int) : Nat × Nat := (num * twoTo (-q).toNat, den * twoTo q.toNat)
  let estimate : Int := (num.log2 : Int) - den.log2 - 53
  let q : Int := let (a, b) := shifted estimate; if a < b * twoTo 53 then estimate else estimate + 1
  let q := if q < -1074 then -1074 else q
  let (a, b) := shifted q
  min (roundDiv .toEven a b + (q + 1074).toNat * twoTo 52) (2047 * twoTo 52)

/-- The double nearest to a decimal, infinite when it overflows. A decimal far outside the range of
doubles is settled by its size. -/
def toFloat (d : Decimal) : Float :=
  let size := d.exponent + digitCount d.coefficient
  let bits :=
    if d.coefficient = 0 ∨ size < -330 then 0
    else if 320 < size then 2047 * twoTo 52
    else nearestBits (d.coefficient * tenTo d.exponent.toNat) (tenTo (-d.exponent).toNat)
  Float.ofBits (UInt64.ofNat (if d.negative then bits + twoTo 63 else bits))

end Decimal

end LeastSquares
