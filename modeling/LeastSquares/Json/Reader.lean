import LeastSquares.Json.Basic

/-!
Reading JSON text. The grammar is the strict one: no trailing commas, no leading zeros or plus
signs, at least one digit on either side of a point, no bare control characters in strings. Every
function takes the characters that are left and returns those after what it read.
-/

namespace LeastSquares.Json

def isBlank (c : Char) : Bool := c == ' ' || c == '\n' || c == '\t' || c == '\r'

def skipBlanks (cs : List Char) : List Char := cs.dropWhile isBlank

/-! ### Numbers -/

def digitsValue (ds : List Char) : Nat := ds.foldl (fun n d => 10 * n + (d.toNat - '0'.toNat)) 0

def readDigits? (cs : List Char) : Option (List Char × List Char) :=
  let ds := cs.takeWhile Char.isDigit
  if ds.isEmpty then none else some (ds, cs.dropWhile Char.isDigit)

def readFraction? : List Char → Option (List Char × List Char)
  | '.' :: cs => readDigits? cs
  | cs => some ([], cs)

def readExponent? : List Char → Option (Option Int × List Char)
  | 'e' :: cs | 'E' :: cs =>
    let (negative, cs) :=
      match cs with
      | '-' :: cs => (true, cs)
      | '+' :: cs => (false, cs)
      | cs => (false, cs)
    (readDigits? cs).map fun (ds, rest) =>
      let n : Int := digitsValue ds
      (some (if negative then -n else n), rest)
  | cs => some (none, cs)

def readNumber? (cs : List Char) : Option (Number × List Char) := do
  let (negative, cs) := match cs with
    | '-' :: cs => (true, cs)
    | cs => (false, cs)
  let (whole, cs) ← readDigits? cs
  if whole.head? == some '0' && whole.length > 1 then none
  let (fraction, cs) ← readFraction? cs
  let (exponent, cs) ← readExponent? cs
  some (⟨negative, digitsValue (whole ++ fraction), fraction.length, exponent⟩, cs)

/-! ### Strings -/

def hexValue? (c : Char) : Option Nat :=
  if c.isDigit then some (c.toNat - '0'.toNat)
  else if 'a' ≤ c ∧ c ≤ 'f' then some (c.toNat - 'a'.toNat + 10)
  else if 'A' ≤ c ∧ c ≤ 'F' then some (c.toNat - 'A'.toNat + 10)
  else none

def readUnit? : List Char → Option (Nat × List Char)
  | a :: b :: c :: d :: rest => do
    let high := (← hexValue? a) * 16 + (← hexValue? b)
    let low := (← hexValue? c) * 16 + (← hexValue? d)
    some (high * 256 + low, rest)
  | _ => none

def escaped? : Char → Option Char
  | '"' => some '"'
  | '\\' => some '\\'
  | '/' => some '/'
  | 'b' => some '\x08'
  | 'f' => some '\x0c'
  | 'n' => some '\n'
  | 'r' => some '\r'
  | 't' => some '\t'
  | _ => none

/-- What has been read of a string: its characters, last first, while they are text; and the first
half of a surrogate pair, if that came last. -/
structure Partial where
  chars : Option (List Char)
  pending : Option Nat

namespace Partial

/-- Appends a character. A pending half of a pair then has no partner. -/
def push (p : Partial) (c : Char) : Partial :=
  match p.pending with
  | none => { p with chars := p.chars.map (c :: ·) }
  | some _ => ⟨none, none⟩

/-- Appends an escaped unit, joining it with the pending one if the two are a pair. -/
def pushUnit (p : Partial) (unit : Nat) : Partial :=
  let isFirst := 0xD800 ≤ unit ∧ unit < 0xDC00
  let isSecond := 0xDC00 ≤ unit ∧ unit < 0xE000
  match p.pending with
  | none =>
    if isFirst then { p with pending := some unit }
    else if isSecond then ⟨none, none⟩
    else p.push (Char.ofNat unit)
  | some first =>
    if isSecond then
      let c := Char.ofNat (0x10000 + (first - 0xD800) * 0x400 + (unit - 0xDC00))
      { chars := p.chars.map (c :: ·), pending := none }
    else ⟨none, none⟩

def finish (p : Partial) : Option String :=
  match p.pending with
  | none => p.chars.map fun cs => String.ofList cs.reverse
  | some _ => none

end Partial

def readString? (p : Partial) : List Char → Option (Option String × List Char)
  | '"' :: rest => some (p.finish, rest)
  | '\\' :: 'u' :: a :: b :: c :: d :: rest =>
    match readUnit? [a, b, c, d] with
    | some (unit, _) => readString? (p.pushUnit unit) rest
    | none => none
  | '\\' :: c :: rest =>
    match escaped? c with
    | some c => readString? (p.push c) rest
    | none => none
  | c :: rest => if c.toNat < 0x20 then none else readString? (p.push c) rest
  | [] => none

def startString : Partial := ⟨some [], none⟩

/-! ### Documents -/

def readWord? (word : String) (value : Json) (cs : List Char) : Option (Json × List Char) :=
  if word.toList.isPrefixOf cs then some (value, cs.drop word.length) else none

inductive Goal where
  | value
  | items
  | fields

def Goal.Result : Goal → Type
  | .value => Json
  | .items => List Json
  | .fields => List (Option String × Json)

/-- Reads what the goal asks for. `items` and `fields` begin at an item and go on to the closing
bracket. Each nested call starts further into the text, so that `fuel` need not exceed its
length. -/
def readGoal? : (fuel : Nat) → (goal : Goal) → List Char → Option (goal.Result × List Char)
  | 0, _, _ => none
  | fuel + 1, .value, cs =>
    match skipBlanks cs with
    | '[' :: rest =>
      match skipBlanks rest with
      | ']' :: rest => some (.array [], rest)
      | _ => (readGoal? fuel .items rest).map fun (items, rest) => (.array items, rest)
    | '\x7b' :: rest =>
      match skipBlanks rest with
      | '\x7d' :: rest => some (.object [], rest)
      | _ => (readGoal? fuel .fields rest).map fun (fields, rest) => (.object fields, rest)
    | '"' :: rest => (readString? startString rest).map fun (s, rest) => (.string s, rest)
    | 'n' :: rest => readWord? "null" .null ('n' :: rest)
    | 't' :: rest => readWord? "true" (.bool true) ('t' :: rest)
    | 'f' :: rest => readWord? "false" (.bool false) ('f' :: rest)
    | cs => (readNumber? cs).map fun (n, rest) => (.number n, rest)
  | fuel + 1, .items, cs =>
    match readGoal? fuel .value cs with
    | none => none
    | some (item, rest) =>
      match skipBlanks rest with
      | ']' :: rest => some ([item], rest)
      | ',' :: rest => (readGoal? fuel .items rest).map fun (items, rest) => (item :: items, rest)
      | _ => none
  | fuel + 1, .fields, cs =>
    match skipBlanks cs with
    | '"' :: rest =>
      match readString? startString rest with
      | none => none
      | some (name, rest) =>
        match skipBlanks rest with
        | ':' :: rest =>
          match readGoal? fuel .value rest with
          | none => none
          | some (value, rest) =>
            match skipBlanks rest with
            | '\x7d' :: rest => some ([(name, value)], rest)
            | ',' :: rest =>
              (readGoal? fuel .fields rest).map fun (fields, rest) =>
                ((name, value) :: fields, rest)
            | _ => none
        | _ => none
    | _ => none

def read? (text : String) : Option Json :=
  match readGoal? (2 * text.length + 2) .value text.toList with
  | some (j, rest) => if (skipBlanks rest).isEmpty then some j else none
  | none => none

end LeastSquares.Json
