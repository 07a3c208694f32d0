import LeastSquares.Json.Number

/-!
JSON documents. Numbers are kept as tokens; objects keep the order of their fields, repeated names
included. A string that escapes half of a surrogate pair names no text, and is kept as an absent
one: it is well formed, but nothing can be read from it.
-/

namespace LeastSquares

inductive Json where
  | null
  | bool (value : Bool)
  | number (value : Json.Number)
  | string (text : Option String)
  | array (items : List Json)
  | object (fields : List (Option String × Json))

namespace Json

/-! ### Documents from values -/

def ofNat (n : Nat) : Json := .number (.ofNat n)

/-- A finite double by its shortest digits; any other double as null. -/
def ofFloat (x : Float) : Json :=
  if x.isFinite then .number (.ofFloat x) else .null

def ofString (s : String) : Json := .string (some s)

def ofOption {β : Type} (f : β → Json) : Option β → Json
  | none => .null
  | some b => f b

def ofList {β : Type} (f : β → Json) (bs : List β) : Json := .array (bs.map f)

def record (fields : List (String × Json)) : Json :=
  .object (fields.map fun (name, value) => (some name, value))

/-! ### Values from documents -/

def toFloat? : Json → Option Float
  | .number n => let x := n.toFloat; if x.isFinite then some x else none
  | _ => none

/-- An integer token without a sign that fits 64 bits. -/
def toNat? : Json → Option Nat
  | .number n => n.toNat?
  | _ => none

def toBool? : Json → Option Bool
  | .bool b => some b
  | _ => none

def toString? : Json → Option String
  | .string s => s
  | _ => none

def toOption? {β : Type} (f : Json → Option β) : Json → Option (Option β)
  | .null => some none
  | j => (f j).map some

def toList? {β : Type} (f : Json → Option β) : Json → Option (List β)
  | .array items => items.mapM f
  | _ => none

/-- The name of a choice without a payload, alone or as the one field of an object, set to null. -/
def toChoice? : Json → Option String
  | .string s => s
  | .object [(name, .null)] => name
  | _ => none

end Json

end LeastSquares
