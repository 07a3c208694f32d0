import LeastSquares.Json.Basic
import LeastSquares.Text.Quoted

/-!
The text of a JSON document: on one line without blanks, or with one item to a line and two blanks
for each level.
-/

namespace LeastSquares.Json

def escapeChar (c : Char) : List Char :=
  match c with
  | '"' => ['\\', '"']
  | '\\' => ['\\', '\\']
  | '\n' => ['\\', 'n']
  | '\t' => ['\\', 't']
  | '\r' => ['\\', 'r']
  | '\x08' => ['\\', 'b']
  | '\x0c' => ['\\', 'f']
  | c =>
    if c.toNat < 0x20 then
      let digits := Text.hex c.toNat
      ['\\', 'u'] ++ List.replicate (4 - digits.length) '0' ++ digits
    else [c]

def stringText (s : String) : String := String.ofList ('"' :: s.toList.flatMap escapeChar ++ ['"'])

/-- A name that stands for no text is written as half of a surrogate pair. -/
def nameText : Option String → String
  | some s => stringText s
  | none => "\"\\ud800\""

def scalarText : Json → String
  | .bool b => if b then "true" else "false"
  | .number n => n.text
  | .string s => nameText s
  | _ => "null"

mutual

def compact : Json → String
  | .array items => "[" ++ ",".intercalate (compactItems items) ++ "]"
  | .object fields => "\x7b" ++ ",".intercalate (compactFields fields) ++ "\x7d"
  | scalar => scalarText scalar

def compactItems : List Json → List String
  | [] => []
  | item :: rest => compact item :: compactItems rest

def compactFields : List (Option String × Json) → List String
  | [] => []
  | (name, value) :: rest => (nameText name ++ ":" ++ compact value) :: compactFields rest

end

def block (level : Nat) (opening closing : String) (items : List String) : String :=
  let indent (k : Nat) : String := "\n" ++ String.ofList (List.replicate (2 * k) ' ')
  if items.isEmpty then opening ++ closing
  else
    opening ++ indent (level + 1) ++ ("," ++ indent (level + 1)).intercalate items ++
      indent level ++ closing

mutual

def prettyAt (level : Nat) : Json → String
  | .array items => block level "[" "]" (prettyItems (level + 1) items)
  | .object fields => block level "\x7b" "\x7d" (prettyFields (level + 1) fields)
  | scalar => scalarText scalar

def prettyItems (level : Nat) : List Json → List String
  | [] => []
  | item :: rest => prettyAt level item :: prettyItems level rest

def prettyFields (level : Nat) : List (Option String × Json) → List String
  | [] => []
  | (name, value) :: rest =>
    (nameText name ++ ": " ++ prettyAt level value) :: prettyFields level rest

end

def pretty (j : Json) : String := prettyAt 0 j

end LeastSquares.Json
