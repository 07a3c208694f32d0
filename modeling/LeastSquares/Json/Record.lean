import LeastSquares.Json.Basic

/-!
Records in JSON. A record may be written as an object, where fields may come in any order beside
fields of other names, or as an array of the fields in the order of their names.
-/

namespace LeastSquares.Json

structure Fields where
  value? : String → Option Json
  /-- Whether the record was an array, where only fields with a default may be missing. -/
  positional : Bool

/-- The value of a name that occurs at most once; the outer absence is a repeated name. -/
def unique? (fields : List (Option String × Json)) (name : String) : Option (Option Json) :=
  match fields.filter (·.1 == some name) with
  | [] => some none
  | [(_, value)] => some (some value)
  | _ => none

/-- The fields of a record with the given names, none if one of these is repeated, if some name
stands for no text, or if an array is too long. -/
def fields? (names : List String) : Json → Option Fields
  | .object fields =>
    if fields.all (·.1.isSome) && names.all (fun name => (unique? fields name).isSome) then
      some ⟨fun name => (unique? fields name).join, false⟩
    else none
  | .array items =>
    if items.length ≤ names.length then
      some ⟨fun name => items[names.idxOf name]?, true⟩
    else none
  | _ => none

namespace Fields

variable {β : Type}

def required (fields : Fields) (name : String) (decode : Json → Option β) : Option β :=
  (fields.value? name).bind decode

def withDefault (fields : Fields) (name : String) (decode : Json → Option β) (default : β) :
    Option β :=
  match fields.value? name with
  | some j => decode j
  | none => some default

def optional (fields : Fields) (name : String) (decode : Json → Option β) : Option (Option β) :=
  match fields.value? name with
  | some j => j.toOption? decode
  | none => if fields.positional then none else some none

end Fields

end LeastSquares.Json
