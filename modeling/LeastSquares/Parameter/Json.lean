import LeastSquares.Json.Reader
import LeastSquares.Json.Record
import LeastSquares.Json.Writer
import LeastSquares.Parameter.Store

/-!
Parameters as JSON. Infinite limits are written as null, and so are other numbers that are not
finite; ties are not written at all.
-/

namespace LeastSquares

namespace Bounds

def toJson (b : Bounds Float) : Json :=
  .record [("min", .ofOption .ofFloat b.finiteLower), ("max", .ofOption .ofFloat b.finiteUpper)]

def ofJson? (j : Json) : Option (Bounds Float) := do
  let fields ← j.fields? ["min", "max"]
  let lower ← fields.withDefault "min" (Json.toOption? Json.toFloat?) none
  let upper ← fields.withDefault "max" (Json.toOption? Json.toFloat?) none
  (Bounds.make lower upper).toOption

end Bounds

namespace Side

def name : Side → String
  | auto => "Auto"
  | positive => "Positive"
  | negative => "Negative"
  | both => "Both"

def ofName? (name : String) : Option Side :=
  [auto, positive, negative, both].find? (·.name == name)

def ofJson? (j : Json) : Option Side := j.toChoice?.bind ofName?

end Side

namespace Parameter

def fieldNames : List String :=
  ["name", "value", "fixed", "bounds", "step", "max_step", "relative_step", "side"]

def toJson (p : Parameter Float) : Json :=
  .record [("name", .ofOption .ofString p.name), ("value", .ofOption .ofFloat p.value),
    ("fixed", .bool p.fixed), ("bounds", p.bounds.toJson), ("step", .ofOption .ofFloat p.step),
    ("max_step", .ofOption .ofFloat p.maxStep), ("relative_step", .bool p.relativeStep),
    ("side", .ofString p.side.name)]

def ofJson? (j : Json) : Option (Parameter Float) := do
  let fields ← j.fields? fieldNames
  let name ← fields.optional "name" Json.toString?
  let value ← fields.optional "value" Json.toFloat?
  let fixed ← fields.required "fixed" Json.toBool?
  let bounds ← fields.withDefault "bounds" Bounds.ofJson? Bounds.unbounded
  let step ← fields.optional "step" Json.toFloat?
  let maxStep ← fields.optional "max_step" Json.toFloat?
  let relativeStep ← fields.required "relative_step" Json.toBool?
  let side ← fields.withDefault "side" Side.ofJson? .auto
  return { name, value, fixed, bounds, step, maxStep, relativeStep, side }

end Parameter

namespace Store

def toJson (s : Store Float) : Json :=
  .record [("params", .ofList Parameter.toJson s.parameters.toList)]

def ofJson? (j : Json) : Option (Store Float) := do
  let fields ← j.fields? ["params"]
  let parameters ← fields.required "params" (Json.toList? Parameter.ofJson?)
  return ⟨parameters.toArray⟩

def save (s : Store Float) : String := s.toJson.pretty

def load (text : String) : Except (FitError Float) (Store Float) :=
  match (Json.read? text).bind ofJson? with
  | some s => .ok s
  | none => .error .malformedJson

end Store

end LeastSquares
