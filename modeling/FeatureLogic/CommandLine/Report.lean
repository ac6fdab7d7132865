import FeatureLogic.Decimal.Fixed
import FeatureLogic.Json.Float
import FeatureLogic.Json.Writer
import FeatureLogic.Vocabulary
/-!
What the commands print: lines of text for people, or a JSON object.
-/
set_option autoImplicit false

namespace FeatureLogic

namespace Report

def lines (ls : List String) : String := String.join (ls.map (· ++ "\n"))

def json (j : Json) : String := lines [j.pretty 0]

def probability (x : Float) : String :=
  match Binary.ofFloat? x with
  | some b => (if b.negative then "-" else "") ++ b.fixedDigits 6
  | none => if x.isNaN then "NaN" else if x < 0.0 then "-inf" else "inf"

def slotLines (slot : SlotIndex × List (String × String)) : List String :=
  ("  [" ++ toString slot.1.toNat ++ "]") ::
    slot.2.map fun (path, atom) => "    " ++ path ++ " = " ++ atom

/-- Readings are numbered from 1. -/
def readingLines (r : Reading Float) (number : Nat) : List String :=
  "" :: ("#" ++ toString (number + 1) ++ "  probability " ++ probability r.probability) ::
    r.slots.flatMap slotLines

def ofValue (value : String × String) : Json :=
  .record [("path", .ofString value.1), ("atom", .ofString value.2)]

def ofSlot (slot : SlotIndex × List (String × String)) : Json :=
  .record [("index", .ofNat slot.1.toNat), ("values", .ofList ofValue slot.2)]

def ofReading (r : Reading Float) : Json :=
  .record [("probability", .ofFloat r.probability), ("slots", .ofList ofSlot r.slots)]

end Report

structure EvaluationReport where
  file : String
  slots : Nat
  constraints : Nat
  maxProbability : Float
  readings : List (Reading Float)

namespace EvaluationReport

def text (r : EvaluationReport) : String :=
  Report.lines ([
    "patr Evaluation",
    "===============",
    "File:            " ++ r.file,
    "Slots:           " ++ toString r.slots,
    "Constraints:     " ++ toString r.constraints,
    "Interpretations: " ++ toString r.readings.length] ++
    r.readings.zipIdx.flatMap fun (reading, k) => Report.readingLines reading k)

def toJson (r : EvaluationReport) : Json :=
  .record [
    ("file", .ofString r.file),
    ("satisfiable", .bool !r.readings.isEmpty),
    ("count", .ofNat r.readings.length),
    ("max_probability", .ofFloat r.maxProbability),
    ("interpretations", .ofList Report.ofReading r.readings)]

def render (jsonMode : Bool) (r : EvaluationReport) : String :=
  if jsonMode then Report.json r.toJson else r.text

end EvaluationReport

structure CheckReport where
  file : String
  satisfiable : Bool

namespace CheckReport

def toJson (r : CheckReport) : Json :=
  .record [("file", .ofString r.file), ("satisfiable", .bool r.satisfiable)]

def render (jsonMode : Bool) (r : CheckReport) : String :=
  if jsonMode then Report.json r.toJson
  else Report.lines [if r.satisfiable then "satisfiable" else "unsatisfiable"]

end CheckReport

end FeatureLogic
