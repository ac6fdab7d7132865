import FeatureLogic.Json.Record
import FeatureLogic.Json.Reader
import FeatureLogic.Json.Writer
import FeatureLogic.Search.Basic
import FeatureLogic.Toml.Reader
/-!
Settings of evaluations and of the log. Every key may be left out, and unknown ones are passed over.
-/
set_option autoImplicit false

namespace FeatureLogic

inductive LogFormat where
  | text
  | json
  deriving DecidableEq

namespace LogFormat

def ofName? : String → Option LogFormat
  | "text" => some text
  | "json" => some json
  | _ => none

def name : LogFormat → String
  | text => "text"
  | json => "json"

/-- The name, or a table whose one key is the name and holds nothing. -/
def ofToml? : Toml → Option LogFormat
  | .string s => ofName? s
  | .table _ [(s, .table _ [])] => ofName? s
  | .table _ [(s, .array _ [])] => ofName? s
  | _ => none

end LogFormat

structure EvaluationSettings where
  quickCheck : Bool := true
  addWildcards : Bool := false
  deriving DecidableEq

structure Settings where
  evaluation : EvaluationSettings := {}
  logFormat : LogFormat := .text
  deriving DecidableEq

namespace Toml

def toBool? : Toml → Option Bool
  | boolean b => some b
  | _ => none

/-- The fields of a table, or of an array that lists the first of them in order. What other entries a
table has must be readable, what other items an array has need not. A date or a time counts as a
table without any of the fields. -/
def fields? (names : List String) : Toml → Option (List (Option Toml))
  | table _ es =>
    if es.all fun e => names.contains e.1 || e.2.isReadable then
      some (names.map fun name => find? name es)
    else none
  | array _ items => some (names.mapIdx fun k _ => items[k]?)
  | moment => some (names.map fun _ => none)
  | _ => none

def optional {α : Type} (default : α) (f : Toml → Option α) : Option Toml → Option α
  | some value => f value
  | none => some default

end Toml

namespace EvaluationSettings

def search (s : EvaluationSettings) : SearchSettings := ⟨s.quickCheck⟩

def ofToml? (value : Toml) : Option EvaluationSettings :=
  match value.fields? ["quick_check", "add_wildcards"] with
  | some [quickCheck, addWildcards] =>
    return ⟨← Toml.optional true Toml.toBool? quickCheck,
      ← Toml.optional false Toml.toBool? addWildcards⟩
  | _ => none

end EvaluationSettings

namespace Settings

def logFormat? (value : Toml) : Option LogFormat :=
  match value.fields? ["format"] with
  | some [format] => Toml.optional .text LogFormat.ofToml? format
  | _ => none

def ofToml? (value : Toml) : Option Settings :=
  match value.fields? ["evaluation", "log"] with
  | some [evaluation, log] =>
    return ⟨← Toml.optional {} EvaluationSettings.ofToml? evaluation,
      ← Toml.optional .text logFormat? log⟩
  | _ => none

def ofText? (s : String) : Option Settings :=
  (Toml.ofText? s).bind fun es => ofToml? (.table .header es)

def toJson (s : Settings) : Json :=
  .record [
    ("evaluation", .record [("quick_check", .bool s.evaluation.quickCheck),
      ("add_wildcards", .bool s.evaluation.addWildcards)]),
    ("log", .record [("format", .ofString s.logFormat.name)])]

end Settings

namespace SearchSettings

def ofJson? (j : Json) : Option SearchSettings :=
  match j.fields? ["quick_check"] with
  | some [quickCheck] => return ⟨← Json.optional true Json.toBool? quickCheck⟩
  | _ => none

def ofText? (s : String) : Option SearchSettings := (Json.ofText? s).bind ofJson?

def toJson (s : SearchSettings) : Json := .record [("quick_check", .bool s.quickCheck)]

end SearchSettings

end FeatureLogic
