import FeatureLogic.Document.Basic
import FeatureLogic.Json.Reader
import FeatureLogic.Json.Record
import FeatureLogic.Path
/-!
Reading problem documents from JSON text.
-/
set_option autoImplicit false

namespace FeatureLogic

open Json

namespace Document

def Value.ofJson? (j : Json) : Option Value :=
  match j.fields? ["path", "atom"] with
  | some [path, atom] =>
    return ⟨← optional [] texts? path, ← optional none toOptionalText? atom⟩
  | _ => none

def equivalence? : Json → Option (List String × List String)
  | .array [lhs, rhs] => return (← lhs.texts?, ← rhs.texts?)
  | _ => none

def Candidate.ofJson? (j : Json) : Option Candidate :=
  match j.fields? ["values", "equivalences"] with
  | some [values, equivalences] =>
    return ⟨← optional [] (toList? Value.ofJson?) values,
      ← optional [] (toList? equivalence?) equivalences⟩
  | _ => none

def Slot.ofJson? (j : Json) : Option Slot :=
  match j.fields? ["index", "options"] with
  | some [index, options] =>
    return ⟨← required toIndex? index, ← optional [] (toList? Candidate.ofJson?) options⟩
  | _ => none

def Term.ofJson? (j : Json) : Option Term :=
  match j.fields? ["index", "path"] with
  | some [index, path] => return ⟨← required toIndex? index, ← optional [] texts? path⟩
  | _ => none

def weighted? (member : Option String × Json) : Option (String × Float) :=
  return (← member.1, ← member.2.toFloat?)

/-- An object from atoms to weights. Of a repeated atom the last weight counts. -/
def distribution? : Json → Option (SortedMap String Float)
  | .object members => (members.mapM weighted?).map SortedMap.ofList
  | _ => none

/-- The kind of a constraint and its fields without the kind. -/
def tagged? : Json → Option (String × Json)
  | .object members =>
    match member? "type" members with
    | some (some kind) =>
      return (← kind.toText?, .object (members.filter fun m => m.1 != some "type"))
    | _ => none
  | .array (kind :: rest) => return (← kind.toText?, .array rest)
  | _ => none

/-- How deep a constraint may nest, in a document that nests at most 127 deep. -/
def constraintDepth : Nat := 125

/-- Members that are passed over have to be readable too. -/
def Requirement.ofJson? (j : Json) : Option (Requirement Float) := do
  guard (j.isReadable constraintDepth)
  let (kind, j) ← tagged? j
  match kind with
  | "abs" =>
    match ← j.fields? ["term", "value"] with
    | [term, value] => return .absolute (← required Term.ofJson? term) (← required toText? value)
    | _ => none
  | "rel" =>
    match ← j.fields? ["lhs", "rhs"] with
    | [lhs, rhs] => return .relative (← required Term.ofJson? lhs) (← required Term.ofJson? rhs)
    | _ => none
  | "var" =>
    match ← j.fields? ["term", "distribution"] with
    | [term, distribution] =>
      return .choice (← required Term.ofJson? term) (← required distribution? distribution)
    | _ => none
  | _ => none

def ofJson? (j : Json) : Option (Document Float) :=
  match j.fields? ["slots", "constraints"] with
  | some [slots, constraints] =>
    return ⟨← optional [] (toList? Slot.ofJson?) slots,
      ← optional [] (toList? Requirement.ofJson?) constraints⟩
  | _ => none

def ofText? (s : String) : Option (Document Float) := (Json.ofText? s).bind ofJson?

end Document

/-- A path written as the list of its feature numbers. -/
def Path.ofText? (s : String) : Option Path :=
  (Json.ofText? s).bind (toList? fun j => j.toIndex?.map Feature.mk)

end FeatureLogic
