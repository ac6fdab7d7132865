import FeatureLogic.Json.Basic
/-!
Reading records out of JSON values.
-/
set_option autoImplicit false

namespace FeatureLogic.Json

def toText? : Json → Option String
  | string s => s
  | _ => none

def toBool? : Json → Option Bool
  | bool b => some b
  | _ => none

def toIndex? : Json → Option UInt32
  | number n => n.toIndex?
  | _ => none

def toFloat? : Json → Option Float
  | number n => n.toFloat?
  | _ => none

def toList? {α : Type} (f : Json → Option α) : Json → Option (List α)
  | array items => items.mapM f
  | _ => none

/-- A text, or `null` for none. -/
def toOptionalText? : Json → Option (Option String)
  | null => some none
  | j => j.toText?.map some

def texts? : Json → Option (List String) := toList? toText?

/-- The one member of that name, if there is one. A repeat is refused. -/
def member? (name : String) (members : List (Option String × Json)) : Option (Option Json) :=
  match members.filter fun m => m.1 == some name with
  | [] => some none
  | [(_, j)] => some (some j)
  | _ => none

/-- The fields of a record, which is an object or a list of its first fields in order. Members of
other names are passed over. -/
def fields? (names : List String) : Json → Option (List (Option Json))
  | object members =>
    if members.all (·.1.isSome) then names.mapM fun name => member? name members else none
  | array items =>
    if items.length ≤ names.length then
      some (items.map some ++ List.replicate (names.length - items.length) none)
    else none
  | _ => none

def required {α : Type} (f : Json → Option α) : Option Json → Option α
  | some j => f j
  | none => none

def optional {α : Type} (default : α) (f : Json → Option α) : Option Json → Option α
  | some j => f j
  | none => some default

mutual

/-- Whether every string has its text, every number is in range, and containers nest at most
`depth` deep. -/
def isReadable (depth : Nat) : Json → Bool
  | null => true
  | bool _ => true
  | number n => n.toFloat?.isSome
  | string s => s.isSome
  | array items => depth != 0 && areReadable (depth - 1) items
  | object members => depth != 0 && membersAreReadable (depth - 1) members

def areReadable (depth : Nat) : List Json → Bool
  | [] => true
  | j :: js => j.isReadable depth && areReadable depth js

def membersAreReadable (depth : Nat) : List (Option String × Json) → Bool
  | [] => true
  | (name, j) :: ms => name.isSome && j.isReadable depth && membersAreReadable depth ms

end

end FeatureLogic.Json
