/-!
TOML values, and adding to tables by keys and by headers.
-/
set_option autoImplicit false

namespace FeatureLogic

namespace Toml

/-- How a table came to be: written between braces, by dotted keys, on the way to the table of some
header, or by a header of its own. -/
inductive Origin where
  | inline
  | dotted
  | implied
  | header
  deriving DecidableEq

end Toml

/-- A number that is out of range, or not in order in a place where nobody has looked yet, has no
value. Dates and times are not looked into. -/
inductive Toml where
  | string (text : String)
  | integer (value : Option Int)
  | float (value : Option Float)
  | boolean (value : Bool)
  | moment
  | array (ofTables : Bool) (items : List Toml)
  | table (origin : Toml.Origin) (entries : List (String × Toml))

namespace Toml

instance : Inhabited Toml := ⟨.moment⟩

abbrev Entries := List (String × Toml)

def find? (name : String) (es : Entries) : Option Toml :=
  (es.find? fun e => e.1 == name).map (·.2)

/-- Gives a name that is present another value. -/
def replace (name : String) (value : Toml) (es : Entries) : Entries :=
  es.map fun e => if e.1 == name then (name, value) else e

mutual

/-- Whether every number in it has a value. -/
def isReadable : Toml → Bool
  | integer value => value.isSome
  | float value => value.isSome
  | array _ items => allReadable items
  | table _ es => entriesReadable es
  | _ => true

def allReadable : List Toml → Bool
  | [] => true
  | item :: items => item.isReadable && allReadable items

def entriesReadable : List (String × Toml) → Bool
  | [] => true
  | (_, value) :: es => value.isReadable && entriesReadable es

end

/-- A key with points makes a table its own that was only on the way to others. -/
def Origin.through (dotted : Bool) : Origin → Origin
  | implied => if dotted then .dotted else .implied
  | origin => origin

/-- What is to be done to the table that a path leads to. -/
abbrev Change := Origin → Entries → Option (Origin × Entries)

/-- Makes a change at the end of a path, with new tables where there are none. Of an array of tables
the last one is meant. Nothing is added to an inline table, and no dotted key leads through a table
that has a header, unless it is one of an array. -/
def change (dotted : Bool) (act : Change) : List String → Change
  | [], origin, es => act origin es
  | name :: names, origin, es =>
    match find? name es with
    | none => do
      let (inner, below) ← change dotted act names (Origin.implied.through dotted) []
      return (origin, es ++ [(name, .table inner below)])
    | some (.table inner below) =>
      if inner = .inline || (dotted && inner = .header) then none
      else do
        let (inner, below) ← change dotted act names (inner.through dotted) below
        return (origin, replace name (.table inner below) es)
    | some (.array true items) =>
      match items.reverse with
      | .table inner below :: before => do
        let (inner, below) ← change dotted act names inner below
        return (origin, replace name (.array true (.table inner below :: before).reverse) es)
      | _ => none
    | some _ => none

/-- A new entry; after a dotted key only in a table made by dotted keys. -/
def addEntry (dotted : Bool) (name : String) (value : Toml) : Change := fun origin es =>
  if dotted != (origin == .dotted) || (find? name es).isSome then none
  else some (origin, es ++ [(name, value)])

/-- Opens a table that a header asks for: a new one, or one that was on the way to another. -/
def openTable (name : String) : Change := fun origin es =>
  match find? name es with
  | none => some (origin, es ++ [(name, .table .header [])])
  | some (.table .implied below) => some (origin, replace name (.table .header below) es)
  | some _ => none

/-- Opens one more table of an array of tables. -/
def openItem (name : String) : Change := fun origin es =>
  match find? name es with
  | none => some (origin, es ++ [(name, .array true [.table .header []])])
  | some (.array true items) =>
    some (origin, replace name (.array true (items ++ [.table .header []])) es)
  | some _ => none

/-- Adds the value of a key, which is dotted if it has more than one part. -/
def addPair (names : List String) (value : Toml) : Change := fun origin es =>
  match names.reverse with
  | [] => none
  | last :: before =>
    let dotted := !before.isEmpty
    change dotted (addEntry dotted last value) before.reverse origin es

/-- Opens the table, or one more table, that a header names. -/
def open? (act : String → Change) (names : List String) : Change := fun origin es =>
  match names.reverse with
  | [] => none
  | last :: before => change false (act last) before.reverse origin es

end Toml

end FeatureLogic
