import FeatureLogic.Toml.Number
/-!
Dates and times as TOML writes them.
-/
set_option autoImplicit false

namespace FeatureLogic.Toml

/-- A number of exactly `width` digits, from `low` to `high`. -/
def field? (width low high : Nat) (cs : List Char) : Option (Nat × List Char) :=
  let ds := cs.take width
  if ds.length = width && ds.all Char.isDigit then
    let value := valueOf 10 ds
    if low ≤ value && value ≤ high then some (value, cs.drop width) else none
  else none

def expect? (c : Char) : List Char → Option (List Char)
  | d :: cs => if c = d then some cs else none
  | [] => none

def daysIn (year month : Nat) : Nat :=
  if month = 2 then
    if year % 4 = 0 && (year % 100 != 0 || year % 400 = 0) then 29 else 28
  else if [4, 6, 9, 11].contains month then 30
  else 31

def date? (cs : List Char) : Option (List Char) := do
  let (year, cs) ← field? 4 0 9999 cs
  let cs ← expect? '-' cs
  let (month, cs) ← field? 2 1 12 cs
  let cs ← expect? '-' cs
  let (_, cs) ← field? 2 1 (daysIn year month) cs
  return cs

/-- Seconds, and fractions of them, may be left out. -/
def time? (cs : List Char) : Option (List Char) := do
  let (_, cs) ← field? 2 0 23 cs
  let cs ← expect? ':' cs
  let (_, cs) ← field? 2 0 59 cs
  match cs with
  | ':' :: cs =>
    let (_, cs) ← field? 2 0 60 cs
    match cs with
    | '.' :: cs =>
      if (cs.takeWhile Char.isDigit).isEmpty then none else some (cs.dropWhile Char.isDigit)
    | cs => some cs
  | cs => some cs

def isOffset : List Char → Bool
  | [] => true
  | ['Z'] => true
  | ['z'] => true
  | c :: cs =>
    (c = '+' || c = '-') &&
      match field? 2 0 23 cs with
      | some (_, ':' :: cs) => (field? 2 0 59 cs).any (·.2.isEmpty)
      | _ => false

/-- A date, a time, or a date and a time with or without an offset. -/
def moment? (cs : List Char) : Option Toml :=
  match date? cs with
  | some [] => some .moment
  | some (c :: cs) =>
    if c = 'T' || c = 't' || c = ' ' then
      match time? cs with
      | some cs => if isOffset cs then some .moment else none
      | none => none
    else none
  | none =>
    match time? cs with
    | some [] => some .moment
    | _ => none

end FeatureLogic.Toml
