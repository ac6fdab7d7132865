/-!
JSON values as they are written: members keep their order and their repeats, numbers keep their
digits.
-/
set_option autoImplicit false

namespace FeatureLogic

/-- A number literal. Without digits after the point there is no point. -/
structure Json.Number where
  negative : Bool
  whole : List Char
  fraction : List Char
  exponent : Option Int
  deriving DecidableEq

/-- A string has no text when one of its escapes is half of a surrogate pair. -/
inductive Json where
  | null
  | bool (b : Bool)
  | number (n : Json.Number)
  | string (text : Option String)
  | array (items : List Json)
  | object (members : List (Option String × Json))

namespace Json

instance : Inhabited Json := ⟨null⟩

def Number.ofNat (n : Nat) : Number := ⟨false, Nat.toDigits 10 n, [], none⟩

def ofNat (n : Nat) : Json := .number (.ofNat n)

def ofString (s : String) : Json := .string (some s)

def ofList {α : Type} (f : α → Json) (as : List α) : Json := .array (as.map f)

def record (members : List (String × Json)) : Json :=
  .object (members.map fun (name, value) => (some name, value))

def digitValue (c : Char) : Nat := c.toNat - '0'.toNat

namespace Number

/-- Takes digits into a significand for as long as it fits into 64 bits, and gives those left. -/
def absorb : Nat → List Char → Nat × List Char
  | s, [] => (s, [])
  | s, c :: cs =>
    let next := s * 10 + digitValue c
    if next < Nat.pow 2 64 then absorb next cs else (s, c :: cs)

def isInteger (n : Number) : Bool := n.fraction.isEmpty && n.exponent.isNone

/-- Minus zero is no index, and neither is a number with a point or an exponent. -/
def toIndex? (n : Number) : Option UInt32 :=
  let value := n.whole.foldl (fun v c => v * 10 + digitValue c) 0
  if n.isInteger && !n.negative && value < Nat.pow 2 32 then some (UInt32.ofNat value) else none

/-- Powers up to 308 are multiplied or divided by in one step. A number too large is refused. -/
def scale (f : Float) (e : Int) : Option Float :=
  let power (k : Nat) : Float := Float.ofScientific 1 false k
  if 0 ≤ e then
    if e ≤ 308 then
      let g := f * power e.toNat
      if g.isInf then none else some g
    else if f == 0.0 then some f else none
  else if -308 ≤ e then some (f / power (-e).toNat)
  else if -616 ≤ e then some (f / power 308 / power (-(e + 308)).toNat)
  else some 0.0

/-- The number with the first digits as significand; digits that do not fit are not looked at. -/
def toFloat? (n : Number) : Option Float :=
  let (s, rest) := absorb 0 n.whole
  let (s, dropped) := absorb s n.fraction
  let e := (rest.length : Int) - (n.fraction.length - dropped.length : Nat) + n.exponent.getD 0
  let f := (UInt64.ofNat s).toFloat
  let g := if n.isInteger && rest.isEmpty then some f else scale f e
  if n.negative then g.map (- ·) else g

end Number

end Json

end FeatureLogic
