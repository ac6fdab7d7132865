import FeatureLogic.Toml.Basic
/-!
Numbers as TOML writes them.
-/
set_option autoImplicit false

namespace FeatureLogic.Toml

/-- A digit of a base up to 16. -/
def digit? (base : Nat) (c : Char) : Option Nat :=
  let value :=
    if c.isDigit then c.toNat - 48
    else if 'a' ≤ c && c ≤ 'f' then c.toNat - 87
    else if 'A' ≤ c && c ≤ 'F' then c.toNat - 55
    else 16
  if value < base then some value else none

def isDigitOf (base : Nat) (c : Char) : Bool := (digit? base c).isSome

def valueOf (base : Nat) (cs : List Char) : Nat :=
  cs.foldl (fun v c => v * base + (digit? base c).getD 0) 0

def signed (negative : Bool) (n : Nat) : Int := if negative then -(n : Int) else n

def splitSign : List Char → Option Bool × List Char
  | '-' :: cs => (some true, cs)
  | '+' :: cs => (some false, cs)
  | cs => (none, cs)

def dropUnderscores (cs : List Char) : List Char := cs.filter (· != '_')

/-- Whether each underscore stands between two digits. What comes before the first character is
taken to be a digit if `before` says so. -/
def underscoresFit (base : Nat) : Bool → List Char → Bool
  | before, '_' :: c :: cs => before && isDigitOf base c && underscoresFit base true cs
  | _, ['_'] => false
  | _, c :: cs => underscoresFit base (isDigitOf base c) cs
  | _, [] => true

/-- Integers have values from `-2 ^ 127` to below `2 ^ 128`. -/
def inRange? (n : Int) : Option Int :=
  if -(Nat.pow 2 127 : Int) ≤ n && n < (Nat.pow 2 128 : Int) then some n else none

/-- The value of an integer without underscores. -/
def integerValue? (base : Nat) (negative : Bool) (ds : List Char) : Option Int :=
  if !ds.isEmpty && ds.all (isDigitOf base) then inRange? (signed negative (valueOf base ds))
  else none

/-- An integer after the mark of its base. It may even have no digits, and then has no value. -/
def based? (base : Nat) (cs : List Char) : Option Toml :=
  if underscoresFit base false cs && (dropUnderscores cs).all (isDigitOf base) then
    some (.integer (integerValue? base false (dropUnderscores cs)))
  else none

/-- An integer of base ten. Of several digits the first is no zero. Next to underscores the digits of
base 16 pass too, and behind them anything; then it has no value. -/
def integer? (sign : Option Bool) (cs : List Char) : Option Toml :=
  match cs with
  | '0' :: _ :: _ => none
  | cs =>
    if underscoresFit 16 sign.isSome cs then
      some (.integer (integerValue? 10 (sign.getD false) (dropUnderscores cs)))
    else none

/-- The digits at the start, at least one, and the rest. If `padded` does not allow it, zero is not
the first of several. -/
def digits? (padded : Bool) (cs : List Char) : Option (List Char × List Char) :=
  let isPart (c : Char) : Bool := c.isDigit || c = '_'
  let part := cs.takeWhile isPart
  let ds := dropUnderscores part
  if ds.isEmpty || (!padded && part.head? = some '0' && 1 < ds.length) then none
  else some (ds, cs.dropWhile isPart)

/-- The number `0.ds * 10 ^ e`, if it is finite. All from `10 ^ 400` on are infinite and all below
`10 ^ -400` zero. -/
def scientific? (ds : List Char) (e : Int) : Option Float :=
  let ds := ds.dropWhile (· = '0')
  let power := e - ds.length
  if ds.isEmpty || e < -400 then some 0.0
  else if 400 < e then none
  else
    let x := Float.ofScientific (valueOf 10 ds) (power < 0) power.natAbs
    if x.isInf then none else some x

/-- A number with a point or an exponent. -/
def float? (sign : Option Bool) (cs : List Char) : Option Toml := do
  let (whole, rest) ← digits? false cs
  let (fraction, rest) ←
    match rest with
    | '.' :: rest => digits? true rest
    | rest => some ([], rest)
  let (e, rest) ←
    match rest with
    | c :: rest =>
      if c = 'e' || c = 'E' then
        let (negative, rest) := splitSign rest
        (digits? true rest).map fun (ds, rest) =>
          (signed (negative.getD false) (valueOf 10 ds), rest)
      else none
    | [] => some (0, [])
  if rest.isEmpty && underscoresFit 10 sign.isSome cs then
    let ds := whole ++ fraction
    let value := scientific? ds (e + whole.length - (ds.takeWhile (· = '0')).length)
    return .float (value.map fun x => if sign = some true then -x else x)
  else none

end FeatureLogic.Toml
