import FeatureLogic.Decimal.Binary
/-!
The shortest decimals that read back as a given binary number, and of those the nearest.
-/
set_option autoImplicit false

namespace FeatureLogic

/-- `digits * 10 ^ exponent` for a whole number written without zeros at its end. -/
structure Decimal where
  digits : Nat
  exponent : Int
  deriving DecidableEq

namespace Decimal

def stripZeros : Nat → Nat → Int → Decimal
  | 0, d, e => ⟨d, e⟩
  | steps + 1, d, e =>
    if d != 0 && d % 10 = 0 then stripZeros steps (d / 10) (e + 1) else ⟨d, e⟩

end Decimal

namespace Binary

/-- Whether `d * 10 ^ e` reads back as `b`: it is no further away than half the gap to the
neighbour, and an end of the interval belongs to the even significand. -/
def readsBack (b : Binary) (d : Nat) (e : Int) : Bool :=
  let even := b.significand % 2 = 0
  let narrow := b.significand = leadingBit && b.exponent != -1074
  let low := compareDecimal (4 * b.significand - (if narrow then 1 else 2)) (b.exponent - 2) d e
  let high := compareDecimal (4 * b.significand + 2) (b.exponent - 2) d e
  (low = .lt || (even && low = .eq)) && (high = .gt || (even && high = .eq))

/-- The point of the grid of `10 ^ e` that reads back as `b`, of two the nearer. -/
def onGrid? (b : Binary) (e : Int) : Option Nat :=
  let (num, den) := ratio b.significand b.exponent e
  let d := num / den
  match b.readsBack d e, b.readsBack (d + 1) e with
  | true, true =>
    match compare (2 * num) ((2 * d + 1) * den) with
    | .lt => some d
    | .gt => some (d + 1)
    | .eq => some (d + d % 2)
  | true, false => some d
  | false, true => some (d + 1)
  | false, false => none

/-- The exponent of the first power of ten above the magnitude. Magnitudes reach down to
`10 ^ (-324)`. -/
def magnitude (b : Binary) : Int :=
  let (num, den) := ratio b.significand b.exponent (-330)
  ((Nat.toDigits 10 (num / den)).length : Int) - 330

/-- Grids of 1, 2, up to 17 digits are tried in turn; the last one always has a point. -/
def shortest (b : Binary) : Decimal :=
  let top := b.magnitude
  let found := (List.range 17).findSome? fun k =>
    let e := top - (k + 1 : Nat)
    (b.onGrid? e).map fun d => (d, e)
  match found with
  | some (d, e) => Decimal.stripZeros 20 d e
  | none => ⟨0, 0⟩

end Binary

end FeatureLogic
