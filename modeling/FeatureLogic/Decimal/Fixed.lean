import FeatureLogic.Decimal.Binary
/-!
Decimals with a set number of places.
-/
set_option autoImplicit false

namespace FeatureLogic

/-- The nearest whole number to a quotient; of two, the even one. -/
def roundDiv (num den : Nat) : Nat :=
  let q := num / den
  match compare (2 * (num % den)) den with
  | .lt => q
  | .gt => q + 1
  | .eq => q + q % 2

def padLeft (width : Nat) (cs : List Char) : List Char :=
  List.replicate (width - cs.length) '0' ++ cs

namespace Binary

/-- The magnitude rounded to `places` digits after the point, which are at least one. -/
def fixedDigits (places : Nat) (b : Binary) : String :=
  let (num, den) := ratio b.significand b.exponent (-(places : Int))
  let scaled := roundDiv num den
  let unit := Nat.pow 10 places
  String.ofList (Nat.toDigits 10 (scaled / unit) ++
    '.' :: padLeft places (Nat.toDigits 10 (scaled % unit)))

end Binary

end FeatureLogic
