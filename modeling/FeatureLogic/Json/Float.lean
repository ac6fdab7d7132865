import FeatureLogic.Decimal.Shortest
import FeatureLogic.Json.Basic
/-!
Binary64 numbers as JSON: the shortest digits that read back, with a point wherever that stays
short, and an exponent elsewhere.
-/
set_option autoImplicit false

namespace FeatureLogic

/-- At most 16 digits stand before the point, and at most 4 zeros right behind it. There is always a
digit after a point. -/
def Decimal.toNumber (negative : Bool) (d : Decimal) : Json.Number :=
  let digits := Nat.toDigits 10 d.digits
  let point : Int := digits.length + d.exponent
  if d.digits = 0 then ⟨negative, ['0'], ['0'], none⟩
  else if 0 < point && point ≤ 16 then
    let fraction := digits.drop point.toNat
    ⟨negative, digits.take point.toNat ++ List.replicate d.exponent.toNat '0',
      if fraction.isEmpty then ['0'] else fraction, none⟩
  else if -5 < point && point ≤ 0 then
    ⟨negative, ['0'], List.replicate (-point).toNat '0' ++ digits, none⟩
  else ⟨negative, digits.take 1, digits.drop 1, some (point - 1)⟩

/-- Null for what is not a finite number. -/
def Json.ofFloat (x : Float) : Json :=
  match Binary.ofFloat? x with
  | some b => .number (b.shortest.toNumber b.negative)
  | none => .null

end FeatureLogic
