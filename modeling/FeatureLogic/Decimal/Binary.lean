/-!
Finite binary64 numbers as a significand and a power of two, and their place on decimal grids.
-/
set_option autoImplicit false

namespace FeatureLogic

/-- `significand * 2 ^ exponent`, with a sign. -/
structure Binary where
  negative : Bool
  significand : Nat
  exponent : Int
  deriving DecidableEq

namespace Binary

/-- The bit before the fraction of a number, which is not written in its bits. -/
def leadingBit : Nat := Nat.pow 2 52

/-- Numbers only: the infinities and what is no number have no significand. -/
def ofFloat? (x : Float) : Option Binary :=
  let bits := x.toBits.toNat
  let biased : Nat := bits / leadingBit % 2048
  let fraction : Nat := bits % leadingBit
  let negative : Bool := Nat.pow 2 63 ≤ bits
  if biased = 2047 then none
  else if biased = 0 then some ⟨negative, fraction, -1074⟩
  else some ⟨negative, leadingBit + fraction, (biased : Int) - 1075⟩

/-- The numerator and the denominator of `a * 2 ^ p / 10 ^ e`. -/
def ratio (a : Nat) (p e : Int) : Nat × Nat :=
  (a * Nat.pow 2 p.toNat * Nat.pow 10 (-e).toNat, Nat.pow 10 e.toNat * Nat.pow 2 (-p).toNat)

/-- Compares `a * 2 ^ p` with `d * 10 ^ e`. -/
def compareDecimal (a : Nat) (p : Int) (d : Nat) (e : Int) : Ordering :=
  let (num, den) := ratio a p e
  compare num (d * den)

end Binary

end FeatureLogic
