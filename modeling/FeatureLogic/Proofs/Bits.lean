import FeatureLogic.Weight
/-!
Binary64 numbers bit for bit. What is not a number keeps its sign and its payload here, so that the
order tells apart all patterns of 64 bits. It is the order of the integers that the patterns are in
two's complement, once the greater of two negative magnitudes is made the smaller integer.
-/
set_option autoImplicit false

namespace FeatureLogic

/-- A pattern of 64 bits, read as a binary64 number. -/
structure Bits where
  pattern : UInt64
  deriving DecidableEq

namespace Bits
variable {x y : Bits}

/-- All bits but the sign are flipped if the sign is set. -/
def key (x : Bits) : Int64 :=
  x.pattern.toInt64 ^^^ ((x.pattern.toInt64 >>> 63).toUInt64 >>> 1).toInt64

theorem shift_sign (b : BitVec 64) :
    b.sshiftRight 63 >>> 1 = BitVec.cons false (BitVec.fill 63 b.msb) := by
  have hzero : ∀ c : BitVec 64, c.msb = false → c >>> 63 = 0#64 := by
    intro c hc
    have hlt := BitVec.msb_eq_false_iff_two_mul_lt.1 hc
    apply BitVec.eq_of_toNat_eq
    simp only [BitVec.toNat_ushiftRight, Nat.shiftRight_eq_div_pow, BitVec.toNat_ofNat]
    omega
  cases hb : b.msb with
  | false =>
    rw [BitVec.sshiftRight_eq_of_msb_false hb, hzero b hb]
    rfl
  | true =>
    rw [BitVec.sshiftRight_eq_of_msb_true hb, hzero (~~~b) (by simp [hb])]
    rfl

theorem toInt_key (x : Bits) : x.key.toInt =
    if x.pattern.toNat < 0x8000000000000000 then (x.pattern.toNat : Int)
    else 0x7FFFFFFFFFFFFFFF - x.pattern.toNat := by
  have hkey : x.key.toBitVec =
      x.pattern.toBitVec ^^^ (x.pattern.toBitVec.sshiftRight 63 >>> 1) := by
    simp [key, Int64.toBitVec_xor]
  rw [← Int64.toInt_toBitVec, hkey, shift_sign, ← UInt64.toNat_toBitVec]
  generalize x.pattern.toBitVec = b
  -- the sign and the other 63 bits apart
  rw [← BitVec.cons_msb_setWidth b, BitVec.msb_cons, BitVec.cons_xor_cons,
    BitVec.toInt_eq_msb_cond, BitVec.msb_cons, BitVec.toNat_cons', BitVec.toNat_cons']
  have hlt := (b.setWidth 63).isLt
  generalize b.setWidth 63 = m at *
  cases b.msb with
  | false => simpa using fun h => absurd hlt (Nat.not_lt.2 h)
  | true =>
    rw [BitVec.fill_true, BitVec.xor_allOnes, BitVec.toNat_not]
    simp
    omega

theorem key_injective (h : x.key = y.key) : x = y := by
  have hkey := x.toInt_key
  rw [h, toInt_key] at hkey
  have hpattern : x.pattern.toNat = y.pattern.toNat := by
    split at hkey <;> split at hkey <;> omega
  cases x
  cases y
  exact congrArg mk (UInt64.toNat_inj.1 hpattern)

/-- Multiplied as numbers, told apart as patterns. -/
instance : Weight Bits where
  compare := compareOn key
  certain := ⟨(1.0 : Float).toBits⟩
  impossible := ⟨(0.0 : Float).toBits⟩
  times x y := ⟨(Float.ofBits x.pattern * Float.ofBits y.pattern).toBits⟩
  larger x y := if Float.ofBits x.pattern < Float.ofBits y.pattern then y else x
  transOrd := inferInstanceAs (Std.TransCmp (compareOn key))
  lawfulEqOrd := {
    compare_self := fun {x} => @Std.ReflCmp.compare_self Int64 compare _ x.key
    eq_of_compare := fun h => key_injective (Std.LawfulEqOrd.eq_of_compare h) }

/-- The order of integers. -/
theorem compare_eq (x y : Bits) : compare x y = compare x.key.toInt y.key.toInt := by
  change compareOfLessAndEq x.key y.key = compareOfLessAndEq x.key.toInt y.key.toInt
  simp only [compareOfLessAndEq, Int64.lt_iff_toInt_lt, Int64.toInt_inj]

theorem floatRank_eq (x : Float) : floatRank x = (key ⟨x.toBits⟩).toInt := by
  have hsign : (0x8000000000000000 : UInt64).toNat = 0x8000000000000000 := rfl
  rw [toInt_key, floatRank]
  by_cases h : x.toBits < 0x8000000000000000
  · rw [if_pos h, if_pos (hsign ▸ UInt64.lt_iff_toNat_lt.1 h)]
  · have hle : 0x8000000000000000 ≤ x.toBits := UInt64.not_lt.1 h
    have hle' : 0x8000000000000000 ≤ x.toBits.toNat := hsign ▸ UInt64.le_iff_toNat_le.1 hle
    rw [if_neg h, if_neg (Nat.not_lt.2 hle'), UInt64.toNat_sub_of_le _ _ hle, hsign]
    dsimp only
    omega

/-- The order of the weights of the engine. -/
theorem compare_float (x y : Float) :
    compare x y = compare (⟨x.toBits⟩ : Bits) ⟨y.toBits⟩ := by
  rw [compare_eq, ← floatRank_eq, ← floatRank_eq]
  rfl

/-- Not a number with the sign set, infinity, zero and their opposites. -/
example : List.Pairwise (fun x y : Bits => compare x y = .lt)
    [⟨0xFFF8000000000001⟩, ⟨0xFFF8000000000000⟩, ⟨0xFFF0000000000000⟩, ⟨0xBFF0000000000000⟩,
      ⟨0x8000000000000000⟩, ⟨0⟩, ⟨0x3FF0000000000000⟩, ⟨0x7FF0000000000000⟩,
      ⟨0x7FF8000000000000⟩, ⟨0x7FF8000000000001⟩] := by
  decide

end Bits

end FeatureLogic
