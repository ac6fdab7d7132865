/-!
Weights of atoms. The engine multiplies them, takes the larger of two, and tells them apart by a
total order; what they are is left open, so that it runs on machine numbers and on exact ones.
-/
set_option autoImplicit false

namespace FeatureLogic

class Weight (W : Type) extends Ord W where
  certain : W
  impossible : W
  times : W → W → W
  larger : W → W → W
  transOrd : Std.TransOrd W
  lawfulEqOrd : Std.LawfulEqOrd W

attribute [instance] Weight.transOrd Weight.lawfulEqOrd

/-- The bits of a number, read as sign and magnitude. Negative zero comes right before zero. -/
def floatRank (x : Float) : Int :=
  if x.toBits < 0x8000000000000000 then x.toBits.toNat
  else -((x.toBits - 0x8000000000000000).toNat : Int) - 1

theorem floatRank_injective {x y : Float} (h : floatRank x = floatRank y) : x = y := by
  have hbits : x.toBits = y.toBits := by
    unfold floatRank at h
    split at h <;> split at h
    · exact UInt64.toNat_inj.1 (by omega)
    · omega
    · omega
    · have : (x.toBits - 0x8000000000000000).toNat = (y.toBits - 0x8000000000000000).toNat := by
        omega
      have := congrArg (· + (0x8000000000000000 : UInt64)) (UInt64.toNat_inj.1 this)
      simpa only [UInt64.sub_add_cancel] using this
  obtain ⟨⟨bx, _⟩⟩ := x
  obtain ⟨⟨by', _⟩⟩ := y
  have : bx = by' := hbits
  subst this
  rfl

/-- Binary64 numbers under the total order of their bits. Of a number and one that is not a number
the larger is the number. -/
instance : Weight Float where
  compare x y := compare (floatRank x) (floatRank y)
  certain := 1.0
  impossible := 0.0
  times x y := x * y
  larger x y := if x < y then y else x
  transOrd := inferInstanceAs (Std.TransCmp (compareOn floatRank))
  lawfulEqOrd := {
    compare_self := fun {x} => @Std.ReflCmp.compare_self Int compare _ (floatRank x)
    eq_of_compare := fun h => floatRank_injective (Std.LawfulEqOrd.eq_of_compare h) }

end FeatureLogic
