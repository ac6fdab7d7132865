/-!
Interned names. Features label the edges of a structure, atoms its leaves; both are numbers that
the engine only compares.
-/
set_option autoImplicit false

namespace FeatureLogic

structure Feature where
  id : UInt32
  deriving DecidableEq, Inhabited

structure Atom where
  id : UInt32
  deriving DecidableEq, Inhabited

abbrev SlotIndex := UInt32

namespace Feature

instance : Ord Feature := ⟨compareOn Feature.id⟩

instance : Std.TransOrd Feature := inferInstanceAs (Std.TransCmp (compareOn Feature.id))

instance : Std.LawfulEqOrd Feature where
  eq_of_compare {f g} h := by
    cases f; cases g
    exact congrArg Feature.mk (Std.LawfulEqOrd.eq_of_compare h)

def render (f : Feature) : String := "#" ++ toString f.id.toNat

end Feature

namespace Atom

instance : Ord Atom := ⟨compareOn Atom.id⟩

instance : Std.TransOrd Atom := inferInstanceAs (Std.TransCmp (compareOn Atom.id))

instance : Std.LawfulEqOrd Atom where
  eq_of_compare {a b} h := by
    cases a; cases b
    exact congrArg Atom.mk (Std.LawfulEqOrd.eq_of_compare h)

/-- The atom of leaves that have no atom. Names are numbered from 1. -/
def null : Atom := ⟨0⟩

def isNull (a : Atom) : Bool := a = null

def render (a : Atom) : String := if a.isNull then "_" else "@" ++ toString a.id.toNat

end Atom

end FeatureLogic
