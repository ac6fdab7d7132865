import FeatureLogic.Constraint.Set
import FeatureLogic.Structure.Basic
/-!
Option tables: the candidates for each slot.
-/
set_option autoImplicit false

namespace FeatureLogic

abbrev OptionColumn := List FeatureStructure

/-- The empty structure alone, which merges with anything. -/
def OptionColumn.wildcard : OptionColumn := [.empty]

abbrev OptionTable := SortedMap SlotIndex OptionColumn

namespace OptionTable
variable {W : Type} [Weight W]

/-- Adds a candidate at the end of a column. -/
def push (t : OptionTable) (i : SlotIndex) (s : FeatureStructure) : OptionTable :=
  t.insert i ((t.get? i).getD [] ++ [s])

/-- The constrained slots without a column. -/
def uncovered (t : OptionTable) (cs : ConstraintSet W) : List SlotIndex :=
  cs.slots.filter fun i => !t.contains i

/-- A wildcard column for every constrained slot that has none. -/
def addWildcards (t : OptionTable) (cs : ConstraintSet W) : OptionTable :=
  (t.uncovered cs).foldl (fun t i => t.insert i .wildcard) t

end OptionTable

end FeatureLogic
