import FeatureLogic.SortedMap
import FeatureLogic.Symbol
/-!
Problems as they are written down, in names: the candidates for each slot and the constraints over
the slots.
-/
set_option autoImplicit false

namespace FeatureLogic

namespace Document

/-- Without an atom the value is an empty leaf. -/
structure Value where
  path : List String
  atom : Option String
  deriving DecidableEq

structure Candidate where
  values : List Value
  equivalences : List (List String × List String)
  deriving DecidableEq

/-- Candidates for one slot. They come after those of earlier entries for that slot. -/
structure Slot where
  index : SlotIndex
  options : List Candidate
  deriving DecidableEq

structure Term where
  index : SlotIndex
  path : List String
  deriving DecidableEq

inductive Requirement (W : Type) where
  | absolute (term : Term) (value : String)
  | relative (lhs rhs : Term)
  | choice (term : Term) (distribution : SortedMap String W)

end Document

structure Document (W : Type) where
  slots : List Document.Slot
  constraints : List (Document.Requirement W)

end FeatureLogic
