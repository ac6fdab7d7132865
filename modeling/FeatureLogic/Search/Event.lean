import FeatureLogic.Symbol
set_option autoImplicit false

namespace FeatureLogic

/-- What a search reports as it runs. `previous` counts the interpretations it resumes from. -/
inductive SearchEvent where
  | start (previous : Option Nat) (columns constraints : Nat) (quickCheck : Bool)
  | generation (slot : SlotIndex) (candidates survivors : Nat)
  | quickCheckRejected (slot : SlotIndex) (candidate : Nat)
  | evalRejected (slot : SlotIndex) (candidate : Nat)
  | stop (missingColumn : Option SlotIndex) (results : Nat)
  deriving DecidableEq

end FeatureLogic
