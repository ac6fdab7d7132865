import FeatureLogic.Weight
import Mathlib.Algebra.Order.Ring.Rat
import Mathlib.Order.Std
/-!
Exact weights. A product of many weights, or the greatest of them, depends on the order they come in
if each step rounds. With exact weights it does not.
-/
set_option autoImplicit false

namespace FeatureLogic

/-- Weights that can be taken in any order. -/
structure Weight.Exact (W : Type) [Weight W] : Prop where
  times_right_comm (p q r : W) :
    Weight.times (Weight.times p q) r = Weight.times (Weight.times p r) q
  larger_right_comm (p q r : W) :
    Weight.larger (Weight.larger p q) r = Weight.larger (Weight.larger p r) q

instance : Weight Rat where
  certain := 1
  impossible := 0
  times := (· * ·)
  larger := max
  transOrd := inferInstance
  lawfulEqOrd := inferInstance

theorem Weight.exact_rat : Weight.Exact Rat where
  times_right_comm := mul_right_comm
  larger_right_comm := max_right_comm

end FeatureLogic
