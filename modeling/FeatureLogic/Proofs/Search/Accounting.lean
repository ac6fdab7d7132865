import FeatureLogic.Proofs.Search.Product
/-!
The log of a search. It has one entry for each pair of a candidate and an interpretation that does
not make it into the next generation, so for every column what is turned down and what survives add
up to all that was tried; and it stops with the first generation that is empty.
-/
set_option autoImplicit false

namespace FeatureLogic

namespace Search
open Interpretation

variable {W : Type}

variable [Weight W] {settings : SearchSettings} {cs : ConstraintSet W}
  {columns : List (SlotIndex × OptionColumn)} {slot : SlotIndex} {column : OptionColumn}
  {generation : List (Interpretation W)} {s : FeatureStructure} {k : Nat} {e : SearchEvent}
  {t : OptionTable}

/-- What happens at one column. -/
structure Round (W : Type) where
  slot : SlotIndex
  column : OptionColumn
  previous : List (Interpretation W)
  rejections : List SearchEvent
  survivors : List (Interpretation W)

namespace Round

def entry (r : Round W) : SlotIndex × OptionColumn := (r.slot, r.column)

def events (r : Round W) : List SearchEvent :=
  r.rejections ++ [.generation r.slot r.column.length r.survivors.length]

end Round

/-! ## All columns -/

example : (eval ⟨true⟩ agreementTable agreement).events =
    [.start none 2 3 true, .generation 1 1 1, .quickCheckRejected 2 1, .generation 2 2 1,
      .stop none 1] := by decide

end Search

end FeatureLogic
