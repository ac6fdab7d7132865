import FeatureLogic.Constraint.Basic
import FeatureLogic.SortedSet
/-!
Sets of constraints, one for each kind.
-/
set_option autoImplicit false

namespace FeatureLogic

structure ConstraintSet (W : Type) [Weight W] where
  absolutes : SortedSet Absolute
  relatives : SortedSet Relative
  choices : SortedSet (Choice W)

namespace ConstraintSet
variable {W : Type} [Weight W]

def empty : ConstraintSet W := ⟨.empty, .empty, .empty⟩

instance : EmptyCollection (ConstraintSet W) := ⟨empty⟩
instance : Inhabited (ConstraintSet W) := ⟨empty⟩

def contains (s : ConstraintSet W) : Constraint W → Bool
  | .absolute c => s.absolutes.contains c
  | .relative c => s.relatives.contains c
  | .choice c => s.choices.contains c

def insert (s : ConstraintSet W) : Constraint W → ConstraintSet W
  | .absolute c => { s with absolutes := s.absolutes.insert c }
  | .relative c => { s with relatives := s.relatives.insert c }
  | .choice c => { s with choices := s.choices.insert c }

/-- Whether the constraint is new to the set, and the set with it. -/
def insertNew (s : ConstraintSet W) (c : Constraint W) : Bool × ConstraintSet W :=
  (!s.contains c, s.insert c)

def insertAll (s : ConstraintSet W) (cs : List (Constraint W)) : ConstraintSet W :=
  cs.foldl insert s

def ofList (cs : List (Constraint W)) : ConstraintSet W := empty.insertAll cs

/-- Relative constraints come first, so that values are checked on shared structure. -/
def toList (s : ConstraintSet W) : List (Constraint W) :=
  s.relatives.toList.map .relative ++ s.absolutes.toList.map .absolute ++
    s.choices.toList.map .choice

def size (s : ConstraintSet W) : Nat := s.absolutes.size + s.relatives.size + s.choices.size

def isEmpty (s : ConstraintSet W) : Bool := s.size = 0

/-- The slots that constraints mention, ascending. -/
def slots (s : ConstraintSet W) : List SlotIndex :=
  (SortedSet.ofList (s.toList.flatMap Constraint.slots)).toList

def mentions (s : ConstraintSet W) (i : SlotIndex) : Bool := s.toList.any (·.mentions i)

def mentionsRoot (s : ConstraintSet W) : Bool := s.toList.any (·.mentionsRoot)

/-- The best probability that any interpretation could reach. -/
def maxProbability (s : ConstraintSet W) : W :=
  s.choices.toList.foldl (fun p c => Weight.times p c.maxProbability) Weight.certain

instance : Ord (ConstraintSet W) :=
  ⟨compareLex (compareOn absolutes) (compareLex (compareOn relatives) (compareOn choices))⟩

end ConstraintSet

end FeatureLogic
