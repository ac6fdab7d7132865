import FeatureLogic.Path
import FeatureLogic.SortedMap
import FeatureLogic.Weight
/-!
Constraints on the structures in the slots: the value at a path is a given atom, the values at two
paths are one node, or the value at a path is one of some weighted atoms.

Their orders carry no meaning; they make sets of constraints possible.
-/
set_option autoImplicit false

namespace FeatureLogic

/-- A path inside one slot. -/
structure PathTerm where
  slot : SlotIndex
  path : Path
  deriving DecidableEq

namespace PathTerm

instance : Ord PathTerm := ⟨compareLex (compareOn slot) (compareOn path)⟩

instance : Std.TransOrd PathTerm :=
  inferInstanceAs (Std.TransCmp (compareLex (compareOn slot) (compareOn path)))

instance : Std.LawfulEqOrd PathTerm where
  eq_of_compare {s t} h := by
    cases s; cases t
    obtain ⟨h₁, h₂⟩ := Ordering.then_eq_eq.1 h
    exact congr (congrArg mk (Std.LawfulEqOrd.eq_of_compare h₁)) (Std.LawfulEqOrd.eq_of_compare h₂)

end PathTerm

/-- The value at `term` is `value`. -/
structure Absolute where
  term : PathTerm
  value : Atom
  deriving DecidableEq

namespace Absolute

instance : Ord Absolute := ⟨compareLex (compareOn term) (compareOn value)⟩

instance : Std.TransOrd Absolute :=
  inferInstanceAs (Std.TransCmp (compareLex (compareOn term) (compareOn value)))

end Absolute

/-- The values at `lhs` and `rhs` are one node. The pair is unordered. -/
structure Relative where
  lhs : PathTerm
  rhs : PathTerm
  deriving DecidableEq

namespace Relative

def first (c : Relative) : PathTerm := if (compare c.lhs c.rhs).isLE then c.lhs else c.rhs

def second (c : Relative) : PathTerm := if (compare c.lhs c.rhs).isLE then c.rhs else c.lhs

/-- By the smaller terms, then by the larger ones. -/
instance : Ord Relative := ⟨compareLex (compareOn first) (compareOn second)⟩

instance : Std.TransOrd Relative :=
  inferInstanceAs (Std.TransCmp (compareLex (compareOn first) (compareOn second)))

end Relative

abbrev Distribution (W : Type) := SortedMap Atom W

namespace Distribution
variable {W : Type}

/-- By the atoms and weights in turn; one that begins another is the smaller. -/
def compareEntries [Ord W] : List (Atom × W) → List (Atom × W) → Ordering :=
  List.compareLex (compareLex (compareOn Prod.fst) (compareOn Prod.snd))

instance [Ord W] [Std.TransOrd W] : Std.TransCmp (compareEntries (W := W)) :=
  inferInstanceAs (Std.TransCmp (List.compareLex _))

instance [Ord W] : Ord (Distribution W) := ⟨fun d e => compareEntries d.entries e.entries⟩

instance [Ord W] [Std.TransOrd W] : Std.TransOrd (Distribution W) where
  eq_swap {d e} := @Std.OrientedCmp.eq_swap _ compareEntries _ d.entries e.entries
  isLE_trans {d e f} := @Std.TransCmp.isLE_trans _ compareEntries _ d.entries e.entries f.entries

def greatest [Weight W] (d : Distribution W) : W :=
  d.values.foldl Weight.larger Weight.impossible

end Distribution

/-- The value at `term`, where there is one, is one of the weighted atoms. -/
structure Choice (W : Type) where
  term : PathTerm
  distribution : Distribution W

namespace Choice
variable {W : Type} [Weight W]

instance : Ord (Choice W) := ⟨compareLex (compareOn term) (compareOn distribution)⟩

instance : Std.TransOrd (Choice W) :=
  inferInstanceAs (Std.TransCmp (compareLex (compareOn term) (compareOn distribution)))

def probability? (c : Choice W) (a : Atom) : Option W := c.distribution.get? a

/-- The weight of a value that is still open. -/
def maxProbability (c : Choice W) : W := c.distribution.greatest

end Choice

/-- The slot that holds the root of a rule. -/
def rootSlot : SlotIndex := 0

inductive Constraint (W : Type) where
  | absolute (c : Absolute)
  | relative (c : Relative)
  | choice (c : Choice W)

namespace Constraint
variable {W : Type}

/-- The slots a constraint mentions, ascending and each once. -/
def slots : Constraint W → List SlotIndex
  | absolute c => [c.term.slot]
  | choice c => [c.term.slot]
  | relative c =>
    if c.first.slot = c.second.slot then [c.first.slot] else [c.first.slot, c.second.slot]

def mentions (i : SlotIndex) : Constraint W → Bool
  | absolute c => c.term.slot = i
  | choice c => c.term.slot = i
  | relative c => c.lhs.slot = i || c.rhs.slot = i

def mentionsRoot (c : Constraint W) : Bool := c.mentions rootSlot

/-- Absolute constraints come first, then relative ones, then choices. -/
instance [Weight W] : Ord (Constraint W) where
  compare
    | absolute c, absolute d => compare c d
    | absolute _, _ => .lt
    | _, absolute _ => .gt
    | relative c, relative d => compare c d
    | relative _, _ => .lt
    | _, relative _ => .gt
    | choice c, choice d => compare c d

end Constraint

end FeatureLogic
