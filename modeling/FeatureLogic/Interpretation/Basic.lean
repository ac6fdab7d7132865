import FeatureLogic.Constraint.Set
import FeatureLogic.Structure.Basic
/-!
Interpretations: a structure for each of some slots, with a probability. The slots share one arena,
so constraints can make slots share nodes.
-/
set_option autoImplicit false

namespace FeatureLogic

/-- An interpretation without slots has failed. -/
structure Interpretation (W : Type) where
  arena : Arena
  slots : SortedMap SlotIndex NodeId
  probability : W

namespace Interpretation
variable {W : Type}

def isFailed (i : Interpretation W) : Bool := i.slots.isEmpty

def fail (i : Interpretation W) : Interpretation W := { i with slots := .empty }

/-- The structure in a slot, in the arena of the interpretation. -/
def slot? (i : Interpretation W) (index : SlotIndex) : Option FeatureStructure :=
  (i.slots.get? index).map fun n => ⟨i.arena, i.arena.resolve n⟩

/-- The structure in a slot, in an arena of its own. -/
def structure? (i : Interpretation W) (index : SlotIndex) : Option FeatureStructure :=
  (i.slots.get? index).map fun n => FeatureStructure.compact ⟨i.arena, n⟩

variable [Weight W]

/-- A copy of one structure, in one slot. -/
def ofStructure (index : SlotIndex) (s : FeatureStructure) : Interpretation W :=
  let (root, c) := (Copying.start .empty).copy s.arena s.root
  ⟨c.target, .singleton index root, Weight.certain⟩

/-- Only an absent path is given the value: an empty node at the path does not take it. -/
def checkAbsolute (i : Interpretation W) (c : Absolute) : Bool × Interpretation W :=
  match i.slots.get? c.term.slot with
  | none => (true, i)
  | some root =>
    match i.arena.lookup root c.term.path with
    | .found n => (i.arena.content n = .atom c.value, i)
    | .missing =>
      match i.arena.createValue root c.term.path c.value with
      | (.ok _, arena) => (true, { i with arena })
      | (.error _, arena) => (false, { i with arena })
    | .blocked => (false, i)

/-- Values that clash clear the slots. A path through an atom leaves them. -/
def checkRelative (i : Interpretation W) (c : Relative) : Bool × Interpretation W :=
  match i.slots.get? c.lhs.slot, i.slots.get? c.rhs.slot with
  | some lhs, some rhs =>
    match i.arena.materialize lhs c.lhs.path with
    | (.error _, arena) => (false, { i with arena })
    | (.ok l, arena) =>
      match arena.materialize rhs c.rhs.path with
      | (.error _, arena) => (false, { i with arena })
      | (.ok r, arena) =>
        match arena.unify l r with
        | (true, arena) => (true, { i with arena })
        | (false, arena) => (false, fail { i with arena })
  | _, _ => (true, i)

/-- A value that is absent has the greatest weight, one that is empty or complex has none. -/
def checkChoice (i : Interpretation W) (c : Choice W) : Bool × Interpretation W :=
  match i.slots.get? c.term.slot with
  | none => (true, i)
  | some root =>
    match i.arena.lookup root c.term.path with
    | .missing => (true, { i with probability := Weight.times i.probability c.maxProbability })
    | .blocked => (false, i)
    | .found n =>
      match i.arena.content n with
      | .atom a =>
        match c.probability? a with
        | some p => (true, { i with probability := Weight.times i.probability p })
        | none => (false, { i with probability := Weight.impossible })
      | _ => (false, i)

def check (i : Interpretation W) : Constraint W → Bool × Interpretation W
  | .absolute c => i.checkAbsolute c
  | .relative c => i.checkRelative c
  | .choice c => i.checkChoice c

/-- Checks constraints in turn, up to the first that fails. -/
def checkAll : List (Constraint W) → Interpretation W → Bool × Interpretation W
  | [], i => (true, i)
  | c :: cs, i =>
    match i.check c with
    | (true, i) => checkAll cs i
    | (false, i) => (false, i)

/-- Checks the constraints whose slots are all assigned, adding the values and the sharing that they
ask for, and works out the probability anew. -/
def eval (i : Interpretation W) (s : ConstraintSet W) : Bool × Interpretation W :=
  let i := { i with probability := Weight.certain }
  if i.isFailed then (false, i) else checkAll s.toList i

end Interpretation

end FeatureLogic
