import FeatureLogic.Arena.Basic
/-!
Listing the values below a node, and asking whether any are empty.
-/
set_option autoImplicit false

namespace FeatureLogic.Arena

/-- The leaves at most `depth` nodes down. -/
def leavesWithin (g : Arena) : Nat → NodeId → List (Path × Atom)
  | 0, _ => []
  | depth + 1, n =>
    match g.content n with
    | .complex children =>
      children.entries.flatMap fun (f, child) =>
        (g.leavesWithin depth child).map fun (p, a) => (f :: p, a)
    | content => [([], content.atom?)]

/-- Every leaf path below `n` with its atom, in path order. A shared leaf is under each path. The
bound is for cycles, along which leaves would be listed for ever: without them no path is as long as
the arena is large. -/
def leaves (g : Arena) (n : NodeId) : List (Path × Atom) := g.leavesWithin g.size n

def effectivelyEmptyWithin (g : Arena) : Nat → NodeId → Bool
  | 0, _ => true
  | depth + 1, n =>
    match g.content n with
    | .empty => true
    | .atom _ => false
    | .complex children => children.entries.all fun (_, child) => g.effectivelyEmptyWithin depth child

/-- Empty, or complex with children that are all effectively empty. -/
def isEffectivelyEmpty (g : Arena) (n : NodeId) : Bool := g.effectivelyEmptyWithin g.size n

def containsEmptyWithin (g : Arena) : Nat → NodeId → Bool
  | 0, _ => false
  | depth + 1, n =>
    match g.content n with
    | .empty => true
    | .atom _ => false
    | .complex children => children.entries.any fun (_, child) => g.containsEmptyWithin depth child

/-- Whether `n` or a node below it is empty. -/
def containsEmptyValue (g : Arena) (n : NodeId) : Bool := g.containsEmptyWithin g.size n

end FeatureLogic.Arena
