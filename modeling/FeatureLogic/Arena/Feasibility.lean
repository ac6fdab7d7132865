import FeatureLogic.Arena.Basic
/-!
A test for clashes that changes nothing: whether two nodes, of one arena or of two, hold different
values at a path that both have.
-/
set_option autoImplicit false

namespace FeatureLogic.Arena

/-- Compares at most `depth` nodes down. Positions for which `known` holds are one node. -/
def feasibleWithin (known : NodeId → NodeId → Bool) (g h : Arena) :
    Nat → NodeId → NodeId → Bool
  | 0, _, _ => true
  | depth + 1, l, r =>
    known (g.resolve l) (h.resolve r) ||
    match g.content l, h.content r with
    | .empty, _ => true
    | _, .empty => true
    | .atom a, .atom b => a = b
    | .complex left, .complex right =>
      left.entries.all fun (f, child) =>
        match right.get? f with
        | none => true
        | some other => feasibleWithin known g h depth child other
    | _, _ => false

/-- Whether node `l` of `g` and node `r` of another arena have no clash. -/
def possiblyUnifiable (g : Arena) (l : NodeId) (h : Arena) (r : NodeId) : Bool :=
  feasibleWithin (fun _ _ => false) g h g.size l r

/-- Whether two nodes of one arena have no clash. -/
def possiblyUnifiableHere (g : Arena) (l r : NodeId) : Bool :=
  feasibleWithin (fun m n => m = n) g g g.size l r

end FeatureLogic.Arena
