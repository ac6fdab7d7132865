import FeatureLogic.Arena.Creation
/-!
Merging two nodes of an arena in place. A failure leaves the arena as far as it was merged.
-/
set_option autoImplicit false

namespace FeatureLogic.Arena

/-- Puts each child below `n`, merging it with the child that `n` has under that feature. -/
def mergeChildren (merge : Arena → NodeId → NodeId → Option (Bool × Arena)) (n : NodeId) :
    List (Feature × NodeId) → Arena → Option (Bool × Arena)
  | [], g => some (true, g)
  | (f, child) :: rest, g =>
    let (target, g) := g.dechain n
    match g.child? target f with
    | none => mergeChildren merge n rest (g.attach target f child)
    | some own =>
      match merge g child own with
      | some (true, g) => mergeChildren merge n rest g
      | outcome => outcome

/-- Merges two nodes, at most `depth` nodes down. No answer means that the structure goes deeper. -/
def unifyWithin : Nat → Arena → NodeId → NodeId → Option (Bool × Arena)
  | 0, _, _, _ => none
  | depth + 1, g, l, r =>
    let (l, g) := g.dechain l
    let (r, g) := g.dechain r
    if l = r then some (true, g)
    else
      match g.content l, g.content r with
      | .empty, _ => some (true, g.redirect l r)
      | _, .empty => some (true, g.redirect r l)
      | .atom a, .atom b => if a = b then some (true, g.redirect l r) else some (false, g)
      | .complex children, .complex _ =>
        match mergeChildren (unifyWithin depth) r children.entries g with
        | some (true, g) =>
          let (l, g) := g.dechain l
          let (r, g) := g.dechain r
          some (true, if l = r then g else g.redirect l r)
        | outcome => outcome
      | _, _ => some (false, g)

/-- Merges two nodes into one that holds what both held; `false` when their values clash. A
structure without cycles is nowhere deeper than its arena has nodes. -/
def unify (g : Arena) (l r : NodeId) : Bool × Arena :=
  (unifyWithin g.size g l r).getD (false, g)

end FeatureLogic.Arena
