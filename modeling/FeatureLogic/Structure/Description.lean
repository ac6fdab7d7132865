import FeatureLogic.Structure.Basic
/-!
Flat descriptions of structures: the values at some paths, and pairs of paths that lead to one
node.
-/
set_option autoImplicit false

namespace FeatureLogic

structure Description where
  values : List (Path × Atom) := []
  equivalences : List (Path × Path) := []
  deriving DecidableEq

namespace Description

def isEmpty (d : Description) : Bool := d.values.isEmpty && d.equivalences.isEmpty

/-- The root takes the value of the empty path, if one is given. -/
def placeRootValue (root : NodeId) (values : List (Path × Atom)) (g : Arena) :
    Except StructureError Arena :=
  match values.filter (·.1.isEmpty) with
  | [] => .ok g
  | [(_, a)] =>
    match g.assignAtom root a with
    | (.ok (), g) => .ok g
    | (.error e, _) => .error e
  | _ => .error .duplicateRootValue

def placeValues (root : NodeId) : List (Path × Atom) → Arena → Except StructureError Arena
  | [], g => .ok g
  | (p, a) :: values, g =>
    match g.createValue root p a with
    | (.ok _, g) => placeValues root values g
    | (.error e, _) => .error e

/-- Merges the nodes at both paths, or links the path that is absent to the node at the other. -/
def placeEquivalence (root : NodeId) (p q : Path) (g : Arena) : Except StructureError Arena :=
  match g.lookup root p, g.lookup root q with
  | .blocked, _ => .error .atomicNode
  | _, .blocked => .error .atomicNode
  | .found l, .found r =>
    match g.unify l r with
    | (true, g) => .ok g
    | (false, _) => .error (.inconsistentEquivalence p q)
  | .found target, .missing =>
    match g.linkPath root q target with
    | (.ok (), g) => .ok g
    | (.error e, _) => .error e
  | .missing, .found target =>
    match g.linkPath root p target with
    | (.ok (), g) => .ok g
    | (.error e, _) => .error e
  | .missing, .missing => .error (.unresolvedEquivalence p q)

def placeEquivalences (root : NodeId) : List (Path × Path) → Arena → Except StructureError Arena
  | [], g => .ok g
  | (p, q) :: pairs, g =>
    match placeEquivalence root p q g with
    | .ok g => placeEquivalences root pairs g
    | .error e => .error e

end Description

/-- The structure that a description gives. Values come before equivalences, each in order. -/
def FeatureStructure.ofDescription (d : Description) : Except StructureError FeatureStructure := do
  let (root, g) := Arena.empty.alloc .empty
  let g ← Description.placeRootValue root d.values g
  let g ← Description.placeValues root (d.values.filter (!·.1.isEmpty)) g
  let g ← Description.placeEquivalences root d.equivalences g
  return compact ⟨g, root⟩

end FeatureLogic
