import FeatureLogic.Arena.Basic
/-!
Building below a node. A step that fails gives its error together with the arena as it left it.
-/
set_option autoImplicit false

namespace FeatureLogic.Arena

/-- Puts `child` under `f` in the node at position `n`, which becomes complex if it was empty. -/
def attach (g : Arena) (n : NodeId) (f : Feature) (child : NodeId) : Arena :=
  match g.cells[n]? with
  | some (.holds (.complex children)) => g.set n (.holds (.complex (children.insert f child)))
  | _ => g.set n (.holds (.complex (SortedMap.singleton f child)))

/-- The child under `f`, a new empty node if there is none. -/
def childOrCreate (g : Arena) (n : NodeId) (f : Feature) :
    Except StructureError NodeId × Arena :=
  let (n, g) := g.dechain n
  match g.content n with
  | .atom _ => (.error .atomicNode, g)
  | _ =>
    match g.child? n f with
    | some child => (.ok child, g)
    | none =>
      let (child, g) := g.alloc .empty
      (.ok child, g.attach n f child)

/-- The end of the path, which is created as far as it is absent. -/
def materialize (g : Arena) (n : NodeId) : Path → Except StructureError NodeId × Arena
  | [] =>
    let (n, g) := g.dechain n
    (.ok n, g)
  | f :: p =>
    match g.childOrCreate n f with
    | (.ok child, g) => g.materialize child p
    | (.error e, g) => (.error e, g)

/-- Makes `target` the node at a path that does not exist yet. -/
def linkPath (g : Arena) (n : NodeId) (p : Path) (target : NodeId) :
    Except StructureError Unit × Arena :=
  match Path.splitLast? p with
  | none => (.error .emptyPath, g)
  | some (up, last) =>
    match g.materialize n up with
    | (.error e, g) => (.error e, g)
    | (.ok parent, g) =>
      match g.content parent with
      | .atom _ => (.error .atomicNode, g)
      | _ =>
        match g.child? parent last with
        | some _ => (.error (.valueExists p), g)
        | none => (.ok (), g.attach parent last target)

/-- A new leaf at a path. The leaf takes its place in the arena even if the path is refused. -/
def createValue (g : Arena) (n : NodeId) (p : Path) (a : Atom) :
    Except StructureError NodeId × Arena :=
  let (leaf, g) := g.alloc (.leaf a)
  match g.linkPath n p leaf with
  | (.ok (), g) => (.ok leaf, g)
  | (.error e, g) => (.error e, g)

def assignAtom (g : Arena) (n : NodeId) (a : Atom) : Except StructureError Unit × Arena :=
  let (n, g) := g.dechain n
  match g.content n with
  | .empty => (.ok (), g.set n (.holds (.leaf a)))
  | .atom _ => (.error (.valueExists []), g)
  | .complex _ => (.error .atomicNode, g)

end FeatureLogic.Arena
