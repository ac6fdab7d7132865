import FeatureLogic.Arena.Copying
import FeatureLogic.Arena.Feasibility
import FeatureLogic.Arena.Leaves
import FeatureLogic.Arena.Unification
/-!
Feature structures: a root node in an arena. Merges run on a copy of the arena, so one that fails
changes nothing.
-/
set_option autoImplicit false

namespace FeatureLogic

structure FeatureStructure where
  arena : Arena
  root : NodeId
  deriving DecidableEq

namespace FeatureStructure

def atomic (a : Atom) : FeatureStructure :=
  let (root, arena) := Arena.empty.alloc (.leaf a)
  ⟨arena, root⟩

def empty : FeatureStructure := atomic .null

instance : Inhabited FeatureStructure := ⟨empty⟩

/-- A copy in an arena of its own, which holds the reachable nodes and no others. -/
def compact (s : FeatureStructure) : FeatureStructure :=
  let (root, c) := (Copying.start .empty).copy s.arena s.root
  ⟨c.target, root⟩

/-- A copy of the branches that the tree names. -/
def select (s : FeatureStructure) (tree : FeatureTree) : FeatureStructure :=
  let (root, c) := (Copying.start .empty).select s.arena (.named tree) s.root
  ⟨c.target, root⟩

section Reading
variable (s : FeatureStructure)

def content : Content := s.arena.content s.root

def isAtomic : Bool := s.content.isAtomic

def isComplex : Bool := s.content.isComplex

def isEmpty : Bool := s.content.isEmpty

/-- Null unless the root is an atom. -/
def atom : Atom := s.content.atom?

def isEffectivelyEmpty : Bool := s.arena.isEffectivelyEmpty s.root

def containsEmptyValue : Bool := s.arena.containsEmptyValue s.root

def leaves : List (Path × Atom) := s.arena.leaves s.root

def features : List Feature := s.content.children.map (·.1)

/-- The structure under node `n`, in the same arena. -/
def below (n : NodeId) : FeatureStructure := ⟨s.arena, s.arena.resolve n⟩

def lookup (p : Path) : Lookup FeatureStructure := (s.arena.lookup s.root p).map s.below

/-- An error if the path runs through an atom. -/
def getPath (p : Path) : Except StructureError (Option FeatureStructure) := (s.lookup p).toExcept

def get (f : Feature) : Except StructureError (Option FeatureStructure) := s.getPath [f]

/-- Whether both paths exist and lead to one node. -/
def coindexed (p q : Path) : Bool :=
  match s.arena.lookup s.root p, s.arena.lookup s.root q with
  | .found m, .found n => m = n
  | _, _ => false

end Reading

/-- Adds a leaf at a path that does not exist yet. -/
def createValue (s : FeatureStructure) (p : Path) (a : Atom) :
    Except StructureError Unit × FeatureStructure :=
  let (outcome, arena) := s.arena.createValue s.root p a
  (outcome.map fun _ => (), ⟨arena, s.root⟩)

/-- What both structures hold, merged at their roots, unless they clash. -/
def unify? (s t : FeatureStructure) : Option FeatureStructure :=
  let (other, c) := (Copying.start s.arena).copy t.arena t.root
  match c.target.unify s.root other with
  | (true, arena) => some (compact ⟨arena, s.root⟩)
  | (false, _) => none

/-- Makes two paths lead to one node, creating them as far as they are absent; `none` when their
values clash. -/
def coindex (s : FeatureStructure) (p q : Path) :
    Except StructureError (Option FeatureStructure) :=
  match s.arena.materialize s.root p with
  | (.error e, _) => .error e
  | (.ok l, arena) =>
    match arena.materialize s.root q with
    | (.error e, _) => .error e
    | (.ok r, arena) =>
      match arena.unify l r with
      | (true, arena) => .ok (some (compact ⟨arena, s.root⟩))
      | (false, _) => .ok none

/-- Whether structures in two arenas have no clash, which `unify?` may still find below shared
nodes. -/
def possiblyUnifiable (s t : FeatureStructure) : Bool :=
  s.arena.possiblyUnifiable s.root t.arena t.root

end FeatureStructure

end FeatureLogic
