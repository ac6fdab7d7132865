import FeatureLogic.Arena.Basic
import FeatureLogic.FeatureTree
/-!
Copying structures from one arena into another. Nodes copied already are found in a clone map, so
nodes that are shared are shared in the copy as well.
-/
set_option autoImplicit false

namespace FeatureLogic

/-- From source positions to the positions of their copies. -/
abbrev CloneMap := SortedMap NodeId NodeId

/-- Which branches are copied. -/
inductive Selection where
  | everything
  | named (tree : FeatureTree)

namespace Selection

def below? : Selection → Feature → Option Selection
  | everything, _ => some everything
  | named tree, f => (tree.child? f).map named

/-- A node that a selection leaves without features becomes empty. -/
def content : Selection → List (Feature × NodeId) → Content
  | named _, [] => .empty
  | _, kept => .complex (SortedMap.ofList kept)

end Selection

/-- The arena copied into, and the copies it holds so far. -/
structure Copying where
  target : Arena
  copies : CloneMap

namespace Copying

/-- Room for copies in an arena that holds none. -/
def start (target : Arena) : Copying := ⟨target, .empty⟩

def copyChildren (copy : Selection → NodeId → Copying → NodeId × Copying) (s : Selection) :
    List (Feature × NodeId) → Copying → List (Feature × NodeId) × Copying
  | [], c => ([], c)
  | (f, child) :: rest, c =>
    match s.below? f with
    | none => copyChildren copy s rest c
    | some below =>
      let (n, c) := copy below child c
      let (others, c) := copyChildren copy s rest c
      ((f, n) :: others, c)

/-- Copies at most `depth` nodes down. A node takes its place after its children. -/
def copyWithin (source : Arena) : Nat → Selection → NodeId → Copying → NodeId × Copying
  | 0, _, _, c =>
    let (copy, target) := c.target.alloc .empty
    (copy, { c with target })
  | depth + 1, s, n, c =>
    let n := source.resolve n
    match c.copies.get? n with
    | some copy => (copy, c)
    | none =>
      let (content, c) :=
        match source.content n with
        | .complex children =>
          let (kept, c) := copyChildren (copyWithin source depth) s children.entries c
          (s.content kept, c)
        | content => (content, c)
      let (copy, target) := c.target.alloc content
      (copy, ⟨target, c.copies.insert n copy⟩)

/-- Copies the selected part of the structure under `n`. -/
def select (c : Copying) (source : Arena) (s : Selection) (n : NodeId) : NodeId × Copying :=
  copyWithin source source.size s n c

/-- Copies the structure under `n`. -/
def copy (c : Copying) (source : Arena) (n : NodeId) : NodeId × Copying :=
  c.select source .everything n

end Copying

end FeatureLogic
