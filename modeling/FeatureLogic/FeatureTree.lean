import FeatureLogic.Path
/-!
Finite sets of paths that hold every path on the way to one of their own.
-/
set_option autoImplicit false

namespace FeatureLogic

/-- First child, next sibling: a node is the list of its branches, in ascending feature order. -/
inductive FeatureTree where
  | leaf
  | branch (f : Feature) (below siblings : FeatureTree)
  deriving DecidableEq

namespace FeatureTree

instance : Inhabited FeatureTree := ⟨leaf⟩

def isLeaf : FeatureTree → Bool
  | leaf => true
  | branch .. => false

def child? : FeatureTree → Feature → Option FeatureTree
  | leaf, _ => none
  | branch g below siblings, f => if f = g then some below else siblings.child? f

/-- Just the one path. -/
def ofPath : Path → FeatureTree
  | [] => leaf
  | f :: p => branch f (ofPath p) leaf

def insert : FeatureTree → Path → FeatureTree
  | t, [] => t
  | leaf, p => ofPath p
  | branch g below siblings, f :: p =>
    match compare f g with
    | .lt => branch f (ofPath p) (branch g below siblings)
    | .eq => branch g (below.insert p) siblings
    | .gt => branch g below (siblings.insert (f :: p))

def ofPaths (ps : List Path) : FeatureTree := ps.foldl insert leaf

def contains : FeatureTree → Path → Bool
  | _, [] => true
  | t, f :: p =>
    match t.child? f with
    | some below => below.contains p
    | none => false

/-- The maximal paths that go down one of the branches. -/
def branchLeaves : FeatureTree → List Path
  | leaf => []
  | branch f below siblings =>
    (if below.isLeaf then [[f]] else below.branchLeaves.map (f :: ·)) ++ siblings.branchLeaves

/-- The maximal paths, in order. -/
def leaves (t : FeatureTree) : List Path := if t.isLeaf then [[]] else t.branchLeaves

@[simp] theorem contains_nil (t : FeatureTree) : t.contains [] = true := by cases t <;> rfl

theorem contains_cons (t : FeatureTree) (f : Feature) (p : Path) :
    t.contains (f :: p) = match t.child? f with
      | some below => below.contains p
      | none => false := by cases t <;> rfl

end FeatureTree

end FeatureLogic
