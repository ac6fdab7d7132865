import FeatureLogic.Symbol
/-!
Paths of features, from a node down to a value below it. The empty path leads to the node itself.
-/
set_option autoImplicit false

namespace FeatureLogic

abbrev Path := List Feature

namespace Path

def child (p : Path) (f : Feature) : Path := p ++ [f]

/-- The last feature, after the path that leads up to it. -/
def splitLast? : Path → Option (Path × Feature)
  | [] => none
  | [f] => some ([], f)
  | f :: g :: p => (splitLast? (g :: p)).map fun (up, last) => (f :: up, last)

def isPrefixOf (p q : Path) : Bool := List.isPrefixOf p q

def render (p : Path) : String := "<" ++ " ".intercalate (p.map Feature.render) ++ ">"

@[simp] theorem splitLast?_child (p : Path) (f : Feature) :
    splitLast? (p.child f) = some (p, f) := by
  induction p with
  | nil => rfl
  | cons g p ih =>
    cases p with
    | nil => rfl
    | cons h p => simpa [child, splitLast?] using ih

end Path

end FeatureLogic
