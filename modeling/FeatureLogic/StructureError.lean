import FeatureLogic.Path
set_option autoImplicit false

namespace FeatureLogic

/-- Why a structure cannot be built or addressed as asked. That two values clash is no error. -/
inductive StructureError where
  | emptyPath
  | atomicNode
  | valueExists (path : Path)
  | duplicateRootValue
  | unresolvedEquivalence (lhs rhs : Path)
  | inconsistentEquivalence (lhs rhs : Path)
  deriving DecidableEq

namespace StructureError

def message : StructureError → String
  | emptyPath => "Invalid Structure: empty path where a feature is required"
  | atomicNode => "Invalid Structure: cannot address features of an atomic value"
  | valueExists p => "Invalid Structure: value already exists at " ++ p.render
  | duplicateRootValue => "Invalid Structure: more than one value for the root"
  | unresolvedEquivalence p q =>
    "Invalid Structure: unresolved equivalence " ++ p.render ++ " = " ++ q.render
  | inconsistentEquivalence p q =>
    "Invalid Structure: inconsistent equivalence " ++ p.render ++ " = " ++ q.render

end StructureError

end FeatureLogic
