import FeatureLogic.Interpretation.Basic
/-!
The names behind features and atoms. Names are numbered as they are first seen, features from 0 and
atoms from 1.
-/
set_option autoImplicit false

namespace FeatureLogic

structure Vocabulary where
  features : Array String := #[]
  atoms : Array String := #[]
  deriving DecidableEq

inductive UnknownSymbol where
  | feature (f : Feature)
  | atom (a : Atom)
  deriving DecidableEq

def UnknownSymbol.message : UnknownSymbol → String
  | feature f => "Unknown symbol: feature " ++ f.render
  | atom a => "Unknown symbol: atom " ++ a.render

/-- An interpretation in names: the leaf paths of each slot with their atoms. -/
structure Reading (W : Type) where
  probability : W
  slots : List (SlotIndex × List (String × String))

namespace Vocabulary

def empty : Vocabulary := {}

instance : Inhabited Vocabulary := ⟨empty⟩

def featureId? (v : Vocabulary) (name : String) : Option Feature :=
  (v.features.idxOf? name).map fun k => ⟨UInt32.ofNat k⟩

def atomId? (v : Vocabulary) (name : String) : Option Atom :=
  (v.atoms.idxOf? name).map fun k => ⟨UInt32.ofNat (k + 1)⟩

/-- The feature of that name, a new one if there is none. -/
def feature (v : Vocabulary) (name : String) : Feature × Vocabulary :=
  match v.featureId? name with
  | some f => (f, v)
  | none => (⟨UInt32.ofNat v.features.size⟩, { v with features := v.features.push name })

/-- The atom of that name, a new one if there is none. -/
def atom (v : Vocabulary) (name : String) : Atom × Vocabulary :=
  match v.atomId? name with
  | some a => (a, v)
  | none => (⟨UInt32.ofNat (v.atoms.size + 1)⟩, { v with atoms := v.atoms.push name })

def path (v : Vocabulary) : List String → Path × Vocabulary
  | [] => ([], v)
  | name :: names =>
    let (f, v) := v.feature name
    let (p, v) := v.path names
    (f :: p, v)

def featureName (v : Vocabulary) (f : Feature) : Except UnknownSymbol String :=
  match v.features[f.id.toNat]? with
  | some name => .ok name
  | none => .error (.feature f)

/-- An underscore stands for the null atom. -/
def atomName (v : Vocabulary) (a : Atom) : Except UnknownSymbol String :=
  if a.isNull then .ok "_"
  else
    match v.atoms[a.id.toNat - 1]? with
    | some name => .ok name
    | none => .error (.atom a)

def renderPath (v : Vocabulary) (p : Path) : Except UnknownSymbol String := do
  let names ← p.mapM v.featureName
  return "<" ++ " ".intercalate names ++ ">"

def renderLeaf (v : Vocabulary) (leaf : Path × Atom) : Except UnknownSymbol (String × String) := do
  return (← v.renderPath leaf.1, ← v.atomName leaf.2)

def renderSlot (v : Vocabulary) (g : Arena) (slot : SlotIndex × NodeId) :
    Except UnknownSymbol (SlotIndex × List (String × String)) := do
  return (slot.1, ← (g.leaves slot.2).mapM v.renderLeaf)

def render {W : Type} (v : Vocabulary) (i : Interpretation W) :
    Except UnknownSymbol (Reading W) := do
  return ⟨i.probability, ← i.slots.entries.mapM (v.renderSlot i.arena)⟩

end Vocabulary

end FeatureLogic
