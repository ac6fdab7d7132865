import FeatureLogic.Document.Basic
import FeatureLogic.Search.Basic
import FeatureLogic.Structure.Description
import FeatureLogic.Vocabulary
/-!
Compiling documents: names become numbers in the order in which they are written, those of all slots
before those of the constraints.
-/
set_option autoImplicit false

namespace FeatureLogic

structure Problem (W : Type) [Weight W] where
  table : OptionTable
  constraints : ConstraintSet W
  vocabulary : Vocabulary

namespace Vocabulary
variable {W : Type} [Weight W]

def values (v : Vocabulary) : List Document.Value → List (Path × Atom) × Vocabulary
  | [] => ([], v)
  | value :: rest =>
    let (p, v) := v.path value.path
    let (a, v) :=
      match value.atom with
      | some name => v.atom name
      | none => (.null, v)
    let (others, v) := v.values rest
    ((p, a) :: others, v)

def equivalences (v : Vocabulary) :
    List (List String × List String) → List (Path × Path) × Vocabulary
  | [] => ([], v)
  | (lhs, rhs) :: rest =>
    let (p, v) := v.path lhs
    let (q, v) := v.path rhs
    let (others, v) := v.equivalences rest
    ((p, q) :: others, v)

def description (v : Vocabulary) (c : Document.Candidate) : Description × Vocabulary :=
  let (values, v) := v.values c.values
  let (equivalences, v) := v.equivalences c.equivalences
  (⟨values, equivalences⟩, v)

def term (v : Vocabulary) (t : Document.Term) : PathTerm × Vocabulary :=
  let (p, v) := v.path t.path
  (⟨t.index, p⟩, v)

def weights (v : Vocabulary) : List (String × W) → List (Atom × W) × Vocabulary
  | [] => ([], v)
  | (name, w) :: rest =>
    let (a, v) := v.atom name
    let (others, v) := v.weights rest
    ((a, w) :: others, v)

def constraint (v : Vocabulary) : Document.Requirement W → Constraint W × Vocabulary
  | .absolute t value =>
    let (t, v) := v.term t
    let (a, v) := v.atom value
    (.absolute ⟨t, a⟩, v)
  | .relative lhs rhs =>
    let (l, v) := v.term lhs
    let (r, v) := v.term rhs
    (.relative ⟨l, r⟩, v)
  | .choice t distribution =>
    let (t, v) := v.term t
    let (ws, v) := v.weights distribution.entries
    (.choice ⟨t, SortedMap.ofList ws⟩, v)

def constraints (v : Vocabulary) :
    List (Document.Requirement W) → List (Constraint W) × Vocabulary
  | [] => ([], v)
  | k :: rest =>
    let (c, v) := v.constraint k
    let (others, v) := v.constraints rest
    (c :: others, v)

end Vocabulary

namespace Problem
variable {W : Type} [Weight W]

def compileOptions (index : SlotIndex) :
    List Document.Candidate → OptionTable → Vocabulary →
      Except StructureError (OptionTable × Vocabulary)
  | [], t, v => .ok (t, v)
  | c :: rest, t, v =>
    let (d, v) := v.description c
    match FeatureStructure.ofDescription d with
    | .ok s => compileOptions index rest (t.push index s) v
    | .error e => .error e

def compileSlots :
    List Document.Slot → OptionTable → Vocabulary →
      Except StructureError (OptionTable × Vocabulary)
  | [], t, v => .ok (t, v)
  | s :: rest, t, v =>
    match compileOptions s.index s.options t v with
    | .ok (t, v) => compileSlots rest t v
    | .error e => .error e

/-- Fails on the first candidate whose description gives no structure. -/
def ofDocument (d : Document W) : Except StructureError (Problem W) :=
  match compileSlots d.slots .empty .empty with
  | .ok (table, v) =>
    let (constraints, vocabulary) := v.constraints d.constraints
    .ok ⟨table, .ofList constraints, vocabulary⟩
  | .error e => .error e

def addWildcards (p : Problem W) : Problem W :=
  { p with table := p.table.addWildcards p.constraints }

/-- How many columns `addWildcards` adds. -/
def wildcardCount (p : Problem W) : Nat := (p.table.uncovered p.constraints).length

def eval (p : Problem W) (settings : SearchSettings) : SearchOutcome W :=
  Search.eval settings p.table p.constraints

def isSatisfiable (p : Problem W) (settings : SearchSettings) : Bool := (p.eval settings).found

/-- The interpretations in names. -/
def render (p : Problem W) (is : List (Interpretation W)) :
    Except UnknownSymbol (List (Reading W)) :=
  is.mapM p.vocabulary.render

end Problem

end FeatureLogic
