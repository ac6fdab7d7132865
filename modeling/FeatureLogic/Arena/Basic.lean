import FeatureLogic.SortedMap
import FeatureLogic.StructureError
/-!
Arenas of nodes. A node holds content or forwards to another node: merging two nodes moves neither,
it makes one of them forward to the other. Reading follows the chain of forwarding nodes to its end.
-/
set_option autoImplicit false

namespace FeatureLogic

/-- The position of a node in its arena. -/
abbrev NodeId := Nat

inductive Content where
  | empty
  | atom (a : Atom)
  | complex (children : SortedMap Feature NodeId)
  deriving DecidableEq

namespace Content

instance : Inhabited Content := ⟨empty⟩

/-- The null atom gives an empty leaf. -/
def leaf (a : Atom) : Content := if a.isNull then empty else atom a

def children : Content → List (Feature × NodeId)
  | complex children => children.entries
  | _ => []

/-- Null unless the content is an atom. -/
def atom? : Content → Atom
  | atom a => a
  | _ => Atom.null

def isEmpty : Content → Bool
  | empty => true
  | _ => false

def isAtomic : Content → Bool
  | atom _ => true
  | _ => false

def isComplex : Content → Bool
  | complex _ => true
  | _ => false

end Content

inductive Cell where
  | holds (content : Content)
  | forwards (target : NodeId)
  deriving DecidableEq

instance : Inhabited Cell := ⟨.holds .empty⟩

structure Arena where
  cells : Array Cell
  deriving DecidableEq

/-- What following a path leads to: a node, a feature that is absent, or an atom on the way. -/
inductive Lookup (α : Type) where
  | found (a : α)
  | missing
  | blocked
  deriving DecidableEq

namespace Lookup
variable {α β : Type}

def map (f : α → β) : Lookup α → Lookup β
  | found a => found (f a)
  | missing => missing
  | blocked => blocked

/-- To ask for features of an atom is an error, to ask for an absent one is not. -/
def toExcept : Lookup α → Except StructureError (Option α)
  | found a => .ok (some a)
  | missing => .ok none
  | blocked => .error .atomicNode

end Lookup

namespace Arena

def empty : Arena := ⟨#[]⟩

instance : Inhabited Arena := ⟨empty⟩

def size (g : Arena) : Nat := g.cells.size

def isEmpty (g : Arena) : Bool := g.cells.isEmpty

def alloc (g : Arena) (c : Content) : NodeId × Arena := (g.size, ⟨g.cells.push (.holds c)⟩)

def set (g : Arena) (n : NodeId) (c : Cell) : Arena := ⟨g.cells.setIfInBounds n c⟩

/-- The node that the first `k` steps of the chain from `n` lead to. -/
def follow (g : Arena) : Nat → NodeId → NodeId
  | 0, n => n
  | k + 1, n =>
    match g.cells[n]? with
    | some (.forwards next) => g.follow k next
    | _ => n

/-- The end of the chain from `n`. A chain that ends has fewer steps than the arena has nodes. -/
def resolve (g : Arena) (n : NodeId) : NodeId := g.follow g.size n

/-- Makes the nodes on the first `k` steps of the chain from `n` forward to `target`. -/
def shorten (target : NodeId) : Nat → NodeId → Arena → Arena
  | 0, _, g => g
  | k + 1, n, g =>
    if n = target then g
    else
      match g.cells[n]? with
      | some (.forwards next) => shorten target k next (g.set n (.forwards target))
      | _ => g

/-- The end of the chain from `n`, to which the whole chain now forwards directly. -/
def dechain (g : Arena) (n : NodeId) : NodeId × Arena :=
  (g.resolve n, shorten (g.resolve n) g.size n g)

def redirect (g : Arena) (source target : NodeId) : Arena := g.set source (.forwards target)

def content (g : Arena) (n : NodeId) : Content :=
  match g.cells[g.resolve n]? with
  | some (.holds c) => c
  | _ => .empty

def child? (g : Arena) (n : NodeId) (f : Feature) : Option NodeId :=
  match g.content n with
  | .complex children => children.get? f
  | _ => none

def lookup (g : Arena) (n : NodeId) : Path → Lookup NodeId
  | [] => .found (g.resolve n)
  | f :: p =>
    match g.content n with
    | .empty => .missing
    | .atom _ => .blocked
    | .complex children =>
      match children.get? f with
      | some child => g.lookup child p
      | none => .missing

@[simp] theorem size_set (g : Arena) (n : NodeId) (c : Cell) : (g.set n c).size = g.size := by
  simp [set, size]

@[simp] theorem size_alloc (g : Arena) (c : Content) : (g.alloc c).2.size = g.size + 1 := by
  simp [alloc, size]

@[simp] theorem size_shorten (target : NodeId) (k : Nat) (n : NodeId) (g : Arena) :
    (shorten target k n g).size = g.size := by
  induction k generalizing n g with
  | zero => rfl
  | succ k ih =>
    simp only [shorten]
    split
    · rfl
    · split
      · simp [ih]
      · rfl

@[simp] theorem size_dechain (g : Arena) (n : NodeId) : (g.dechain n).2.size = g.size := by
  simp [dechain]

end Arena

end FeatureLogic
