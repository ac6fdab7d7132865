import FeatureLogic.Interpretation.Basic
/-!
Adding a candidate to an interpretation, and a quick test that reads both in place.
-/
set_option autoImplicit false

namespace FeatureLogic

/-- An interpretation with a candidate for one slot that is not part of it yet. -/
structure Extension (W : Type) where
  base : Interpretation W
  slot : SlotIndex
  candidate : FeatureStructure

namespace Extension
variable {W : Type}

/-- Copies the structures of all slots, which go on sharing their nodes. -/
def copySlots (source : Arena) :
    List (SlotIndex × NodeId) → Copying → List (SlotIndex × NodeId) × Copying
  | [], c => ([], c)
  | (i, n) :: rest, c =>
    let (copy, c) := c.copy source n
    let (others, c) := copySlots source rest c
    ((i, copy) :: others, c)

/-- The candidate in its slot, or merged with the structure that is there. A clash is a failure. -/
def merge (e : Extension W) : Interpretation W :=
  let (slots, c) := copySlots e.base.arena e.base.slots.entries (.start .empty)
  let slots := SortedMap.ofList slots
  let (candidate, c) := (Copying.start c.target).copy e.candidate.arena e.candidate.root
  match slots.get? e.slot with
  | none => ⟨c.target, slots.insert e.slot candidate, e.base.probability⟩
  | some own =>
    match c.target.unify own candidate with
    | (true, arena) => ⟨arena, slots, e.base.probability⟩
    | (false, arena) => ⟨arena, .empty, e.base.probability⟩

variable [Weight W]

def admitsAbsolute (e : Extension W) (c : Absolute) : Bool :=
  match e.candidate.lookup c.term.path with
  | .found s =>
    match s.content with
    | .empty => true
    | .atom a => a = c.value
    | .complex _ => false
  | .missing => true
  | .blocked => false

def admitsChoice (e : Extension W) (c : Choice W) : Bool :=
  match e.candidate.lookup c.term.path with
  | .found s =>
    match s.content with
    | .empty => true
    | .atom a => (c.probability? a).isSome
    | .complex _ => false
  | .missing => true
  | .blocked => false

/-- Compares the candidate with the other slot, if that is assigned, or with itself. -/
def admitsRelative (e : Extension W) (c : Relative) : Bool :=
  let (own, other) := if c.lhs.slot = e.slot then (c.lhs, c.rhs) else (c.rhs, c.lhs)
  let s := e.candidate
  if other.slot = e.slot then
    match s.arena.lookup s.root own.path, s.arena.lookup s.root other.path with
    | .blocked, _ => false
    | _, .blocked => false
    | .found l, .found r => s.arena.possiblyUnifiableHere l r
    | _, _ => true
  else
    match e.base.slot? other.slot with
    | none => true
    | some t =>
      match s.arena.lookup s.root own.path, t.arena.lookup t.root other.path with
      | .blocked, _ => false
      | _, .blocked => false
      | .found l, .found r => s.arena.possiblyUnifiable l t.arena r
      | _, _ => true

def admits (e : Extension W) : Constraint W → Bool
  | .absolute c => e.admitsAbsolute c
  | .relative c => e.admitsRelative c
  | .choice c => e.admitsChoice c

/-- In a slot that is assigned the two structures are compared, in a free one the candidate is held
against each constraint on the slot. -/
def quickCheck (e : Extension W) (s : ConstraintSet W) : Bool :=
  match e.base.slot? e.slot with
  | some own => own.possiblyUnifiable e.candidate
  | none => (s.toList.filter (·.mentions e.slot)).all e.admits

end Extension

end FeatureLogic
