import FeatureLogic.Interpretation.Extension
import FeatureLogic.Options
import FeatureLogic.Search.Event
/-!
The search for the interpretations that satisfy a set of constraints, column by column. The first
column gives the first generation, and each further column crosses its candidates with the
generation before. In a generation the candidates come in turn, each with all of that generation.
-/
set_option autoImplicit false

namespace FeatureLogic

structure SearchSettings where
  quickCheck : Bool := true
  deriving DecidableEq

structure SearchOutcome (W : Type) where
  events : List SearchEvent
  results : List (Interpretation W)

namespace SearchOutcome
variable {W : Type}

def found (o : SearchOutcome W) : Bool := !o.results.isEmpty

end SearchOutcome

namespace Search
variable {W : Type} [Weight W]

/-- What becomes of a candidate that is paired with an interpretation. -/
inductive Attempt (W : Type) where
  | quickCheckRejected (candidate : Nat)
  | evalRejected (candidate : Nat)
  | survived (i : Interpretation W)

namespace Attempt

def survivor? : Attempt W → Option (Interpretation W)
  | survived i => some i
  | _ => none

def event? (slot : SlotIndex) : Attempt W → Option SearchEvent
  | quickCheckRejected k => some (.quickCheckRejected slot k)
  | evalRejected k => some (.evalRejected slot k)
  | survived _ => none

end Attempt

def attempt (settings : SearchSettings) (cs : ConstraintSet W) (slot : SlotIndex)
    (candidate : FeatureStructure) (number : Nat) (base : Interpretation W) : Attempt W :=
  let e : Extension W := ⟨base, slot, candidate⟩
  if settings.quickCheck && !e.quickCheck cs then .quickCheckRejected number
  else
    match e.merge.eval cs with
    | (true, i) => .survived i
    | (false, _) => .evalRejected number

def attempts (settings : SearchSettings) (cs : ConstraintSet W) (slot : SlotIndex)
    (column : OptionColumn) (generation : List (Interpretation W)) : List (Attempt W) :=
  column.zipIdx.flatMap fun (candidate, number) =>
    generation.map (attempt settings cs slot candidate number)

/-- Crosses a generation with the columns in turn, until none is left or nothing survives. -/
def run (settings : SearchSettings) (cs : ConstraintSet W) :
    List (SlotIndex × OptionColumn) → List (Interpretation W) → SearchOutcome W
  | [], generation => ⟨[.stop none generation.length], generation⟩
  | (slot, column) :: columns, generation =>
    if generation.isEmpty then ⟨[.stop none 0], []⟩
    else
      let tried := attempts settings cs slot column generation
      let next := tried.filterMap Attempt.survivor?
      let outcome := run settings cs columns next
      { outcome with
        events := tried.filterMap (Attempt.event? slot) ++
          .generation slot column.length next.length :: outcome.events }

/-- The candidates of the first column that satisfy the constraints on their own. -/
def seeds (cs : ConstraintSet W) (slot : SlotIndex) (column : OptionColumn) :
    List (Interpretation W) :=
  column.filterMap fun candidate =>
    match (Interpretation.ofStructure slot candidate).eval cs with
    | (true, i) => some i
    | (false, _) => none

/-- Every choice of one candidate per column that satisfies the constraints. There is none if a
constrained slot has no column. -/
def eval (settings : SearchSettings) (t : OptionTable) (cs : ConstraintSet W) : SearchOutcome W :=
  let start := SearchEvent.start none t.size cs.size settings.quickCheck
  match cs.slots.find? fun i => !t.contains i with
  | some i => ⟨[start, .stop (some i) 0], []⟩
  | none =>
    match t.entries with
    | [] => ⟨[start, .stop none 0], []⟩
    | (slot, column) :: columns =>
      let generation := seeds cs slot column
      let outcome := run settings cs columns generation
      { outcome with
        events := start :: .generation slot column.length generation.length :: outcome.events }

/-- Extends earlier interpretations by every column. A constrained slot needs a column, or to be
assigned in all of them. -/
def resume (settings : SearchSettings) (previous : List (Interpretation W)) (t : OptionTable)
    (cs : ConstraintSet W) : SearchOutcome W :=
  let start := SearchEvent.start (some previous.length) t.size cs.size settings.quickCheck
  match cs.slots.find? fun i => !(t.contains i || previous.all (·.slots.contains i)) with
  | some i => ⟨[start, .stop (some i) 0], []⟩
  | none =>
    let outcome := run settings cs t.entries previous
    { outcome with events := start :: outcome.events }

end Search

end FeatureLogic
