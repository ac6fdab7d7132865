import FeatureLogic.Proofs.Search.Neutrality
/-!
The search as a filtered product. Going through the columns generation by generation comes to the
same as sending each choice of one candidate per column through the columns on its own, in an order
in which the last column changes most slowly.
-/
set_option autoImplicit false

namespace FeatureLogic.Search
open Interpretation

variable {W : Type} [Weight W] {cs : ConstraintSet W} {columns : List (SlotIndex × OptionColumn)}
  {slot : SlotIndex} {column : OptionColumn} {generation : List (Interpretation W)}
  {i r : Interpretation W} {picks : List Pick} {pick : Pick} {t : OptionTable}
  {settings : SearchSettings}

/-- Picks merged into an interpretation one by one, with the constraints checked after each. -/
def extend (cs : ConstraintSet W) : List Pick → Interpretation W → Option (Interpretation W)
  | [], i => some i
  | pick :: picks, i =>
    match (Extension.merge ⟨i, pick.1, pick.2⟩).eval cs with
    | (true, i) => extend cs picks i
    | (false, _) => none

/-- What the search makes of a choice of candidates, unless it drops it. -/
def trace (cs : ConstraintSet W) : List Pick → Option (Interpretation W)
  | [] => none
  | pick :: picks =>
    match (ofStructure pick.1 pick.2).eval cs with
    | (true, i) => extend cs picks i
    | (false, _) => none

/-- The interpretation that an evaluation leaves, if it passes. -/
def passed : Bool × Interpretation W → Option (Interpretation W)
  | (true, i) => some i
  | (false, _) => none

omit [Weight W] in
theorem passed_eq_some {outcome : Bool × Interpretation W} :
    passed outcome = some i ↔ outcome = (true, i) := by
  rcases outcome with ⟨_ | _, j⟩ <;> simp [passed]

theorem extend_cons (cs : ConstraintSet W) (pick : Pick) (picks : List Pick)
    (i : Interpretation W) : extend cs (pick :: picks) i =
      (passed ((Extension.merge ⟨i, pick.1, pick.2⟩).eval cs)).bind (extend cs picks) := by
  rw [extend]
  rcases (Extension.merge ⟨i, pick.1, pick.2⟩).eval cs with ⟨_ | _, j⟩ <;> rfl

theorem trace_cons (cs : ConstraintSet W) (pick : Pick) (picks : List Pick) :
    trace cs (pick :: picks) =
      (passed ((ofStructure pick.1 pick.2).eval cs)).bind (extend cs picks) := by
  rw [trace]
  rcases (ofStructure pick.1 pick.2).eval cs with ⟨_ | _, j⟩ <;> rfl

theorem extend_cons_eq_some : extend cs (pick :: picks) i = some r ↔
    ∃ j, (Extension.merge ⟨i, pick.1, pick.2⟩).eval cs = (true, j) ∧
      extend cs picks j = some r := by
  simp only [extend_cons, Option.bind_eq_some_iff, passed_eq_some]

theorem trace_cons_eq_some : trace cs (pick :: picks) = some r ↔
    ∃ j, (ofStructure pick.1 pick.2).eval cs = (true, j) ∧ extend cs picks j = some r := by
  simp only [trace_cons, Option.bind_eq_some_iff, passed_eq_some]

/-! ## Generations and choices -/

/-- All choices of one candidate per column. The candidate of the last column changes most
slowly. -/
def product : List (SlotIndex × OptionColumn) → List (List Pick)
  | [] => [[]]
  | (slot, column) :: columns =>
    (product columns).flatMap fun picks => column.map fun s => (slot, s) :: picks

theorem mem_product : picks ∈ product columns ↔ Picks columns picks := by
  induction columns generalizing picks with
  | nil => simp [product, Picks]
  | cons entry columns ih =>
    obtain ⟨slot, column⟩ := entry
    simp only [product, List.mem_flatMap, List.mem_map, picks_cons, ih]
    constructor
    · rintro ⟨rest, hrest, s, hs, rfl⟩
      exact ⟨s, hs, rest, hrest, rfl⟩
    · rintro ⟨s, hs, rest, hrest, rfl⟩
      exact ⟨rest, hrest, s, hs, rfl⟩

theorem seeds_eq (cs : ConstraintSet W) (slot : SlotIndex) (column : OptionColumn) :
    seeds cs slot column = column.filterMap fun s => passed ((ofStructure slot s).eval cs) := by
  refine congrArg (column.filterMap ·) (funext fun s => ?_)
  rcases (ofStructure slot s).eval cs with ⟨_ | _, j⟩ <;> rfl

/-- What a candidate makes of a generation. It is merged into each of the interpretations, unless
the quick check turns it down, and those that pass are kept. -/
def built (settings : SearchSettings) (cs : ConstraintSet W) (slot : SlotIndex)
    (generation : List (Interpretation W)) (s : FeatureStructure) : List (Interpretation W) :=
  generation.filterMap fun i =>
    if foreseen settings cs ⟨i, slot, s⟩ then none
    else passed ((Extension.merge ⟨i, slot, s⟩).eval cs)

theorem survivor?_attempt (settings : SearchSettings) (cs : ConstraintSet W) (slot : SlotIndex)
    (s : FeatureStructure) (number : Nat) (i : Interpretation W) :
    (attempt settings cs slot s number i).survivor? =
      if foreseen settings cs ⟨i, slot, s⟩ then none
      else passed ((Extension.merge ⟨i, slot, s⟩).eval cs) := by
  rcases attempt_cases settings cs slot s number i with
    ⟨hq, ha⟩ | ⟨hq, j, hj, ha⟩ | ⟨hq, ⟨j, hj⟩, ha⟩
  · rw [ha, hq, if_pos rfl]
    rfl
  · rw [ha, hq, hj, if_neg Bool.false_ne_true]
    rfl
  · rw [ha, hq, hj, if_neg Bool.false_ne_true]
    rfl

theorem survivors_eq (settings : SearchSettings) (cs : ConstraintSet W) (slot : SlotIndex)
    (column : OptionColumn) (generation : List (Interpretation W)) :
    (attempts settings cs slot column generation).filterMap Attempt.survivor? =
      column.flatMap (built settings cs slot generation) := by
  have hcolumn : column.zipIdx.map Prod.fst = column := List.zipIdx_map_fst ..
  conv_rhs => rw [← hcolumn, List.flatMap_map]
  simp only [attempts, List.filterMap_flatMap, List.filterMap_map, Function.comp_def,
    survivor?_attempt]
  rfl

theorem run_nil (settings : SearchSettings) (cs : ConstraintSet W)
    (columns : List (SlotIndex × OptionColumn)) : (run settings cs columns []).results = [] := by
  cases columns with
  | nil => rfl
  | cons entry columns => rfl

theorem run_cons (settings : SearchSettings) (cs : ConstraintSet W)
    (generation : List (Interpretation W)) :
    (run settings cs ((slot, column) :: columns) generation).results =
      (run settings cs columns ((attempts settings cs slot column generation).filterMap
        Attempt.survivor?)).results := by
  rw [run]
  split
  · rename_i hempty
    have hnone : attempts settings cs slot column generation = [] := by
      simp [attempts, List.isEmpty_iff.1 hempty]
    rw [hnone, List.filterMap_nil, run_nil]
  · rfl

/-- The generations of a search hold the ways of all choices. -/
theorem run_results (cs : ConstraintSet W) (columns : List (SlotIndex × OptionColumn))
    (generation : List (Interpretation W)) : (run ⟨false⟩ cs columns generation).results =
      (product columns).flatMap fun picks => generation.filterMap (extend cs picks) := by
  induction columns generalizing generation with
  | nil =>
    have hnil : extend cs [] = some := rfl
    simp [run, product, hnil]
  | cons entry columns ih =>
    obtain ⟨slot, column⟩ := entry
    rw [run_cons, ih, survivors_eq, product, List.flatMap_assoc]
    refine congrArg ((product columns).flatMap ·) (funext fun picks => ?_)
    rw [List.filterMap_flatMap, List.flatMap_map]
    refine congrArg (column.flatMap ·) (funext fun s => ?_)
    rw [built, List.filterMap_filterMap]
    exact congrArg (generation.filterMap ·)
      (funext fun i => (extend_cons cs (slot, s) picks i).symm)

theorem all_eq_isNone_find? (slots : List SlotIndex) (p : SlotIndex → Bool) :
    slots.all p = (slots.find? fun s => !p s).isNone := by
  rw [Bool.eq_iff_iff]
  simp [List.find?_eq_none]

theorem results_eval (settings : SearchSettings) (cs : ConstraintSet W)
    (ht : t.entries = (slot, column) :: columns) : (eval settings t cs).results =
      if cs.slots.all t.contains then (run settings cs columns (seeds cs slot column)).results
      else [] := by
  rw [eval, all_eq_isNone_find?]
  dsimp only
  cases cs.slots.find? fun s => !t.contains s with
  | some s => rfl
  | none =>
    rw [ht]
    rfl

/-- A run from the seeds of the first column. -/
theorem run_seeds_results (cs : ConstraintSet W) (slot : SlotIndex) (column : OptionColumn)
    (columns : List (SlotIndex × OptionColumn)) :
    (run ⟨false⟩ cs columns (seeds cs slot column)).results =
      (product ((slot, column) :: columns)).filterMap (trace cs) := by
  rw [run_results, product, seeds_eq, List.filterMap_flatMap]
  refine congrArg ((product columns).flatMap ·) (funext fun picks => ?_)
  rw [List.filterMap_filterMap, List.filterMap_map]
  exact congrArg (column.filterMap ·) (funext fun s => (trace_cons cs (slot, s) picks).symm)

/-- Without the quick check no assumption is needed. -/
theorem eval_results (cs : ConstraintSet W) (t : OptionTable) :
    (eval ⟨false⟩ t cs).results =
      if cs.slots.all t.contains then (product t.entries).filterMap (trace cs) else [] := by
  cases ht : t.entries with
  | nil =>
    have hempty : (eval ⟨false⟩ t cs).results = [] := by
      rw [eval, ht]
      dsimp only
      cases cs.slots.find? fun s => !t.contains s <;> rfl
    rw [hempty]
    simp [product, trace]
  | cons entry columns =>
    obtain ⟨slot, column⟩ := entry
    rw [results_eval ⟨false⟩ cs ht, run_seeds_results]

theorem eval_results_of_covered (settings : SearchSettings)
    (hcovered : ∀ s ∈ cs.slots, t.contains s = true) (hc : Candidates t.entries)
    (hA : AcyclicMerges cs t.entries ⊥ fun _ => False) :
    (eval settings t cs).results = (product t.entries).filterMap (trace cs) := by
  rw [(eval_agrees settings ⟨false⟩ hc hA).results, eval_results,
    if_pos (List.all_eq_true.2 hcovered)]

/-- A search finds what the choices of one candidate per column lead to. -/
theorem mem_eval_iff (hc : Candidates t.entries)
    (hA : AcyclicMerges cs t.entries ⊥ fun _ => False) : r ∈ (eval settings t cs).results ↔
    (∀ s ∈ cs.slots, t.contains s = true) ∧
      ∃ picks, Picks t.entries picks ∧ trace cs picks = some r := by
  rw [(eval_agrees settings ⟨false⟩ hc hA).results, eval_results, ← List.all_eq_true]
  split
  · rename_i hcovered
    simp only [hcovered, true_and, List.mem_filterMap, mem_product]
  · rename_i hcovered
    simp [hcovered]

/-! ## Positions -/

/-- A node made one with its parent, and a value asked for below the two. -/
def knot : ConstraintSet Float :=
  .ofList [.relative ⟨⟨2, [⟨1⟩]⟩, ⟨2, []⟩⟩, .absolute ⟨⟨2, [⟨1⟩, ⟨1⟩, ⟨2⟩]⟩, ⟨2⟩⟩]

end FeatureLogic.Search
