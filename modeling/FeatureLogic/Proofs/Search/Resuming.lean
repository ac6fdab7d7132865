import FeatureLogic.Proofs.Interpretation.Locality
import FeatureLogic.Proofs.Search.Product
/-!
Resuming a search. A search through the first columns, under those constraints that speak of them
alone, resumed with the other columns and all constraints, finds what one search through all
columns finds: the same interpretations in the same order, down to their arenas.
-/
set_option autoImplicit false

namespace FeatureLogic

namespace Search
open Interpretation

variable {W : Type} [Weight W] {cs : ConstraintSet W} {columns : List (SlotIndex × OptionColumn)}
  {slot : SlotIndex} {column : OptionColumn} {generation previous : List (Interpretation W)}
  {j : Interpretation W} {t u : OptionTable} {settings : SearchSettings}

/-- What comes out of a run is assigned in the slots of an interpretation that went in, and in
those of the columns. -/
theorem run_assigned (hj : j ∈ (run settings cs columns generation).results) :
    ∃ i ∈ generation, ∀ s, j.Assigned s ↔ i.Assigned s ∨ s ∈ columns.map (·.1) := by
  induction columns generalizing generation with
  | nil => exact ⟨j, hj, by simp⟩
  | cons entry columns ih =>
    obtain ⟨slot, column⟩ := entry
    rw [run_cons] at hj
    obtain ⟨k, hk, hjk⟩ := ih hj
    obtain ⟨s, -, i, hi, hrun⟩ := mem_survivors settings hk
    have hmerge := Extension.merge_assigned (eval_eq_true.1 hrun).1
    refine ⟨i, hi, fun t => ?_⟩
    rw [hjk, assigned_congr (eval_slots hrun), hmerge, List.map_cons, List.mem_cons,
      or_comm (a := t = slot), or_assoc]

/-- Results of a search are assigned in the slots of the columns. -/
theorem run_seeds_assigned (ht : t.entries = (slot, column) :: columns)
    (hj : j ∈ (run settings cs columns (seeds cs slot column)).results) (s : SlotIndex) :
    j.Assigned s ↔ t.contains s = true := by
  obtain ⟨i, hi, hji⟩ := run_assigned hj
  obtain ⟨candidate, -, hrun⟩ := mem_seeds.1 hi
  rw [hji, assigned_congr (eval_slots hrun), ofStructure_assigned, SortedMap.contains_iff_mem_keys,
    SortedMap.keys, ht, List.map_cons, List.mem_cons]

/-! ## Constraints left out -/

theorem attempt_within (hi : j.Inside t) (hslot : t.contains slot = true) (s : FeatureStructure)
    (number : Nat) : attempt settings (cs.within t) slot s number j =
      attempt settings cs slot s number j := by
  unfold attempt
  dsimp only
  rw [Extension.quickCheck_within hi hslot, eval_within (Extension.inside_merge hi hslot)]

theorem seeds_within (hslot : t.contains slot = true) (column : OptionColumn) :
    seeds (cs.within t) slot column = seeds cs slot column := by
  rw [seeds_eq, seeds_eq]
  refine congrArg (column.filterMap ·) (funext fun s => congrArg passed (eval_within ?_))
  intro i hi
  rwa [ofStructure_assigned.1 hi]

/-- Through the columns of `t` the constraints that speak of other slots make no difference. -/
theorem run_within (hcolumns : ∀ c ∈ columns, t.contains c.1 = true)
    (hg : ∀ i ∈ generation, i.Inside t) :
    run settings (cs.within t) columns generation = run settings cs columns generation := by
  induction columns generalizing generation with
  | nil => rfl
  | cons entry columns ih =>
    obtain ⟨slot, column⟩ := entry
    obtain ⟨hslot, hcolumns⟩ := List.forall_mem_cons.1 hcolumns
    have hattempts : attempts settings (cs.within t) slot column generation =
        attempts settings cs slot column generation :=
      List.flatMap_congr fun e _ => List.map_congr_left fun i hi =>
        attempt_within (hg i hi) hslot e.1 e.2
    have hnext : ∀ k ∈ (attempts settings cs slot column generation).filterMap
        Attempt.survivor?, k.Inside t := by
      intro k hk
      obtain ⟨s, -, i, hi, hrun⟩ := mem_survivors settings hk
      exact (Extension.inside_merge (hg i hi) hslot).congr (eval_slots hrun)
    rw [run, run]
    dsimp only
    rw [hattempts, ih hcolumns hnext]

/-! ## Resuming -/

theorem results_resume (settings : SearchSettings) (previous : List (Interpretation W))
    (u : OptionTable) (cs : ConstraintSet W) : (resume settings previous u cs).results =
      if cs.slots.all fun s => u.contains s || previous.all (·.slots.contains s) then
        (run settings cs u.entries previous).results
      else [] := by
  rw [resume, all_eq_isNone_find?]
  dsimp only
  cases cs.slots.find? fun s => !(u.contains s || previous.all (·.slots.contains s)) <;> rfl

/-- Under the constraints that its columns cover a search runs as if it had them all. -/
theorem results_eval_within (settings : SearchSettings) (cs : ConstraintSet W)
    (ht : t.entries = (slot, column) :: columns) : (eval settings t (cs.within t)).results =
      (run settings cs columns (seeds cs slot column)).results := by
  have hslots : ∀ c ∈ (slot, column) :: columns, t.contains c.1 = true := fun c hc =>
    SortedMap.contains_iff_mem_keys.2 (List.mem_map_of_mem (ht ▸ hc))
  obtain ⟨hslot, hcolumns⟩ := List.forall_mem_cons.1 hslots
  have hcovered : (cs.within t).slots.all t.contains = true :=
    List.all_eq_true.2 fun s => ConstraintSet.slots_within
  rw [results_eval settings _ ht, if_pos hcovered, seeds_within hslot, run_within hcolumns]
  intro i hi s hs
  obtain ⟨candidate, -, hrun⟩ := mem_seeds.1 hi
  rw [assigned_congr (eval_slots hrun)] at hs
  rwa [ofStructure_assigned.1 hs]

end Search

end FeatureLogic
