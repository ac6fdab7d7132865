import FeatureLogic.Proofs.Search.Solutions
import Mathlib.Algebra.Field.Rat
import Mathlib.Algebra.Order.BigOperators.GroupWithZero.List
/-!
Bounds on probabilities, with exact weights. A choice that is still open counts with its greatest
weight, so the probability of an interpretation is never less than that of what it is extended to,
and the best probability that the constraints allow is never exceeded.
-/
set_option autoImplicit false

namespace FeatureLogic

theorem Distribution.greatest_le_iff {d : Distribution Rat} {b : Rat} :
    d.greatest ≤ b ↔ 0 ≤ b ∧ ∀ p ∈ d.values, p ≤ b := by
  have key : ∀ (ps : List Rat) (a : Rat), ps.foldl max a ≤ b ↔ a ≤ b ∧ ∀ p ∈ ps, p ≤ b := by
    intro ps
    induction ps with
    | nil => simp
    | cons p ps ih => simp [ih, and_assoc]
  exact key d.values 0

namespace Choice
variable {c : Choice Rat} {a : Atom} {p : Rat}

theorem mem_values (h : c.probability? a = some p) : p ∈ c.distribution.values :=
  List.mem_map_of_mem ((SortedMap.get?_eq_some_iff c.distribution).1 h)

theorem maxProbability_nonneg (c : Choice Rat) : 0 ≤ c.maxProbability :=
  (Distribution.greatest_le_iff.1 le_rfl).1

theorem le_maxProbability (hp : p ∈ c.distribution.values) : p ≤ c.maxProbability :=
  (Distribution.greatest_le_iff.1 le_rfl).2 p hp

end Choice

namespace Interpretation

variable {i j k : Interpretation Rat} {cs : ConstraintSet Rat} {c : Choice Rat} {b : Rat}

/-- What a choice finds has a weight between zero and the greatest. -/
theorem weightOf_bounds (i : Interpretation Rat) (hc : ∀ p ∈ c.distribution.values, 0 ≤ p) :
    0 ≤ i.weightOf c ∧ i.weightOf c ≤ c.maxProbability := by
  have hmax := c.maxProbability_nonneg
  unfold weightOf
  split
  · rename_i n _
    cases hp : c.probability? (i.arena.content n).atom? with
    | none => exact ⟨le_rfl, hmax⟩
    | some p => exact ⟨hc p (Choice.mem_values hp), Choice.le_maxProbability (Choice.mem_values hp)⟩
  · exact ⟨hmax, le_rfl⟩

/-- What a choice contributes to the probability. -/
def factor (i : Interpretation Rat) (c : Choice Rat) : Rat :=
  if i.slots.contains c.term.slot then i.weightOf c else 1

theorem factor_of_assigned (h : i.Assigned c.term.slot) : i.factor c = i.weightOf c :=
  if_pos (contains_iff.2 h)

theorem factor_of_unassigned (h : ¬ i.Assigned c.term.slot) : i.factor c = 1 :=
  if_neg (mt contains_iff.1 h)

theorem factor_nonneg (i : Interpretation Rat) (hc : ∀ p ∈ c.distribution.values, 0 ≤ p) :
    0 ≤ i.factor c := by
  by_cases h : i.Assigned c.term.slot
  · rw [factor_of_assigned h]
    exact (i.weightOf_bounds hc).1
  · rw [factor_of_unassigned h]
    exact zero_le_one

theorem factor_le_one (i : Interpretation Rat) (hc : ∀ p ∈ c.distribution.values, 0 ≤ p)
    (hone : ∀ p ∈ c.distribution.values, p ≤ 1) : i.factor c ≤ 1 := by
  by_cases h : i.Assigned c.term.slot
  · rw [factor_of_assigned h]
    exact (i.weightOf_bounds hc).2.trans (Distribution.greatest_le_iff.2 ⟨zero_le_one, hone⟩)
  · rw [factor_of_unassigned h]

/-- A path that is absent may get a value, and one that is open may get a slot; either way the
weight goes down. A value that is there stays. -/
theorem factor_antitone (hle : i.facts ≤ j.facts)
    (hmeets : i.Assigned c.term.slot → Meets i.facts c)
    (hassigned : i.Assigned c.term.slot → j.Assigned c.term.slot)
    (hc : ∀ p ∈ c.distribution.values, 0 ≤ p) (hone : ∀ p ∈ c.distribution.values, p ≤ 1) :
    j.factor c ≤ i.factor c := by
  by_cases h : i.Assigned c.term.slot
  · rw [factor_of_assigned h, factor_of_assigned (hassigned h)]
    rcases (hmeets h).not_has_or_value with hnone | ⟨a, ha⟩
    · rw [weightOf_of_not_has hnone]
      exact (j.weightOf_bounds hc).2
    · rw [weightOf_of_value ha, weightOf_of_value (hle.2 _ _ ha)]
  · rw [factor_of_unassigned h]
    exact j.factor_le_one hc hone

/-! ## Products -/

theorem foldl_times_filter (q : Choice Rat → Bool) (w : Choice Rat → Rat) (a : Rat)
    (choices : List (Choice Rat)) :
    (choices.filter q).foldl (fun p c => Weight.times p (w c)) a =
      a * (choices.map fun c => if q c then w c else 1).prod := by
  induction choices generalizing a with
  | nil => simp
  | cons c choices ih =>
    rw [List.filter_cons, List.map_cons, List.prod_cons]
    by_cases hc : q c = true
    · rw [if_pos hc, if_pos hc, List.foldl_cons, ih, ← mul_assoc]
      rfl
    · rw [if_neg hc, if_neg hc, ih, one_mul]

theorem maxProbability_eq_prod (cs : ConstraintSet Rat) :
    cs.maxProbability = (cs.choices.toList.map (·.maxProbability)).prod := by
  have h := foldl_times_filter (fun _ => true) (·.maxProbability) 1 cs.choices.toList
  simp only [List.filter_true, if_true, one_mul] at h
  exact h

/-- Relative and absolute constraints leave the probability alone. -/
theorem checkAll_probability {constraints : List (Constraint Rat)}
    (hstep : ∀ c ∈ constraints, ∀ i : Interpretation Rat, (i.check c).2.probability = i.probability)
    (hrun : checkAll constraints i = (true, j)) : j.probability = i.probability := by
  induction constraints generalizing i with
  | nil =>
    cases hrun
    rfl
  | cons c rest ih =>
    obtain ⟨hc, hrest⟩ := List.forall_mem_cons.1 hstep
    obtain ⟨k, hk, hrun⟩ := checkAll_cons_eq_true.1 hrun
    have hp := hc i
    rw [hk] at hp
    exact (ih hrest hrun).trans hp

/-- The probability of what passes is worked out from what it holds in the end. -/
theorem eval_probability (hrun : i.eval cs = (true, j)) :
    j.probability = (cs.choices.toList.map j.factor).prod := by
  obtain ⟨-, k, l, hk, hl, hj⟩ := eval_eq_true.1 hrun
  have hkp : k.probability = i.restart.probability := by
    refine checkAll_probability (fun d hd i => ?_) hk
    obtain ⟨c, -, rfl⟩ := List.mem_map.1 hd
    exact checkRelative_probability i c
  have hlp : l.probability = k.probability := by
    refine checkAll_probability (fun d hd i => ?_) hl
    obtain ⟨c, -, rfl⟩ := List.mem_map.1 hd
    exact checkAbsolute_probability i c
  obtain ⟨ha, hs, hp⟩ := checkChoices_run cs.choices.toList hj
  have hstart : l.probability = 1 := hlp.trans hkp
  rw [hp, hstart, foldl_times_filter, one_mul]
  unfold factor
  simp only [weightOf_congr ha hs, hs]

end Interpretation

namespace Search
open Interpretation

variable {cs : ConstraintSet Rat} {settings : SearchSettings} {t : OptionTable}
  {i base r : Interpretation Rat} {slot : SlotIndex} {s : FeatureStructure}

/-- A result has passed an evaluation, with no constrained slot left open. -/
theorem exists_eval_of_mem {columns : List (SlotIndex × OptionColumn)}
    {generation : List (Interpretation Rat)} (hr : r ∈ (run settings cs columns generation).results)
    (hg : ∀ j ∈ generation, ∃ i : Interpretation Rat, i.eval cs = (true, j)) :
    ∃ i : Interpretation Rat, i.eval cs = (true, r) := by
  induction columns generalizing generation with
  | nil => exact hg r hr
  | cons entry columns ih =>
    rw [run_cons] at hr
    refine ih hr fun j hj => ?_
    obtain ⟨s, -, i, -, hrun⟩ := mem_survivors settings hj
    exact ⟨_, hrun⟩

theorem eval_result (hr : r ∈ (eval settings t cs).results) :
    (∃ i : Interpretation Rat, i.eval cs = (true, r)) ∧ ∀ j ∈ cs.slots, r.Assigned j := by
  cases ht : t.entries with
  | nil =>
    have hnone : (eval settings t cs).results = [] := by
      rw [eval, ht]
      dsimp only
      cases cs.slots.find? fun s => !t.contains s <;> rfl
    rw [hnone] at hr
    cases hr
  | cons entry columns =>
    obtain ⟨slot, column⟩ := entry
    rw [results_eval settings cs ht] at hr
    split at hr
    · rename_i hcovered
      refine ⟨exists_eval_of_mem hr fun j hj => ?_, fun j hj => ?_⟩
      · obtain ⟨s, -, hrun⟩ := mem_seeds.1 hj
        exact ⟨_, hrun⟩
      · exact (run_seeds_assigned ht hr j).2 (List.all_eq_true.1 hcovered j hj)
    · cases hr

theorem probability_le_max (hnonneg : ∀ c ∈ cs.choices.toList, ∀ p ∈ c.distribution.values, 0 ≤ p)
    (hr : r ∈ (eval settings t cs).results) : r.probability ≤ cs.maxProbability := by
  obtain ⟨⟨i, hrun⟩, hassigned⟩ := eval_result hr
  rw [eval_probability hrun, maxProbability_eq_prod]
  refine List.prod_map_le_prod_map₀ _ _ (fun c hc => r.factor_nonneg (hnonneg c hc)) fun c hc => ?_
  have hslot : r.Assigned c.term.slot := by
    refine hassigned _ (ConstraintSet.mem_slots (ConstraintSet.choice_mem hc) ?_)
    simp [Constraint.mentions]
  rw [factor_of_assigned hslot]
  exact (r.weightOf_bounds (hnonneg c hc)).2

theorem probability_mem_unit
    (hnonneg : ∀ c ∈ cs.choices.toList, ∀ p ∈ c.distribution.values, 0 ≤ p)
    (hone : ∀ c ∈ cs.choices.toList, ∀ p ∈ c.distribution.values, p ≤ 1)
    (hrun : i.eval cs = (true, r)) : 0 ≤ r.probability ∧ r.probability ≤ 1 := by
  rw [eval_probability hrun]
  constructor
  · refine List.prod_nonneg (List.forall_mem_map.2 fun c hc => ?_)
    exact r.factor_nonneg (hnonneg c hc)
  · refine (List.prod_map_le_prod_map₀ _ (fun _ => 1) (fun c hc => r.factor_nonneg (hnonneg c hc))
      fun c hc => r.factor_le_one (hnonneg c hc) (hone c hc)).trans_eq ?_
    simp

/-- All that an interpretation has is there after an extension that passes and makes no cycle. -/
theorem facts_le_of_extension (hb : base.WellFormed) (hs : s.WellFormed)
    (hA : (base.facts ⊔ s.factsAt slot ⊔
      cs.sharing fun j => j = slot ∨ base.Assigned j).closure.Acyclic)
    (hrun : (Extension.merge ⟨base, slot, s⟩).eval cs = (true, r)) : base.facts ≤ r.facts := by
  have hm := (Extension.merge_spec (e := ⟨base, slot, s⟩) hb hs
    (hA.mono (Facts.closure_mono le_sup_left))).1 (eval_eq_true.1 hrun).1
  have hr := eval_sound hm.wellFormed (by
    rw [hm.assigned_eq, hm.facts, Facts.closure_sup_closure]
    exact hA) hrun
  rw [hr.facts, hm.facts]
  exact (le_sup_left.trans (Facts.le_closure _)).trans (le_sup_left.trans (Facts.le_closure _))

theorem probability_antitone
    (hnonneg : ∀ c ∈ cs.choices.toList, ∀ p ∈ c.distribution.values, 0 ≤ p)
    (hone : ∀ c ∈ cs.choices.toList, ∀ p ∈ c.distribution.values, p ≤ 1)
    (hi : i.WellFormed) (hs : s.WellFormed) (hbase : i.eval cs = (true, base))
    (hA : (base.facts ⊔ s.factsAt slot ⊔
      cs.sharing fun j => j = slot ∨ base.Assigned j).closure.Acyclic)
    (hrun : (Extension.merge ⟨base, slot, s⟩).eval cs = (true, r)) :
    r.probability ≤ base.probability := by
  have hpasses := eval_passes hi hbase
  have hassigned : base.Assigned = i.Assigned := assigned_congr hpasses.slots
  have hle := facts_le_of_extension hpasses.wellFormed hs hA hrun
  have hmerged := Extension.merge_assigned (eval_eq_true.1 hrun).1
  rw [eval_probability hbase, eval_probability hrun]
  refine List.prod_map_le_prod_map₀ _ _ (fun c hc => r.factor_nonneg (hnonneg c hc)) fun c hc => ?_
  refine factor_antitone hle (fun h => ?_) (fun h => ?_) (hnonneg c hc) (hone c hc)
  · exact hpasses.meets hc (hassigned ▸ h)
  · rw [assigned_congr (eval_slots hrun)]
    exact (hmerged _).2 (.inr h)

/-- No result exceeds the best probability that the constraints allow. If no weight exceeds one,
whatever passes has a probability, and to extend it never makes this greater, as long as the merge
makes no cycle. -/
theorem probability_bounded (cs : ConstraintSet Rat)
    (hnonneg : ∀ c ∈ cs.choices.toList, ∀ p ∈ c.distribution.values, 0 ≤ p) :
    (∀ settings t, ∀ r ∈ (eval settings t cs).results, r.probability ≤ cs.maxProbability) ∧
    ((∀ c ∈ cs.choices.toList, ∀ p ∈ c.distribution.values, p ≤ 1) →
      (∀ i r : Interpretation Rat, i.eval cs = (true, r) → 0 ≤ r.probability ∧ r.probability ≤ 1) ∧
      ∀ (i base r : Interpretation Rat) (slot : SlotIndex) (s : FeatureStructure),
        i.WellFormed → s.WellFormed → i.eval cs = (true, base) →
        (base.facts ⊔ s.factsAt slot ⊔
          cs.sharing fun j => j = slot ∨ base.Assigned j).closure.Acyclic →
        (Extension.merge ⟨base, slot, s⟩).eval cs = (true, r) →
        r.probability ≤ base.probability) :=
  ⟨fun _ _ _ => probability_le_max hnonneg, fun hone =>
    ⟨fun _ _ => probability_mem_unit hnonneg hone,
      fun _ _ _ _ _ => probability_antitone hnonneg hone⟩⟩

/-- Two slots agree on a feature, and there is a choice of its value. -/
def weighted : ConstraintSet Rat :=
  .ofList [.relative ⟨⟨1, [⟨1⟩]⟩, ⟨2, [⟨1⟩]⟩⟩, .choice ⟨⟨2, [⟨1⟩]⟩, .singleton ⟨1⟩ (1 / 2)⟩]

def weightedTable : OptionTable := twoColumns [([⟨1⟩], ⟨1⟩)] [([⟨1⟩], ⟨1⟩)]

/-- The first candidate, with the choice still open. -/
def opened : Interpretation Rat := ((ofStructure 1 (.single [⟨1⟩] ⟨1⟩)).eval weighted).2

/-- The second candidate merged into it. -/
def chosen : Interpretation Rat :=
  ((Extension.merge ⟨opened, 2, .single [⟨1⟩] ⟨1⟩⟩).eval weighted).2

theorem probability_bounded_weighted :
    (∀ r ∈ (eval ⟨true⟩ weightedTable weighted).results,
      r.probability ≤ weighted.maxProbability) ∧
    (Extension.merge ⟨opened, 2, .single [⟨1⟩] ⟨1⟩⟩).eval weighted = (true, chosen) ∧
    (0 ≤ opened.probability ∧ opened.probability ≤ 1) ∧
    chosen.probability ≤ opened.probability := by
  have hp : ([⟨1⟩] : Path) ≠ [] := by decide
  have hs := (FeatureStructure.single_spec hp ⟨1⟩).1
  obtain ⟨hmax, hunit⟩ := probability_bounded weighted (by decide +kernel)
  obtain ⟨hbounds, hextend⟩ := hunit (by decide +kernel)
  have hopened : (ofStructure 1 (.single [⟨1⟩] ⟨1⟩)).eval weighted = (true, opened) :=
    Prod.ext (by decide +kernel) rfl
  have hchosen : (Extension.merge ⟨opened, 2, .single [⟨1⟩] ⟨1⟩⟩).eval weighted = (true, chosen) :=
    Prod.ext (by decide +kernel) rfl
  have hi := (ofStructure_spec (W := Rat) hs (FeatureStructure.single_graded hp ⟨1⟩ 1).acyclic).1
  have hsingles : Singles weightedTable.entries := twoColumns_singles (by decide) (by decide)
  have hA : AcyclicMerges weighted weightedTable.entries ⊥ fun _ => False :=
    hsingles.acyclicMerges (fun _ _ => False.elim) (by decide)
  obtain ⟨-, hrest⟩ := AcyclicMerges.seed hA hs List.mem_cons_self hopened
  refine ⟨hmax ⟨true⟩ weightedTable, hchosen, hbounds _ _ hopened, ?_⟩
  exact hextend _ _ _ _ _ hi hs hopened (hrest.head List.mem_cons_self) hchosen

/-- A path that ends at an atom, and a slot that is to be both what the first feature leads to and
the root. -/
def rolled : ConstraintSet Rat :=
  .ofList [.relative ⟨⟨1, [⟨1⟩]⟩, ⟨2, []⟩⟩, .relative ⟨⟨2, []⟩, ⟨1, []⟩⟩,
    .choice ⟨⟨1, [⟨1⟩, ⟨1⟩, ⟨2⟩]⟩, .ofList [(⟨1⟩, 1 / 2), (⟨2⟩, 1)]⟩]

/-- With a cycle the value is lost, and a path that is absent has the greatest weight. -/
theorem probability_increases :
    (∀ c ∈ rolled.choices.toList, ∀ p ∈ c.distribution.values, 0 ≤ p ∧ p ≤ 1) ∧
    ∃ base r : Interpretation Rat,
      (ofStructure 1 (.single [⟨1⟩, ⟨1⟩, ⟨2⟩] ⟨1⟩)).eval rolled = (true, base) ∧
      (Extension.merge ⟨base, 2, .empty⟩).eval rolled = (true, r) ∧
      base.probability = 1 / 2 ∧ r.probability = 1 := by
  refine ⟨by decide +kernel, _, _, Prod.ext (by decide +kernel) rfl, Prod.ext ?_ rfl, ?_, ?_⟩
  · decide +kernel
  · decide +kernel
  · decide +kernel

end Search

end FeatureLogic
