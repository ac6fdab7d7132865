import FeatureLogic.Proofs.Search.Tracing
/-!
What a search returns: interpretations of all columns that satisfy every constraint, each the least
one over the candidates it was made from.
-/
set_option autoImplicit false

namespace FeatureLogic

namespace Interpretation
variable {W : Type} {i j : Interpretation W}

/-- Each candidate subsumes what is in its slot. -/
def Extends (i : Interpretation W) (picks : List Search.Pick) : Prop :=
  ∀ pick ∈ picks, pick.2.factsAt pick.1 ≤ i.facts

/-- `j` has all paths and atoms of `i` and all its coindexations, in one slot or across slots. -/
def Subsumed (i j : Interpretation W) : Prop := i.facts ≤ j.facts

theorem extends_iff {picks : List Search.Pick} :
    i.Extends picks ↔ Search.factsOf picks ≤ i.facts := by
  unfold Extends Search.factsOf
  rw [Facts.all_le, List.forall_mem_map]
  rfl

end Interpretation

namespace Search
open Interpretation

variable {W : Type} [Weight W] {cs : ConstraintSet W} {t : OptionTable} {picks : List Pick}
  {r : Interpretation W} {settings : SearchSettings}

theorem Picks.slotsOf_iff (h : Picks t.entries picks) {s : SlotIndex} :
    slotsOf picks s ↔ t.contains s = true := by
  rw [slotsOf, h.slots, SortedMap.contains_iff_mem_keys]
  rfl

theorem Traced.satisfies (hr : Traced cs picks r) (hne : ∀ c ∈ cs.absolutes.toList, c.value ≠ .null)
    (hslots : ∀ s ∈ cs.slots, slotsOf picks s) {c : Constraint W} (hc : c ∈ cs.toList) :
    r.Satisfies c := by
  have hle : factsOf picks ⊔ cs.facts (slotsOf picks) ≤ r.facts :=
    hr.facts ▸ Facts.le_closure _
  have hassigned : ∀ {s}, c.mentions s = true → slotsOf picks s :=
    fun hs => hslots _ (ConstraintSet.mem_slots hc hs)
  rw [ConstraintSet.toList, List.mem_append, List.mem_append] at hc
  simp only [List.mem_map] at hc
  rcases hc with (⟨c, hc, rfl⟩ | ⟨c, hc, rfl⟩) | ⟨c, hc, rfl⟩
  · have hfacts : c.factsOn (slotsOf picks) ≤ r.facts :=
      (Facts.all_le.1 le_rfl _ (List.mem_map_of_mem hc)).trans
        (le_sup_left.trans (le_sup_right.trans hle))
    refine satisfies_relative.2 (Relative.factsOn_le.1 hfacts (hassigned ?_) (hassigned ?_))
    · simp [Constraint.mentions]
    · simp [Constraint.mentions]
  · have hfacts : c.factsOn (slotsOf picks) ≤ r.facts :=
      (Facts.all_le.1 le_rfl _ (List.mem_map_of_mem hc)).trans
        (le_sup_right.trans (le_sup_right.trans hle))
    refine satisfies_absolute.2 ((Absolute.factsOn_le.1 hfacts (hassigned ?_)).2 (hne c hc))
    simp [Constraint.mentions]
  · have hs : slotsOf picks c.term.slot := hassigned (by simp [Constraint.mentions])
    exact hr.wellFormed.satisfies_choice (hr.assigned ▸ hs) (hr.meets hc hs)

/-- What is forced is part of every interpretation that extends the picks and satisfies the
constraints. -/
theorem forced_le {j : Interpretation W} (hj : j.WellFormed) (hext : j.Extends picks)
    (hrel : ∀ c ∈ cs.relatives.toList, j.Satisfies (.relative c))
    (habs : ∀ c ∈ cs.absolutes.toList, j.Satisfies (.absolute c)) : forced cs picks ≤ j.facts := by
  refine Facts.closure_le hj.closed_facts (sup_le (extends_iff.1 hext) (sup_le ?_ ?_))
  · refine Facts.all_le.2 (List.forall_mem_map.2 fun c hc => Relative.factsOn_le.2 fun _ _ => ?_)
    exact satisfies_relative.1 (hrel c hc)
  · refine Facts.all_le.2 (List.forall_mem_map.2 fun c hc => Absolute.factsOn_le.2 fun _ => ?_)
    have hvalue := satisfies_absolute.1 (habs c hc)
    exact ⟨hj.closed_facts.has_of_value hvalue, fun _ => hvalue⟩

theorem Traced.subsumed (hr : Traced cs picks r) {j : Interpretation W} (hj : j.WellFormed)
    (hext : j.Extends picks) (hrel : ∀ c ∈ cs.relatives.toList, j.Satisfies (.relative c))
    (habs : ∀ c ∈ cs.absolutes.toList, j.Satisfies (.absolute c)) : r.Subsumed j := by
  unfold Subsumed
  rw [hr.facts]
  exact forced_le hj hext hrel habs

/-- Every result interprets all columns, satisfies all constraints, is the least interpretation
over one choice of candidates, and has the product of the weights it meets for its probability. -/
theorem eval_least (hc : Candidates t.entries)
    (hA : AcyclicMerges cs t.entries ⊥ fun _ => False)
    (hne : ∀ c ∈ cs.absolutes.toList, c.value ≠ .null) (hr : r ∈ (eval settings t cs).results) :
    r.WellFormed ∧ (∀ s, r.Assigned s ↔ t.contains s = true) ∧
      (∀ c ∈ cs.toList, r.Satisfies c) ∧
      (∃ picks, Picks t.entries picks ∧ trace cs picks = some r ∧ r.Extends picks ∧
        ∀ j : Interpretation W, j.WellFormed → j.Extends picks →
          (∀ c ∈ cs.relatives.toList, j.Satisfies (.relative c)) →
          (∀ c ∈ cs.absolutes.toList, j.Satisfies (.absolute c)) → r.Subsumed j) ∧
      r.probability =
        cs.choices.toList.foldl (fun p c => Weight.times p (r.weightOf c)) Weight.certain := by
  obtain ⟨hcovered, picks, hpicks, hrun⟩ := (mem_eval_iff hc hA).1 hr
  have htraced := traced_of_trace hc hA hpicks hrun
  have hslots : ∀ s ∈ cs.slots, slotsOf picks s :=
    fun s hs => hpicks.slotsOf_iff.2 (hcovered s hs)
  refine ⟨htraced.wellFormed, fun s => ?_, fun c => htraced.satisfies hne hslots, ?_, ?_⟩
  · rw [htraced.assigned, hpicks.slotsOf_iff]
  · refine ⟨picks, hpicks, hrun, extends_iff.2 ?_, fun j => htraced.subsumed⟩
    rw [htraced.facts]
    exact le_sup_left.trans (Facts.le_closure _)
  · rw [htraced.probability, List.filter_eq_self.2]
    intro c hc
    rw [contains_iff, htraced.assigned]
    refine hslots _ (ConstraintSet.mem_slots (ConstraintSet.choice_mem hc) ?_)
    simp [Constraint.mentions]

theorem eval_least_agreement : ∃ r ∈ (eval ⟨true⟩ agreementTable agreement).results,
    r.WellFormed ∧ (∀ s, r.Assigned s ↔ agreementTable.contains s = true) ∧
      (∀ c ∈ agreement.toList, r.Satisfies c) ∧
      ∃ picks, Picks agreementTable.entries picks ∧ r.Extends picks := by
  have hsome : (eval ⟨true⟩ agreementTable agreement).results ≠ [] :=
    List.isEmpty_eq_false_iff.1 (by decide)
  obtain ⟨r, hr⟩ := List.exists_mem_of_ne_nil _ hsome
  have ht := agreementTable_singles
  obtain ⟨hwf, hassigned, hsat, ⟨picks, hpicks, -, hext, -⟩, -⟩ := eval_least ht.candidates
    (ht.acyclicMerges (fun _ _ => False.elim) agreement_level) (by decide) hr
  exact ⟨r, hr, hwf, hassigned, hsat, picks, hpicks, hext⟩

end Search

end FeatureLogic
