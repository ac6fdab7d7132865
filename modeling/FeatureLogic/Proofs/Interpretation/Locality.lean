import FeatureLogic.Proofs.Constraint.Set
import FeatureLogic.Proofs.Interpretation.Evaluation
import FeatureLogic.Proofs.Interpretation.Extension
/-!
Constraints on slots that are not assigned do nothing: an interpretation evaluates to the same, down
to its arena, whether or not they are in the set, and the quick check answers the same. This holds
of any arena.
-/
set_option autoImplicit false

namespace FeatureLogic

variable {W : Type} [Weight W] {cs : ConstraintSet W} {t : OptionTable} {s : SlotIndex}

namespace Interpretation
variable {i j : Interpretation W} {c : Constraint W}

omit [Weight W] in
theorem checkAbsolute_of_unassigned {c : Absolute} (hs : ¬ i.Assigned c.term.slot) :
    i.checkAbsolute c = (true, i) := by
  unfold checkAbsolute
  cases hr : i.slots.get? c.term.slot with
  | none => rfl
  | some root => exact absurd ⟨root, hr⟩ hs

theorem check_of_unassigned (hm : c.mentions s = true) (hs : ¬ i.Assigned s) :
    i.check c = (true, i) := by
  cases c with
  | absolute c =>
    have hc : c.term.slot = s := of_decide_eq_true hm
    exact checkAbsolute_of_unassigned (hc ▸ hs)
  | choice c =>
    have hc : c.term.slot = s := of_decide_eq_true hm
    exact checkChoice_of_unassigned (hc ▸ hs)
  | relative c =>
    refine checkRelative_of_unassigned fun h => ?_
    rcases Bool.or_eq_true_iff.1 hm with hc | hc
    · exact hs (of_decide_eq_true hc ▸ h.1)
    · exact hs (of_decide_eq_true hc ▸ h.2)

omit [Weight W] in
theorem checkAbsolute_slots (i : Interpretation W) (c : Absolute) :
    (i.checkAbsolute c).2.slots = i.slots := by
  unfold checkAbsolute
  repeat' split
  all_goals rfl

omit [Weight W] in
theorem checkRelative_slots {c : Relative} (h : i.checkRelative c = (true, j)) :
    j.slots = i.slots := by
  unfold checkRelative at h
  repeat' split at h
  all_goals cases h
  all_goals rfl

theorem check_slots (h : i.check c = (true, j)) : j.slots = i.slots := by
  cases c with
  | absolute c =>
    have hj : (i.check (.absolute c)).2 = j := by rw [h]
    exact hj ▸ checkAbsolute_slots i c
  | relative c => exact checkRelative_slots h
  | choice c =>
    have hj : (i.check (.choice c)).2 = j := by rw [h]
    exact hj ▸ (checkChoice_arena i c).2

theorem checkAll_slots {constraints : List (Constraint W)}
    (h : checkAll constraints i = (true, j)) : j.slots = i.slots := by
  induction constraints generalizing i with
  | nil =>
    cases h
    rfl
  | cons c constraints ih =>
    obtain ⟨k, hk, h⟩ := checkAll_cons_eq_true.1 h
    exact (ih h).trans (check_slots hk)

theorem eval_slots (h : i.eval cs = (true, j)) : j.slots = i.slots := by
  obtain ⟨-, k, l, hk, hl, hj⟩ := eval_eq_true.1 h
  have hk : k.slots = i.restart.slots := checkAll_slots hk
  exact (checkAll_slots hj).trans ((checkAll_slots hl).trans hk)

/-- Every slot that is assigned has a column. -/
def Inside (t : OptionTable) (i : Interpretation W) : Prop :=
  ∀ s, i.Assigned s → t.contains s = true

omit [Weight W] in
theorem Inside.congr (h : i.Inside t) (hs : j.slots = i.slots) : j.Inside t := by
  unfold Inside
  rwa [assigned_congr hs]

omit [Weight W] in
theorem Inside.not_assigned (h : i.Inside t) (hs : t.contains s = false) : ¬ i.Assigned s := by
  intro hi
  rw [h s hi] at hs
  cases hs

/-- Checks that speak of a slot that is not assigned may be left out. -/
theorem checkAll_filter {p : Constraint W → Bool}
    (h : ∀ c, p c = false → ∃ s, c.mentions s = true ∧ ¬ i.Assigned s)
    (constraints : List (Constraint W)) :
    checkAll (constraints.filter p) i = checkAll constraints i := by
  induction constraints generalizing i with
  | nil => rfl
  | cons c constraints ih =>
    rw [List.filter_cons]
    split
    · rw [checkAll, checkAll]
      rcases hk : i.check c with ⟨_ | _, k⟩
      · rfl
      · refine ih ?_
        rwa [assigned_congr (check_slots hk)]
    · rename_i hc
      obtain ⟨s, hm, hs⟩ := h c (Bool.eq_false_iff.2 hc)
      rw [checkAll, check_of_unassigned hm hs]
      exact ih h

theorem checkAll_covered (h : i.Inside t) (constraints : List (Constraint W)) :
    checkAll (constraints.filter (·.coveredBy t)) i = checkAll constraints i := by
  refine checkAll_filter (fun c hc => ?_) constraints
  obtain ⟨s, hm, hs⟩ := Constraint.exists_of_not_coveredBy hc
  exact ⟨s, hm, h.not_assigned hs⟩

/-- Constraints that speak of other slots as well leave no trace in an evaluation. -/
theorem eval_within (h : i.Inside t) : i.eval (cs.within t) = i.eval cs := by
  have hrestart : i.restart.Inside t := h.congr rfl
  rw [eval_eq, eval_eq, ConstraintSet.toList_within, checkAll_covered hrestart]

end Interpretation

namespace Extension
open Interpretation

variable {e : Extension W}

omit [Weight W] in
theorem inside_merge (hb : e.base.Inside t) (hslot : t.contains e.slot = true) :
    e.merge.Inside t := by
  intro s hs
  cases hf : e.merge.isFailed with
  | true => exact absurd hs (not_assigned_of_isFailed hf)
  | false =>
    rcases (merge_assigned hf s).1 hs with rfl | hs
    · exact hslot
    · exact hb s hs

omit [Weight W] in
/-- A constraint that also speaks of a free slot holds nothing against the candidate. -/
theorem admits_of_unassigned {c : Constraint W} (hm : c.mentions e.slot = true) (hs : s ≠ e.slot)
    (hother : c.mentions s = true) (hfree : ¬ e.base.Assigned s) : e.admits c = true := by
  cases c with
  | absolute c => exact absurd ((of_decide_eq_true hother).symm.trans (of_decide_eq_true hm)) hs
  | choice c => exact absurd ((of_decide_eq_true hother).symm.trans (of_decide_eq_true hm)) hs
  | relative c =>
    have hnone : e.base.slot? s = none := by
      cases hr : e.base.slots.get? s with
      | none => rw [slot?, hr, Option.map_none]
      | some root => exact absurd ⟨root, hr⟩ hfree
    simp only [Constraint.mentions, Bool.or_eq_true, decide_eq_true_eq] at hm hother
    change e.admitsRelative c = true
    unfold admitsRelative
    by_cases hl : c.lhs.slot = e.slot
    · have hr : c.rhs.slot = s := hother.resolve_left fun h => hs (h.symm.trans hl)
      simp [hl, hr, hs, hnone]
    · have hr : c.rhs.slot = e.slot := hm.resolve_left hl
      have hl : c.lhs.slot = s := hother.resolve_right fun h => hs (h.symm.trans hr)
      simp [hl, hs, hnone]

theorem quickCheck_within (hb : e.base.Inside t) (hslot : t.contains e.slot = true) :
    e.quickCheck (cs.within t) = e.quickCheck cs := by
  have hrest : ((cs.toList.filter (·.coveredBy t)).filter (·.mentions e.slot)).all e.admits =
      (cs.toList.filter (·.mentions e.slot)).all e.admits := by
    rw [Bool.eq_iff_iff]
    simp only [List.all_eq_true, List.mem_filter]
    refine ⟨fun h c hc => ?_, fun h c hc => h c ⟨hc.1.1, hc.2⟩⟩
    cases hcov : c.coveredBy t with
    | true => exact h c ⟨⟨hc.1, hcov⟩, hc.2⟩
    | false =>
      obtain ⟨s, hm, hs⟩ := Constraint.exists_of_not_coveredBy hcov
      refine admits_of_unassigned hc.2 ?_ hm (hb.not_assigned hs)
      rintro rfl
      rw [hslot] at hs
      cases hs
  unfold quickCheck
  rw [ConstraintSet.toList_within, hrest]

end Extension

end FeatureLogic
