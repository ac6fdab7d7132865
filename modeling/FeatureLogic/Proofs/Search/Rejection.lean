import FeatureLogic.Proofs.Interpretation.Locality
import FeatureLogic.Proofs.Search.Neutrality
/-!
What is left of an interpretation that was rejected. Only a clash clears its slots; where a value, a
choice or a blocked path rejects it, it goes on as if it were live. A candidate added to one without
slots makes it live again.
-/
set_option autoImplicit false

namespace FeatureLogic

/-- A slot that is free takes any candidate. -/
theorem Extension.merge_live {W : Type} {e : Extension W} (h : ¬ e.base.Assigned e.slot) :
    e.merge.isFailed = false := by
  have hassigned := copySlots_assigned e.base (.start .empty) e.slot
  unfold merge
  generalize copySlots e.base.arena e.base.slots.entries (.start .empty) = copied at *
  obtain ⟨slots, c⟩ := copied
  dsimp only at hassigned ⊢
  split
  · exact Interpretation.isFailed_eq_false.2 ⟨e.slot, _, SortedMap.get?_insert_self ..⟩
  · rename_i own hown
    exact absurd (hassigned.1 ⟨own, hown⟩) h

namespace Interpretation

variable {W : Type} [Weight W] {i j k : Interpretation W}

omit [Weight W] in
/-- The relative constraint leads to two nodes that cannot be merged. -/
def Clashes (i : Interpretation W) (c : Relative) : Prop :=
  ∃ l r g, i.slots.get? c.lhs.slot = some l ∧ i.slots.get? c.rhs.slot = some r ∧
    i.arena.equate l c.lhs.path r c.rhs.path = (.ok false, g)

omit [Weight W] in
theorem isFailed_congr (hs : j.slots = i.slots) : j.isFailed = i.isFailed := by
  rw [isFailed, isFailed, hs]

omit [Weight W] in
theorem checkRelative_isFailed (hi : i.isFailed = false) (c : Relative) :
    (i.checkRelative c).2.isFailed = true ↔ i.Clashes c := by
  have hlive : ∀ g, ({ i with arena := g } : Interpretation W).isFailed = false :=
    fun g => (isFailed_congr rfl).trans hi
  by_cases h : i.Assigned c.lhs.slot ∧ i.Assigned c.rhs.slot
  · obtain ⟨⟨l, hl⟩, ⟨r, hr⟩⟩ := h
    have hclash : i.Clashes c ↔ ∃ g, i.arena.equate l c.lhs.path r c.rhs.path = (.ok false, g) := by
      constructor
      · rintro ⟨l', r', g, hl', hr', hg⟩
        cases hl.symm.trans hl'
        cases hr.symm.trans hr'
        exact ⟨g, hg⟩
      · rintro ⟨g, hg⟩
        exact ⟨l, r, g, hl, hr, hg⟩
    rw [checkRelative_of_roots hl hr, hclash]
    rcases i.arena.equate l c.lhs.path r c.rhs.path with ⟨e | _ | _, g⟩
    · simp [hlive]
    · exact ⟨fun _ => ⟨g, rfl⟩, fun _ => rfl⟩
    · simp [hlive]
  · rw [checkRelative_of_unassigned h]
    refine ⟨fun hf => ?_, ?_⟩
    · rw [hi] at hf
      cases hf
    · rintro ⟨l, r, g, hl, hr, -⟩
      exact absurd ⟨⟨l, hl⟩, ⟨r, hr⟩⟩ h

/-- A check fails an interpretation only over a clash, and rejects it then. -/
theorem check_isFailed (hi : i.isFailed = false) (c : Constraint W) :
    (i.check c).2.isFailed = true ↔ ∃ r, c = .relative r ∧ i.Clashes r := by
  cases c with
  | absolute c =>
    have hs : (i.check (.absolute c)).2.slots = i.slots := checkAbsolute_slots i c
    rw [isFailed_congr hs, hi]
    simp
  | choice c =>
    have hs : (i.check (.choice c)).2.slots = i.slots := (checkChoice_arena i c).2
    rw [isFailed_congr hs, hi]
    simp
  | relative c =>
    refine (checkRelative_isFailed hi c).trans ⟨fun h => ⟨c, rfl, h⟩, ?_⟩
    rintro ⟨r, hr, h⟩
    cases hr
    exact h

theorem check_live (hi : i.isFailed = false) {c : Constraint W} (hc : i.check c = (true, j)) :
    j.isFailed = false :=
  (isFailed_congr (check_slots hc)).trans hi

theorem checkAll_isFailed (hi : i.isFailed = false) (cs : List (Constraint W)) :
    (checkAll cs i).2.isFailed = true ↔ ∃ first c rest k, cs = first ++ .relative c :: rest ∧
      checkAll first i = (true, k) ∧ k.Clashes c := by
  induction cs generalizing i with
  | nil => simp [checkAll, hi]
  | cons c cs ih =>
    rcases hc : i.check c with ⟨_ | _, j⟩
    · have hcheck := check_isFailed hi c
      rw [hc] at hcheck
      rw [checkAll, hc, hcheck]
      constructor
      · rintro ⟨r, rfl, hclash⟩
        exact ⟨[], r, cs, i, rfl, rfl, hclash⟩
      · rintro ⟨_ | ⟨d, first⟩, r, rest, k, hcs, hfirst, hclash⟩
        · cases hcs
          cases hfirst
          exact ⟨r, rfl, hclash⟩
        · cases hcs
          rw [checkAll, hc] at hfirst
          cases hfirst
    · rw [checkAll, hc, ih (check_live hi hc)]
      constructor
      · rintro ⟨first, r, rest, k, rfl, hfirst, hclash⟩
        exact ⟨c :: first, r, rest, k, rfl, checkAll_cons_eq_true.2 ⟨j, hc, hfirst⟩, hclash⟩
      · rintro ⟨_ | ⟨d, first⟩, r, rest, k, hcs, hfirst, hclash⟩
        · cases hcs
          cases hfirst
          have hfailed := (check_isFailed hi (.relative r)).2 ⟨r, rfl, hclash⟩
          rw [hc, check_live hi hc] at hfailed
          cases hfailed
        · cases hcs
          obtain ⟨j', hj', hfirst⟩ := checkAll_cons_eq_true.1 hfirst
          cases hc.symm.trans hj'
          exact ⟨first, r, rest, k, rfl, hfirst, hclash⟩

/-- What passes is live, and what has failed does not pass. A live interpretation fails exactly when
the first constraint that rejects it is a relative one with a clash. What has failed is live again,
with one slot, once a candidate is added. -/
theorem eval_isFailed (i : Interpretation W) (cs : ConstraintSet W) :
    ((i.eval cs).1 = true → (i.eval cs).2.isFailed = false) ∧
    (i.isFailed = true → (i.eval cs).1 = false ∧ (i.eval cs).2.isFailed = true) ∧
    (i.isFailed = false → ((i.eval cs).2.isFailed = true ↔
      ∃ first c rest k, cs.toList = first ++ .relative c :: rest ∧
        checkAll first i.restart = (true, k) ∧ k.Clashes c)) ∧
    (i.isFailed = true → ∀ slot s, (Extension.merge ⟨i, slot, s⟩).isFailed = false ∧
      ∀ t, (Extension.merge ⟨i, slot, s⟩).Assigned t ↔ t = slot) := by
  refine ⟨fun h => ?_, fun h => ?_, fun h => ?_, fun h slot s => ?_⟩
  · obtain ⟨j, hj⟩ := exists_eq_true h
    rw [hj, isFailed_congr (eval_slots hj)]
    exact (eval_eq_true.1 hj).1
  · rw [eval_eq, if_pos h]
    exact ⟨rfl, h⟩
  · rw [eval_eq, h, if_neg (by simp)]
    exact checkAll_isFailed (i := i.restart) h cs.toList
  · have hlive := Extension.merge_live (e := ⟨i, slot, s⟩) (not_assigned_of_isFailed h)
    refine ⟨hlive, fun t => ?_⟩
    rw [Extension.merge_assigned hlive]
    exact or_iff_left (not_assigned_of_isFailed h)

end Interpretation

namespace Search
open Interpretation

/-- Rejected: its one slot was given two values. -/
def spent : Interpretation Float := Extension.merge ⟨seated 1, 1, .single [⟨1⟩] ⟨2⟩⟩

def wanted : ConstraintSet Float := .ofList [.absolute ⟨⟨1, [⟨1⟩]⟩, ⟨2⟩⟩]

/-- Rejected over a value an interpretation does not count as failed, and one that does is live
again with the next candidate. -/
theorem rejection_forgotten :
    ((seated 1).eval wanted).1 = false ∧ ((seated 1).eval wanted).2.isFailed = false ∧
      spent.isFailed = true ∧
      (Extension.merge ⟨spent, 2, .single [⟨1⟩] ⟨1⟩⟩).isFailed = false := by
  decide

end Search

end FeatureLogic
