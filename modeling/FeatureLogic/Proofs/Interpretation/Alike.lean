import FeatureLogic.Proofs.Arena.Blocking
import FeatureLogic.Proofs.Constraint.Orientation
import FeatureLogic.Proofs.Interpretation.Locality
import FeatureLogic.Proofs.Interpretation.QuickCheck
/-!
Interpretations that cannot be told apart: they assign the same slots, hold the same facts and have
the same probability, though their nodes may lie elsewhere. Held against sets of constraints that
compare as equal they pass together or fail together, and what passes cannot be told apart either.
-/
set_option autoImplicit false

namespace FeatureLogic

namespace Interpretation

variable {W : Type} {i j k : Interpretation W} {F : Facts}

structure Alike (i j : Interpretation W) : Prop where
  left : i.WellFormed
  right : j.WellFormed
  assigned : j.Assigned = i.Assigned
  facts : j.facts = i.facts
  probability : j.probability = i.probability

theorem Alike.refl (hi : i.WellFormed) : Alike i i := ⟨hi, hi, rfl, rfl, rfl⟩

theorem Alike.isFailed (h : Alike i j) : j.isFailed = i.isFailed := by
  rw [← Bool.not_inj_iff, Bool.eq_iff_iff, Bool.not_eq_true', Bool.not_eq_true', isFailed_eq_false,
    isFailed_eq_false, h.assigned]

/-- Outcomes that cannot be told apart. What a failure leaves in the arena is not looked at. -/
structure SameOutcome (p q : Bool × Interpretation W) : Prop where
  passes : q.1 = p.1
  isFailed : q.2.isFailed = p.2.isFailed
  probability : q.2.probability = p.2.probability
  alike : p.1 = true → Alike p.2 q.2

theorem SameOutcome.of_alike (h : Alike i j) (b : Bool) : SameOutcome (b, i) (b, j) :=
  ⟨rfl, h.isFailed, h.probability, fun _ => h⟩

theorem SameOutcome.andThen {p q : Bool × Interpretation W}
    {f g : Interpretation W → Bool × Interpretation W} (h : SameOutcome p q)
    (hfg : ∀ k l, p = (true, k) → Alike k l → SameOutcome (f k) (g l)) :
    SameOutcome (andThen p f) (andThen q g) := by
  obtain ⟨b, k⟩ := p
  obtain ⟨b', l⟩ := q
  obtain rfl : b' = b := h.passes
  cases b' with
  | true => exact hfg k l rfl (h.alike rfl)
  | false => exact h

/-! ## Relative constraints -/

section Relative
variable {c d : Relative}

theorem checkRelative_facts (hi : i.WellFormed)
    (hA : (i.facts ⊔ c.factsOn i.Assigned).closure.Acyclic) (hrun : i.checkRelative c = (true, j)) :
    j.WellFormed ∧ j.facts = (i.facts ⊔ c.factsOn i.Assigned).closure := by
  have hle := Facts.le_closure (i.facts ⊔ c.factsOn i.Assigned)
  obtain ⟨hij, hc⟩ := (checkRelative_spec hi (Facts.closed_closure _) hA
    (le_sup_left.trans hle) (le_sup_right.trans hle)).1 j hrun
  refine ⟨hij.wellFormed, le_antisymm hij.le ?_⟩
  exact Facts.closure_le hij.wellFormed.closed_facts (sup_le hij.facts_le hc)

theorem checkRelative_eq_true (hi : i.WellFormed)
    (hA : (i.facts ⊔ c.factsOn i.Assigned).closure.Acyclic) : (i.checkRelative c).1 = true ↔
      (i.facts ⊔ c.factsOn i.Assigned).closure.Consistent := by
  have hle := Facts.le_closure (i.facts ⊔ c.factsOn i.Assigned)
  refine ⟨fun h => ?_, (checkRelative_spec hi (Facts.closed_closure _) hA
    (le_sup_left.trans hle) (le_sup_right.trans hle)).2⟩
  obtain ⟨j, hj⟩ := exists_eq_true h
  obtain ⟨hwf, hfacts⟩ := checkRelative_facts hi hA hj
  exact hfacts ▸ hwf.consistent_facts

/-- A rejection is recorded if it is over a clash, not if it is over a blocked path. -/
theorem checkRelative_isFailed_iff (hi : i.WellFormed) (h : (i.checkRelative c).1 = false) :
    (i.checkRelative c).2.isFailed = true ↔
      ¬ (i.facts.Blocked c.lhs ∨ i.facts.Blocked c.rhs) := by
  by_cases hs : i.Assigned c.lhs.slot ∧ i.Assigned c.rhs.slot
  · obtain ⟨⟨l, hl⟩, ⟨r, hr⟩⟩ := hs
    have hlive : i.isFailed = false := isFailed_eq_false.2 ⟨_, l, hl⟩
    have herror := Arena.equate_error_iff hi.arena hi.root_lt hl hr
    rw [checkRelative_of_roots hl hr] at h ⊢
    rw [facts, ← herror]
    generalize i.arena.equate l c.lhs.path r c.rhs.path = e at *
    rcases e with ⟨e | _ | _, g⟩
    · exact iff_of_false (by simpa [isFailed] using hlive) (not_not.2 ⟨e, rfl⟩)
    · refine iff_of_true rfl ?_
      rintro ⟨e, he⟩
      cases he
    · cases h
  · rw [checkRelative_of_unassigned hs] at h
    cases h

/-- What is blocked for a pair is blocked for the pair the other way round. -/
theorem blocked_congr (hcd : compare c d = .eq) :
    F.Blocked d.lhs ∨ F.Blocked d.rhs ↔ F.Blocked c.lhs ∨ F.Blocked c.rhs := by
  rcases Relative.compare_eq_iff_flip.1 hcd with rfl | rfl
  · exact Iff.rfl
  · exact or_comm

theorem checkRelative_alike (h : Alike i j) (hcd : compare c d = .eq)
    (hA : (i.facts ⊔ c.factsOn i.Assigned).closure.Acyclic) :
    SameOutcome (i.checkRelative c) (j.checkRelative d) := by
  have hclosure : (j.facts ⊔ d.factsOn j.Assigned).closure =
      (i.facts ⊔ c.factsOn i.Assigned).closure := by
    rw [h.facts, h.assigned, Relative.closure_factsOn_congr hcd]
  have hA' := hclosure ▸ hA
  have hpasses : (j.checkRelative d).1 = (i.checkRelative c).1 := by
    rw [Bool.eq_iff_iff, checkRelative_eq_true h.left hA, checkRelative_eq_true h.right hA',
      hclosure]
  have hp : (j.checkRelative d).2.probability = (i.checkRelative c).2.probability := by
    rw [checkRelative_probability, checkRelative_probability, h.probability]
  have halike : (i.checkRelative c).1 = true →
      Alike (i.checkRelative c).2 (j.checkRelative d).2 := by
    intro hi
    obtain ⟨k, hk⟩ := exists_eq_true hi
    obtain ⟨l, hl⟩ := exists_eq_true (hpasses.trans hi)
    obtain ⟨hkwf, hkfacts⟩ := checkRelative_facts h.left hA hk
    obtain ⟨hlwf, hlfacts⟩ := checkRelative_facts h.right hA' hl
    rw [hk, hl] at hp ⊢
    refine ⟨hkwf, hlwf, ?_, ?_, hp⟩
    · rw [assigned_congr (checkRelative_slots hl), assigned_congr (checkRelative_slots hk),
        h.assigned]
    · rw [hlfacts, hkfacts, hclosure]
  refine ⟨hpasses, ?_, hp, halike⟩
  cases hi : (i.checkRelative c).1 with
  | true => exact (halike hi).isFailed
  | false =>
    rw [Bool.eq_iff_iff, checkRelative_isFailed_iff h.left hi,
      checkRelative_isFailed_iff h.right (hpasses.trans hi), h.facts, blocked_congr hcd]

end Relative

/-! ## Absolute constraints and choices -/

theorem checkAbsolute_alike (h : Alike i j) (c : Absolute) :
    SameOutcome (i.checkAbsolute c) (j.checkAbsolute c) := by
  have hpasses : (j.checkAbsolute c).1 = (i.checkAbsolute c).1 := by
    rw [Bool.eq_iff_iff, checkAbsolute_eq_true h.left, checkAbsolute_eq_true h.right, h.assigned,
      h.facts]
  have hp : (j.checkAbsolute c).2.probability = (i.checkAbsolute c).2.probability := by
    rw [checkAbsolute_probability, checkAbsolute_probability, h.probability]
  have hassigned : (j.checkAbsolute c).2.Assigned = (i.checkAbsolute c).2.Assigned := by
    rw [assigned_congr (checkAbsolute_slots j c), assigned_congr (checkAbsolute_slots i c),
      h.assigned]
  refine ⟨hpasses, ?_, hp, fun hi => ?_⟩
  · have hslots : ∀ i : Interpretation W, (i.checkAbsolute c).2.isFailed = i.isFailed :=
      fun i => by rw [isFailed, checkAbsolute_slots, isFailed]
    rw [hslots, hslots, h.isFailed]
  · obtain ⟨k, hk⟩ := exists_eq_true hi
    obtain ⟨l, hl⟩ := exists_eq_true (hpasses.trans hi)
    have hbot : ∀ {i : Interpretation W}, i.WellFormed → i.facts = (i.facts ⊔ ⊥).closure :=
      fun hi => by rw [sup_bot_eq, hi.closed_facts.closure_eq]
    obtain ⟨hik, hkfacts⟩ := checkAbsolute_facts h.left (hbot h.left) hk
    obtain ⟨hjl, hlfacts⟩ := checkAbsolute_facts h.right (hbot h.right) hl
    rw [hk, hl] at hp hassigned ⊢
    refine ⟨hik.wellFormed, hjl.wellFormed, hassigned, ?_, hp⟩
    rw [hlfacts, hkfacts, h.facts, h.assigned]

section Choice
variable [Weight W] {c : Choice W}

/-- A rejected choice makes the probability zero only if it has found an atom. -/
theorem checkChoice_probability_of_rejected (h : (i.checkChoice c).1 = false) :
    ((∃ a, i.facts.value c.term a) → (i.checkChoice c).2.probability = Weight.impossible) ∧
      ((¬ ∃ a, i.facts.value c.term a) → (i.checkChoice c).2.probability = i.probability) := by
  unfold checkChoice at h ⊢
  cases hr : i.slots.get? c.term.slot with
  | none => simp [hr] at h
  | some root =>
    rw [hr] at h
    dsimp only at h ⊢
    have hvalue : ∀ {a}, i.facts.value c.term a →
        ∃ n, i.arena.lookup root c.term.path = .found n ∧ i.arena.content n = .atom a := by
      rintro a ⟨n, hn, ha⟩
      exact ⟨n, (Arena.leads_iff hr).1 hn, ha⟩
    cases hl : i.arena.lookup root c.term.path with
    | missing => simp [hl] at h
    | blocked =>
      refine ⟨?_, fun _ => rfl⟩
      rintro ⟨a, ha⟩
      obtain ⟨n, hn, -⟩ := hvalue ha
      cases hl.symm.trans hn
    | found n =>
      rw [hl] at h
      dsimp only at h ⊢
      have hatom : (∃ a, i.facts.value c.term a) ↔ ∃ a, i.arena.content n = .atom a := by
        have hn : i.arena.Leads i.slots.get? c.term n := (Arena.leads_iff hr).2 hl
        exact exists_congr fun a => hn.value_iff
      rw [hatom]
      cases hcon : i.arena.content n with
      | empty => simp
      | complex children => simp
      | atom a =>
        rw [hcon] at h
        dsimp only at h ⊢
        cases hp : c.probability? a with
        | none => simp
        | some p => simp [hp] at h

theorem Alike.weightOf (h : Alike i j) (hc : Meets i.facts c) : j.weightOf c = i.weightOf c := by
  rcases hc.not_has_or_value with hnone | ⟨a, ha⟩
  · rw [weightOf_of_not_has hnone, weightOf_of_not_has (h.facts ▸ hnone)]
  · rw [weightOf_of_value ha, weightOf_of_value (h.facts ▸ ha)]

theorem Alike.checkChoice_passes (h : Alike i j) (c : Choice W) :
    (j.checkChoice c).1 = (i.checkChoice c).1 := by
  rw [Bool.eq_iff_iff, checkChoice_eq_true h.left, checkChoice_eq_true h.right, h.assigned, h.facts]

theorem Alike.checkChoice_probability (h : Alike i j) (c : Choice W) :
    (j.checkChoice c).2.probability = (i.checkChoice c).2.probability := by
  have hpasses := h.checkChoice_passes c
  cases hi : (i.checkChoice c).1 with
  | false =>
    obtain ⟨hvalue, hnone⟩ := checkChoice_probability_of_rejected hi
    obtain ⟨hvalue', hnone'⟩ := checkChoice_probability_of_rejected (hpasses.trans hi)
    rw [h.facts] at hvalue' hnone'
    by_cases ha : ∃ a, i.facts.value c.term a
    · rw [hvalue ha, hvalue' ha]
    · rw [hnone ha, hnone' ha, h.probability]
  | true =>
    by_cases hs : i.Assigned c.term.slot
    · obtain ⟨k, hk⟩ := exists_eq_true hi
      obtain ⟨l, hl⟩ := exists_eq_true (hpasses.trans hi)
      have hweight := h.weightOf ((checkChoice_eq_true h.left).1 hi hs)
      rw [hk, hl]
      dsimp only
      rw [Interpretation.checkChoice_probability hs hk,
        Interpretation.checkChoice_probability (h.assigned ▸ hs) hl, h.probability, hweight]
    · rw [checkChoice_of_unassigned hs, checkChoice_of_unassigned (h.assigned ▸ hs), h.probability]

theorem checkChoice_alike (h : Alike i j) (c : Choice W) :
    SameOutcome (i.checkChoice c) (j.checkChoice c) := by
  obtain ⟨harena, hslots⟩ := checkChoice_arena i c
  obtain ⟨harena', hslots'⟩ := checkChoice_arena j c
  have halike : Alike (i.checkChoice c).2 (j.checkChoice c).2 := by
    refine ⟨wellFormed_congr harena hslots h.left, wellFormed_congr harena' hslots' h.right, ?_, ?_,
      h.checkChoice_probability c⟩
    · rw [assigned_congr hslots, assigned_congr hslots', h.assigned]
    · rw [facts_congr harena hslots, facts_congr harena' hslots', h.facts]
  exact ⟨h.checkChoice_passes c, halike.isFailed, halike.probability, fun _ => halike⟩

end Choice

/-! ## Evaluation -/

variable [Weight W] {cs ds : ConstraintSet W}

/-- The sharing that all the pairs ask for makes no cycle, so none does on the way. -/
theorem checkRelatives_alike (hF : F.Closed) (hA : F.Acyclic) {rs rs' : List Relative}
    (hall : List.Forall₂ (fun c d => compare c d = .eq) rs rs') (h : Alike i j) (hle : i.facts ≤ F)
    (hrs : Facts.all (rs.map (·.factsOn i.Assigned)) ≤ F) :
    SameOutcome (checkAll (rs.map .relative) i) (checkAll (rs'.map .relative) j) := by
  induction hall generalizing i j with
  | nil => exact .of_alike h true
  | @cons c d rs rs' hcd _ ih =>
    rw [List.map_cons, Facts.all_cons, sup_le_iff] at hrs
    have hA' : (i.facts ⊔ c.factsOn i.Assigned).closure.Acyclic :=
      hA.mono (Facts.closure_le hF (sup_le hle hrs.1))
    rw [List.map_cons, List.map_cons, checkAll_cons, checkAll_cons]
    refine (checkRelative_alike h hcd hA').andThen fun k l hk hkl => ih hkl ?_ ?_
    · rw [(checkRelative_facts h.left hA' hk).2]
      exact Facts.closure_le hF (sup_le hle hrs.1)
    · rw [assigned_congr (checkRelative_slots hk)]
      exact hrs.2

theorem checkAbsolutes_alike (as : List Absolute) (h : Alike i j) :
    SameOutcome (checkAll (as.map .absolute) i) (checkAll (as.map .absolute) j) := by
  induction as generalizing i j with
  | nil => exact .of_alike h true
  | cons c as ih =>
    rw [List.map_cons, checkAll_cons, checkAll_cons]
    exact (checkAbsolute_alike h c).andThen fun _ _ _ hkl => ih hkl

theorem checkChoices_alike (choices : List (Choice W)) (h : Alike i j) :
    SameOutcome (checkAll (choices.map .choice) i) (checkAll (choices.map .choice) j) := by
  induction choices generalizing i j with
  | nil => exact .of_alike h true
  | cons c choices ih =>
    rw [List.map_cons, checkAll_cons, checkAll_cons]
    exact (checkChoice_alike h c).andThen fun _ _ _ hkl => ih hkl

/-- What has failed fails any set of constraints. -/
theorem eval_of_isFailed (hi : i.isFailed = true) (hj : j.isFailed = true) :
    SameOutcome (i.eval cs) (j.eval ds) := by
  rw [eval_eq, eval_eq, if_pos hi, if_pos hj]
  exact ⟨rfl, hj.trans hi.symm, rfl, fun h => by cases h⟩

theorem eval_alike (hcs : compare cs ds = .eq) (h : Alike i j)
    (hA : (i.facts ⊔ cs.sharing i.Assigned).closure.Acyclic) :
    SameOutcome (i.eval cs) (j.eval ds) := by
  obtain ⟨habsolutes, hrelatives, hchoices⟩ := ConstraintSet.of_compare_eq hcs
  have hrestart : Alike i.restart j.restart :=
    ⟨⟨h.left.arena, h.left.root_lt⟩, ⟨h.right.arena, h.right.root_lt⟩, h.assigned, h.facts, rfl⟩
  have hle := Facts.le_closure (i.facts ⊔ cs.sharing i.Assigned)
  rw [eval_eq, eval_eq, h.isFailed]
  cases i.isFailed with
  | true => exact .of_alike hrestart false
  | false =>
    simp only [Bool.false_eq_true, if_false, ConstraintSet.toList, checkAll_append, habsolutes,
      hchoices]
    have hstart := checkRelatives_alike (Facts.closed_closure _) hA hrelatives hrestart
      (le_sup_left.trans hle) (le_sup_right.trans hle)
    refine (hstart.andThen fun _ _ _ hkl => ?_).andThen fun _ _ _ hkl => ?_
    · exact checkAbsolutes_alike cs.absolutes.toList hkl
    · exact checkChoices_alike cs.choices.toList hkl

end Interpretation

/-! ## Extensions -/

namespace Extension
open Interpretation

variable {W : Type} {e : Extension W} {i j : Interpretation W}

theorem compareFound_comm {test test' : NodeId → NodeId → Bool}
    (h : ∀ m n, test' n m = test m n) (x y : Lookup NodeId) :
    compareFound test x y = compareFound test' y x := by
  cases x <;> cases y <;> first | rfl | exact (h _ _).symm

theorem admitsRelative_flip (e : Extension W) {c : Relative}
    (hmentions : c.lhs.slot = e.slot ∨ c.rhs.slot = e.slot) :
    e.admitsRelative c.flip = e.admitsRelative c := by
  unfold admitsRelative Relative.flip
  by_cases hl : c.lhs.slot = e.slot
  · by_cases hr : c.rhs.slot = e.slot
    · simp only [hl, hr, if_true]
      refine compareFound_comm (fun m n => ?_) _ _
      exact Arena.feasibleWithin_comm (fun m n => by simp only [eq_comm]) _ _ _
    · simp only [hl, hr, if_true, if_false]
  · have hr := hmentions.resolve_left hl
    simp only [hl, hr, if_true, if_false]

variable [Weight W] {cs ds : ConstraintSet W}

theorem admits_congr {c d : Constraint W} (h : compare c d = .eq)
    (hmentions : c.mentions e.slot = true) : e.admits d = e.admits c := by
  rcases Constraint.compare_eq_iff.1 h with rfl | rfl
  · rfl
  · cases c with
    | absolute c => rfl
    | relative c =>
      refine e.admitsRelative_flip ?_
      simpa [Constraint.mentions] using hmentions
    | choice c => rfl

theorem quickCheck_congr (h : compare cs ds = .eq) (e : Extension W) :
    e.quickCheck ds = e.quickCheck cs := by
  unfold quickCheck
  cases e.base.slot? e.slot with
  | some own => rfl
  | none =>
    dsimp only
    have hall := ConstraintSet.toList_of_compare_eq h
    generalize cs.toList = as at *
    generalize ds.toList = bs at *
    induction hall with
    | nil => rfl
    | @cons c d as bs hcd _ ih =>
      rw [List.filter_cons, List.filter_cons, Constraint.mentions_congr hcd]
      by_cases hm : c.mentions e.slot = true
      · rw [if_pos hm, if_pos hm, List.all_cons, List.all_cons, ih, admits_congr hcd hm]
      · rw [if_neg hm, if_neg hm, ih]

omit [Weight W] in
theorem merge_probability (e : Extension W) : e.merge.probability = e.base.probability := by
  unfold merge
  dsimp only
  repeat' split
  all_goals rfl

omit [Weight W] in
theorem merge_live_iff (hb : e.base.WellFormed) (hs : e.candidate.WellFormed)
    (hA : (e.base.facts ⊔ e.candidate.factsAt e.slot).closure.Acyclic) :
    e.merge.isFailed = false ↔ (e.base.Assigned e.slot →
      (e.base.facts ⊔ e.candidate.factsAt e.slot).closure.Consistent) := by
  obtain ⟨hmerged, hlive⟩ := merge_spec hb hs hA
  refine ⟨fun h _ => ?_, hlive⟩
  have hm := hmerged h
  rw [← hm.facts]
  exact hm.wellFormed.consistent_facts

omit [Weight W] in
/-- A candidate merged into interpretations that cannot be told apart. -/
theorem merge_alike (h : Alike i j) {slot : SlotIndex} {s : FeatureStructure} (hs : s.WellFormed)
    (hA : (i.facts ⊔ s.factsAt slot).closure.Acyclic) :
    (merge ⟨j, slot, s⟩).isFailed = (merge ⟨i, slot, s⟩).isFailed ∧
      ((merge ⟨i, slot, s⟩).isFailed = false →
        Alike (merge ⟨i, slot, s⟩) (merge ⟨j, slot, s⟩)) := by
  have hA' : (j.facts ⊔ s.factsAt slot).closure.Acyclic := h.facts ▸ hA
  have hfailed : (merge ⟨j, slot, s⟩).isFailed = (merge ⟨i, slot, s⟩).isFailed := by
    rw [← Bool.not_inj_iff, Bool.eq_iff_iff, Bool.not_eq_true', Bool.not_eq_true',
      merge_live_iff (e := ⟨i, slot, s⟩) h.left hs hA,
      merge_live_iff (e := ⟨j, slot, s⟩) h.right hs hA']
    dsimp only
    rw [h.assigned, h.facts]
  refine ⟨hfailed, fun hlive => ?_⟩
  have hi := (merge_spec (e := ⟨i, slot, s⟩) h.left hs hA).1 hlive
  have hj := (merge_spec (e := ⟨j, slot, s⟩) h.right hs hA').1 (hfailed.trans hlive)
  refine ⟨hi.wellFormed, hj.wellFormed, ?_, ?_, ?_⟩
  · funext t
    rw [hi.assigned_eq, hj.assigned_eq, Extension.Assigned, Extension.Assigned, h.assigned]
  · rw [hi.facts, hj.facts, h.facts]
  · rw [merge_probability, merge_probability, h.probability]

end Extension

end FeatureLogic
