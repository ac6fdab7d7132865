import FeatureLogic.Proofs.Interpretation.Invariant
import FeatureLogic.Proofs.Search.Rejection
import FeatureLogic.Proofs.Search.Resuming
/-!
What a resumed search returns, whatever it is resumed from: interpretations that failed, and some
that were never held against the constraints, are brought into line by the first column. Only with
no column at all do they come back as they are.
-/
set_option autoImplicit false

namespace FeatureLogic

variable {W : Type} [Weight W] {cs : ConstraintSet W}

namespace Interpretation

variable {i j : Interpretation W} {given : Content → Prop}

omit [Weight W] in
theorem Sound.wellFormed (hi : i.Sound given) (hgiven : ¬ given (.complex .empty)) :
    i.WellFormed :=
  ⟨hi.arena.wellFormed hgiven, hi.root_lt⟩

omit [Weight W] in
theorem Sound.of_wellFormed (hi : i.WellFormed) : i.Sound (· = .atom .null) :=
  ⟨.of_wellFormed hi.arena, hi.root_lt⟩

/-- No complex node loses all its children, cycles or not. -/
theorem WellFormed.checkAll (hi : i.WellFormed) (constraints : List (Constraint W)) :
    (checkAll constraints i).2.WellFormed :=
  (Proceeds.checkAll (.of_wellFormed hi) constraints).sound.wellFormed (by simp)

/-- What `j` has of its values and choices after `i` has passed. -/
structure Passes (cs : ConstraintSet W) (i j : Interpretation W) : Prop where
  wellFormed : j.WellFormed
  slots : j.slots = i.slots
  absolute {c : Absolute} : c ∈ cs.absolutes.toList → i.Assigned c.term.slot →
    j.facts.Has c.term ∧ (c.value ≠ .null → j.facts.value c.term c.value)
  meets {c : Choice W} : c ∈ cs.choices.toList → i.Assigned c.term.slot → Meets j.facts c

/-- Values and choices are checked last, on an arena that is extended no further, so they hold even
where relative constraints have made cycles. -/
theorem eval_passes (hi : i.WellFormed) (hrun : i.eval cs = (true, j)) : Passes cs i j := by
  obtain ⟨-, k, l, hk, hl, hj⟩ := eval_eq_true.1 hrun
  have hi' : i.restart.WellFormed := ⟨hi.arena, hi.root_lt⟩
  have hk_wf : k.WellFormed := by
    have h := hi'.checkAll (cs.relatives.toList.map .relative)
    rwa [hk] at h
  have hk_slots : k.slots = i.restart.slots := checkAll_slots hk
  have hle := Facts.le_closure (k.facts ⊔ cs.placing k.Assigned)
  obtain ⟨hkl, hplacing, -⟩ := checkAbsolutes_spec (Facts.closed_closure _) cs.absolutes.toList
    hk_wf (le_sup_left.trans hle) (le_sup_right.trans hle) hl
  obtain ⟨hstep, hmeets⟩ := checkChoices_spec cs.choices.toList hkl.wellFormed
  obtain ⟨harena, hslots, -⟩ := hstep j hj
  have hfacts : j.facts = l.facts := facts_congr harena hslots
  refine ⟨wellFormed_congr harena hslots hkl.wellFormed, ?_, fun {c} hc hs => ?_,
    fun {c} hc hs => ?_⟩
  · exact hslots.trans (hkl.slots.trans hk_slots)
  · rw [hfacts]
    have hs : k.Assigned c.term.slot := assigned_congr hk_slots ▸ hs
    exact Absolute.factsOn_le.1 ((Facts.all_le.1 hplacing) _ (List.mem_map_of_mem hc)) hs
  · rw [hfacts]
    have hs : k.Assigned c.term.slot := assigned_congr hk_slots ▸ hs
    exact hmeets.1 (congrArg Prod.fst hj) c hc (hkl.assigned ▸ hs)

theorem Evaluates.shares (h : Evaluates cs i j) {c : Relative} (hc : c ∈ cs.relatives.toList)
    (hl : i.Assigned c.lhs.slot) (hr : i.Assigned c.rhs.slot) : j.Satisfies (.relative c) := by
  have hfacts : cs.facts i.Assigned ≤ j.facts := h.facts ▸ le_sup_right.trans (Facts.le_closure _)
  have hsharing : c.factsOn i.Assigned ≤ cs.sharing i.Assigned :=
    Facts.all_le.1 le_rfl _ (List.mem_map_of_mem hc)
  exact satisfies_relative.2
    (Relative.factsOn_le.1 (hsharing.trans (le_sup_left.trans hfacts)) hl hr)

end Interpretation

omit [Weight W] in
theorem Extension.merge_wellFormed {e : Extension W} (hb : e.base.WellFormed)
    (hs : e.candidate.WellFormed) : e.merge.WellFormed :=
  (sound_merge (.of_wellFormed hb) (.of_wellFormed hs.arena)).wellFormed (by simp)

namespace Search
open Interpretation

variable {columns : List (SlotIndex × OptionColumn)} {generation previous : List (Interpretation W)}
  {t : OptionTable} {j : Interpretation W} {settings : SearchSettings}

/-- What comes out of columns has come out of the last one. `P` is what the interpretations that
wait for the columns have in common. -/
theorem exists_last (P : List (SlotIndex × OptionColumn) → Interpretation W → Prop)
    (hj : j ∈ (run settings cs columns generation).results) (hne : columns ≠ [])
    (hg : ∀ i ∈ generation, P columns i)
    (hstep : ∀ {slot column columns s i j}, P ((slot, column) :: columns) i → s ∈ column →
      (Extension.merge ⟨i, slot, s⟩).eval cs = (true, j) → P columns j) :
    ∃ slot column s i, P [(slot, column)] i ∧ s ∈ column ∧
      (Extension.merge ⟨i, slot, s⟩).eval cs = (true, j) := by
  induction columns generalizing generation with
  | nil => exact absurd rfl hne
  | cons entry columns ih =>
    obtain ⟨slot, column⟩ := entry
    rw [run_cons] at hj
    cases columns with
    | nil =>
      obtain ⟨s, hs, i, hi, hrun⟩ := mem_survivors settings hj
      exact ⟨slot, column, s, i, hg i hi, hs, hrun⟩
    | cons next columns =>
      refine ih hj (List.cons_ne_nil _ _) fun k hk => ?_
      obtain ⟨s, hs, i, hi, hrun⟩ := mem_survivors settings hk
      exact hstep (hg i hi) hs hrun

/-- The last evaluation that a result has passed. -/
theorem run_passes (hc : Candidates columns) (hg : ∀ i ∈ generation, i.WellFormed)
    (hne : columns ≠ []) (hj : j ∈ (run settings cs columns generation).results) :
    ∃ m : Interpretation W, m.eval cs = (true, j) ∧ Passes cs m j := by
  obtain ⟨slot, column, s, i, ⟨hc, hi⟩, hs, hrun⟩ := exists_last
    (fun columns i => Candidates columns ∧ i.WellFormed) hj hne (fun i hi => ⟨hc, hg i hi⟩)
    fun ⟨hc, hi⟩ hs hrun =>
      ⟨hc.tail, (eval_passes (Extension.merge_wellFormed hi (hc.head hs)) hrun).wellFormed⟩
  exact ⟨_, hrun, eval_passes (Extension.merge_wellFormed hi (hc.head hs)) hrun⟩

/-- Without cycles relative constraints hold after it as well. -/
theorem run_evaluates (hc : Candidates columns) (hg : Ready cs columns generation)
    (hne : columns ≠ []) (hj : j ∈ (run settings cs columns generation).results) :
    ∃ m : Interpretation W, Evaluates cs m j := by
  obtain ⟨slot, column, s, i, ⟨hc, hi, hA⟩, hs, hrun⟩ := exists_last
    (fun columns i => Candidates columns ∧ i.WellFormed ∧
      AcyclicMerges cs columns i.facts i.Assigned) hj hne (fun i hi => ⟨hc, hg i hi⟩) (by
      rintro slot column columns s i j ⟨hc, hi, hA⟩ hs hrun
      obtain ⟨-, hev, hA⟩ := hA.extend hi (hc.head hs) hs hrun
      exact ⟨hc.tail, hev.wellFormed, hA⟩)
  exact ⟨_, (hA.extend hi (hc.head hs) hs hrun).2.1⟩

/-- A search that is not refused leaves no constrained slot open. -/
theorem assigned_of_resume (hj : j ∈ (resume settings previous t cs).results) {s : SlotIndex}
    (hs : s ∈ cs.slots) : j.Assigned s := by
  rw [results_resume] at hj
  split at hj
  · rename_i hcovered
    obtain ⟨i, hi, hassigned⟩ := run_assigned hj
    rcases Bool.or_eq_true_iff.1 (List.all_eq_true.1 hcovered s hs) with ht | hprevious
    · exact (hassigned s).2 (.inr (SortedMap.contains_iff_mem_keys.1 ht))
    · exact (hassigned s).2 (.inl (contains_iff.1 (List.all_eq_true.1 hprevious i hi)))
  · cases hj

/-- A search resumed with no column gives back what it is resumed from, if each constrained slot is
assigned in all of it. Resumed with columns it returns live interpretations that hold the values
asked for and meet the choices, and share what they are to share unless a merge makes a cycle. -/
theorem resume_solves (settings : SearchSettings) (cs : ConstraintSet W)
    (hprevious : ∀ i ∈ previous, i.WellFormed) (hc : Candidates t.entries) :
    (t.isEmpty = true → (resume settings previous t cs).results =
      if cs.slots.all fun s => previous.all (·.slots.contains s) then previous else []) ∧
    (t.isEmpty = false → ∀ j ∈ (resume settings previous t cs).results,
      j.isFailed = false ∧
      (∀ c ∈ cs.absolutes.toList, c.value ≠ .null → j.Satisfies (.absolute c)) ∧
      (∀ c ∈ cs.choices.toList, j.Satisfies (.choice c)) ∧
      ((∀ i ∈ previous, AcyclicMerges cs t.entries i.facts i.Assigned) →
        ∀ c ∈ cs.relatives.toList, j.Satisfies (.relative c))) ∧
    ((resume settings previous t cs).found = true ↔
      ∃ j, j ∈ (resume settings previous t cs).results) := by
  refine ⟨fun ht => ?_, fun ht j hj => ?_, ?_⟩
  · have hentries : t.entries = [] := List.isEmpty_iff.1 ht
    have hnone : ∀ s, t.contains s = false := by
      intro s
      rw [SortedMap.contains, SortedMap.get?, hentries, findEntry, Option.isSome_none]
    simp only [results_resume, hnone, Bool.false_or, hentries]
    rfl
  · have hne : t.entries ≠ [] := List.isEmpty_eq_false_iff.1 ht
    have hassigned : ∀ {c : Constraint W} {s}, c ∈ cs.toList → c.mentions s = true →
        j.Assigned s := fun hc hs => assigned_of_resume hj (ConstraintSet.mem_slots hc hs)
    have hrun : j ∈ (run settings cs t.entries previous).results := by
      rw [results_resume] at hj
      split at hj
      · exact hj
      · cases hj
    obtain ⟨m, hm, hpasses⟩ := run_passes hc hprevious hne hrun
    have hmj : j.Assigned = m.Assigned := assigned_congr hpasses.slots
    refine ⟨?_, fun c hmem hvalue => ?_, fun c hmem => ?_, fun hA c hmem => ?_⟩
    · rw [isFailed, hpasses.slots]
      exact (eval_eq_true.1 hm).1
    · have hs := hassigned (s := c.term.slot) (ConstraintSet.absolute_mem hmem)
        (by simp [Constraint.mentions])
      exact satisfies_absolute.2 ((hpasses.absolute hmem (hmj ▸ hs)).2 hvalue)
    · have hs := hassigned (s := c.term.slot) (ConstraintSet.choice_mem hmem)
        (by simp [Constraint.mentions])
      exact hpasses.wellFormed.satisfies_choice hs (hpasses.meets hmem (hmj ▸ hs))
    · obtain ⟨m, hev⟩ := run_evaluates hc (fun i hi => ⟨hprevious i hi, hA i hi⟩) hne hrun
      have hmj : j.Assigned = m.Assigned := assigned_congr hev.slots
      have hmem' := ConstraintSet.relative_mem hmem
      exact hev.shares hmem (hmj ▸ hassigned hmem' (by simp [Constraint.mentions]))
        (hmj ▸ hassigned hmem' (by simp [Constraint.mentions]))
  · simp [SearchOutcome.found, List.isEmpty_eq_false_iff, List.eq_nil_iff_forall_not_mem]

theorem spent_spec : spent.isFailed = true ∧ spent.WellFormed ∧ spent.facts.Graded := by
  have hp : ([⟨1⟩] : Path) ≠ [] := by decide
  have hfailed : spent.isFailed = true := by decide
  refine ⟨hfailed, ?_, fun t u h => ?_⟩
  · exact Extension.merge_wellFormed (seated_spec 1).1 (FeatureStructure.single_spec hp _).1
  · obtain ⟨n, ⟨root, hroot, -⟩, -⟩ := h
    exact absurd ⟨root, hroot⟩ (not_assigned_of_isFailed hfailed)

/-- A search resumed from what was rejected starts over. -/
theorem resume_solves_spent :
    ∃ j ∈ (resume ⟨true⟩ [spent] agreementTable agreement).results, j.isFailed = false ∧
      (∀ c ∈ agreement.absolutes.toList, j.Satisfies (.absolute c)) ∧
      (∀ c ∈ agreement.choices.toList, j.Satisfies (.choice c)) ∧
      ∀ c ∈ agreement.relatives.toList, j.Satisfies (.relative c) := by
  obtain ⟨hfailed, hwf, hgraded⟩ := spent_spec
  have ht := agreementTable_singles
  have hprevious : ∀ i ∈ [spent], i.WellFormed := List.forall_mem_singleton.2 hwf
  obtain ⟨-, hsolves, hfound⟩ := resume_solves ⟨true⟩ agreement hprevious ht.candidates
  obtain ⟨j, hj⟩ := hfound.1 (by decide)
  obtain ⟨hlive, habs, hchoice, hrel⟩ := hsolves (by decide) j hj
  refine ⟨j, hj, hlive, fun c hc => habs c hc ?_, hchoice, hrel ?_⟩
  · exact (by decide : ∀ c ∈ agreement.absolutes.toList, c.value ≠ .null) c hc
  · exact List.forall_mem_singleton.2 (ht.acyclicMerges hgraded agreement_level)

/-- A node shared with a slot, below a node that is then made one with its parent. -/
def loop : ConstraintSet Float :=
  .ofList [.relative ⟨⟨1, [⟨1⟩]⟩, ⟨2, [⟨1⟩, ⟨1⟩, ⟨2⟩]⟩⟩, .relative ⟨⟨2, [⟨1⟩]⟩, ⟨2, []⟩⟩]

def loopTable : OptionTable := .ofList [(2, [.single [⟨1⟩, ⟨1⟩, ⟨2⟩] ⟨1⟩])]

/-- With no column a rejected interpretation and one that was never held against the constraints
come back as they are. With one, a cycle may lose what was shared before it was made. -/
theorem resume_returns_unsolved :
    (∃ j ∈ (resume ⟨true⟩ [spent] .empty (.ofList [])).results, j.isFailed = true) ∧
    (∃ j ∈ (resume ⟨true⟩ [seated 1] .empty wanted).results,
      ∃ c ∈ wanted.absolutes.toList, c.value ≠ .null ∧ ¬ j.Satisfies (.absolute c)) ∧
    ∃ j ∈ (resume ⟨true⟩ [seated 1] loopTable loop).results,
      ∃ c ∈ loop.relatives.toList, ¬ j.Satisfies (.relative c) := by
  refine ⟨⟨spent, List.mem_singleton_self _, by decide⟩,
    ⟨seated 1, List.mem_singleton_self _, ⟨⟨1, [⟨1⟩]⟩, ⟨2⟩⟩, by decide, by decide, ?_⟩, ?_⟩
  · rintro ⟨n, ⟨root, hroot, hl⟩, hcontent⟩
    have hroot' : (seated 1).slots.get? 1 = some 1 := by decide
    cases hroot'.symm.trans hroot
    have hl' : (seated 1).arena.lookup 1 [⟨1⟩] = .found 0 := by decide
    cases hl'.symm.trans hl
    have hcontent' : (seated 1).arena.content 0 = .atom ⟨1⟩ := by decide
    cases hcontent'.symm.trans hcontent
  · have hsome : (resume ⟨true⟩ [seated 1] loopTable loop).results ≠ [] :=
      List.isEmpty_eq_false_iff.1 (by decide)
    obtain ⟨j, hj⟩ := List.exists_mem_of_ne_nil _ hsome
    have hlost : ∀ j ∈ (resume ⟨true⟩ [seated 1] loopTable loop).results,
        (j.slots.get? 2).map (j.arena.lookup · [⟨1⟩, ⟨1⟩, ⟨2⟩]) = some .missing := by decide
    refine ⟨j, hj, ⟨⟨1, [⟨1⟩]⟩, ⟨2, [⟨1⟩, ⟨1⟩, ⟨2⟩]⟩⟩, by decide, ?_⟩
    rintro ⟨n, -, root, hroot, hl⟩
    have hmissing := hlost j hj
    dsimp only at hroot hl
    rw [hroot, Option.map_some, hl] at hmissing
    cases hmissing

end Search

end FeatureLogic
