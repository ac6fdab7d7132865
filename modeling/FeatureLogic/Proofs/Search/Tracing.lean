import FeatureLogic.Proofs.Constraint.Set
import FeatureLogic.Proofs.Search.Product
/-!
The way of one choice of candidates through a search. It ends in an interpretation with the facts of
its candidates, those that the constraints ask for, and what these force.
-/
set_option autoImplicit false

namespace FeatureLogic.Search
open Interpretation

variable {W : Type} [Weight W] {cs : ConstraintSet W} {columns : List (SlotIndex × OptionColumn)}
  {slot : SlotIndex} {i r : Interpretation W} {s : FeatureStructure} {picks done : List Pick}
  {pick : Pick}

def slotsOf (picks : List Pick) (s : SlotIndex) : Prop := s ∈ picks.map (·.1)

/-- The facts of the picks, those the constraints ask for on their slots, and what these force. -/
def forced (cs : ConstraintSet W) (picks : List Pick) : Facts :=
  (factsOf picks ⊔ cs.facts (slotsOf picks)).closure

/-- The interpretation that is left of the picks once the constraints have been checked on them. -/
structure Traced (cs : ConstraintSet W) (picks : List Pick) (r : Interpretation W) : Prop where
  wellFormed : r.WellFormed
  assigned : r.Assigned = slotsOf picks
  facts : r.facts = forced cs picks
  meets {c : Choice W} : c ∈ cs.choices.toList → slotsOf picks c.term.slot → Meets r.facts c
  probability : r.probability = (cs.choices.toList.filter fun c =>
    r.slots.contains c.term.slot).foldl (fun p c => Weight.times p (r.weightOf c)) Weight.certain

theorem slotsOf_concat {s : SlotIndex} :
    slotsOf (done ++ [pick]) s ↔ s = pick.1 ∨ slotsOf done s := by
  simp [slotsOf, or_comm]

theorem forced_nil (cs : ConstraintSet W) : forced cs [] = ⊥ := by
  have hclosed : (⊥ : Facts).Closed :=
    ⟨False.elim, False.elim, False.elim, False.elim, False.elim, False.elim⟩
  refine le_bot_iff.1 (Facts.closure_le hclosed (sup_le (factsOf_nil ▸ le_rfl) (sup_le ?_ ?_)))
  · refine Facts.all_le.2 (List.forall_mem_map.2 fun c _ => Relative.factsOn_le.2 fun h => ?_)
    cases h
  · refine Facts.all_le.2 (List.forall_mem_map.2 fun c _ => Absolute.factsOn_le.2 fun h => ?_)
    cases h

theorem forced_concat (cs : ConstraintSet W) (done : List Pick) (pick : Pick) :
    ((forced cs done ⊔ pick.facts).closure ⊔ cs.facts (slotsOf (done ++ [pick]))).closure =
      forced cs (done ++ [pick]) := by
  -- what the constraints asked for earlier they ask for again
  have hcs : cs.facts (slotsOf done) ⊔ cs.facts (slotsOf (done ++ [pick])) =
      cs.facts (slotsOf (done ++ [pick])) :=
    sup_eq_right.2 (ConstraintSet.facts_mono fun s hs => slotsOf_concat.2 (.inr hs))
  rw [forced, forced, factsOf_append, factsOf_cons, factsOf_nil, sup_bot_eq,
    Facts.closure_sup_closure, sup_assoc, Facts.closure_sup_closure]
  congr 1
  rw [sup_assoc, sup_left_comm _ pick.facts, hcs, ← sup_assoc]

/-- What is left of the earlier picks, with one more candidate merged in but not yet checked. -/
structure Entered (cs : ConstraintSet W) (done : List Pick) (pick : Pick)
    (m : Interpretation W) : Prop where
  wellFormed : m.WellFormed
  assigned : m.Assigned = slotsOf (done ++ [pick])
  facts : m.facts = (forced cs done ⊔ pick.facts).closure

theorem Entered.start (cs : ConstraintSet W) (hwf : s.WellFormed)
    (hacyclic : (s.factsAt slot).Acyclic) : Entered cs [] (slot, s) (ofStructure slot s) := by
  obtain ⟨hm, hassigned, hfacts⟩ := ofStructure_spec (W := W) hwf hacyclic
  refine ⟨hm, funext fun t => propext ((hassigned t).trans ?_), ?_⟩
  · simp [slotsOf]
  · rw [hfacts, forced_nil, bot_sup_eq]
    exact (hwf.closed_factsAt slot).closure_eq.symm

theorem Traced.enter (hd : Traced cs done i)
    (hm : Extension.Merged ⟨i, pick.1, pick.2⟩ (Extension.merge ⟨i, pick.1, pick.2⟩)) :
    Entered cs done pick (Extension.merge ⟨i, pick.1, pick.2⟩) := by
  refine ⟨hm.wellFormed, funext fun s => ?_, ?_⟩
  · rw [propext (hm.assigned s), hd.assigned]
    exact propext slotsOf_concat.symm
  · rw [hm.facts, hd.facts]
    rfl

theorem Entered.traced {m : Interpretation W} (hm : Entered cs done pick m)
    (hr : Evaluates cs m r) : Traced cs (done ++ [pick]) r where
  wellFormed := hr.wellFormed
  assigned := (assigned_congr hr.slots).trans hm.assigned
  facts := by rw [hr.facts, hm.assigned, hm.facts, forced_concat]
  meets hc hs := hr.meets hc (hm.assigned ▸ hs)
  probability := by rw [hr.probability, hr.slots]

theorem Traced.extend (hd : Traced cs done i) (hc : Candidates columns)
    (hA : AcyclicMerges cs columns i.facts i.Assigned) (hpicks : Picks columns picks)
    (hrun : extend cs picks i = some r) : Traced cs (done ++ picks) r := by
  induction columns generalizing done i picks with
  | nil =>
    cases hpicks
    cases hrun
    simpa using hd
  | cons entry columns ih =>
    obtain ⟨slot, column⟩ := entry
    obtain ⟨s, hs, rest, hrest, rfl⟩ := picks_cons.1 hpicks
    obtain ⟨j, hj, hrun⟩ := extend_cons_eq_some.1 hrun
    obtain ⟨hm, hev, hA⟩ := hA.extend hd.wellFormed (hc.head hs) hs hj
    have hstep : Traced cs (done ++ [(slot, s)]) j := (hd.enter hm).traced hev
    simpa using ih hstep hc.tail hA hrest hrun

theorem traced_of_trace (hc : Candidates columns)
    (hA : AcyclicMerges cs columns ⊥ fun _ => False) (hpicks : Picks columns picks)
    (hrun : trace cs picks = some r) : Traced cs picks r := by
  cases columns with
  | nil =>
    cases hpicks
    cases hrun
  | cons entry columns =>
    obtain ⟨slot, column⟩ := entry
    obtain ⟨s, hs, rest, hrest, rfl⟩ := picks_cons.1 hpicks
    obtain ⟨j, hj, hrun⟩ := trace_cons_eq_some.1 hrun
    obtain ⟨hev, hA'⟩ := hA.seed (hc.head hs) hs hj
    have hacyclic := (hA.head hs).mono
      (le_sup_right.trans (le_sup_left.trans (Facts.le_closure _)))
    have hstart : Traced cs ([] ++ [(slot, s)]) j :=
      (Entered.start cs (hc.head hs) hacyclic).traced hev
    exact hstart.extend hc.tail hA' hrest hrun

end FeatureLogic.Search
