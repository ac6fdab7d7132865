import FeatureLogic.Proofs.Amalgam
import FeatureLogic.Proofs.Interpretation.Alike
import FeatureLogic.Proofs.Search.FreeSlot
/-!
What becomes of an interpretation that is extended. In a free slot the candidate lies beside the
others. In a slot that is assigned it is merged with what is there, and whatever shares nodes with
the slot takes part in that; but whether the merge fails is decided within the slot.
-/
set_option autoImplicit false

namespace FeatureLogic

open FeatureStructure

variable {W : Type}

namespace Interpretation
variable {i : Interpretation W} {j : SlotIndex} {s : FeatureStructure} {n : NodeId}

theorem slot?_eq_some : i.slot? j = some s ↔
    ∃ n, i.slots.get? j = some n ∧ ⟨i.arena, i.arena.resolve n⟩ = s := by
  unfold slot?
  exact Option.map_eq_some_iff

theorem exists_slot? : i.Assigned j ↔ ∃ s, i.slot? j = some s := by
  simp only [slot?_eq_some, Assigned]
  constructor
  · rintro ⟨n, hn⟩
    exact ⟨_, n, hn, rfl⟩
  · rintro ⟨_, n, hn, -⟩
    exact ⟨n, hn⟩

/-- What is in a slot has the facts that are about the slot. -/
theorem WellFormed.slot? (hi : i.WellFormed) (hs : i.slot? j = some s) :
    s.WellFormed ∧ s.factsAt j = i.facts.on (· = j) := by
  obtain ⟨n, hn, rfl⟩ := slot?_eq_some.1 hs
  have hset := hi.arena.settled
  refine ⟨⟨hi.arena, hset.resolve_lt (hi.root_lt j n hn)⟩, ?_⟩
  rw [← factsAt_slot hn]
  refine le_antisymm (hset.facts_le_of_resolve fun k r hr => ?_)
    (hset.facts_le_of_resolve fun k r hr => ?_)
  · obtain ⟨rfl, rfl⟩ := startAt_eq_some.1 hr
    exact ⟨n, startAt_eq_some.2 ⟨rfl, rfl⟩, hset.resolve_resolve n⟩
  · obtain ⟨rfl, rfl⟩ := startAt_eq_some.1 hr
    exact ⟨_, startAt_eq_some.2 ⟨rfl, rfl⟩, (hset.resolve_resolve n).symm⟩

/-- A structure subsumes what is in a slot if its facts are among those of the interpretation. -/
theorem WellFormed.subsumed_slot?_iff (hi : i.WellFormed) {c : FeatureStructure} (hc : c.WellFormed)
    (hs : i.slot? j = some s) : c.Subsumed s ↔ c.factsAt j ≤ i.facts := by
  obtain ⟨hwf, hfacts⟩ := hi.slot? hs
  rw [subsumed_iff (i := j) hc hwf, hfacts]
  refine ⟨fun h => h.trans (i.facts.on_le _), fun h => ⟨fun t u htu => ?_, fun t a ha => ?_⟩⟩
  · exact ⟨h.1 _ _ htu, (c.factsAt_le_about j).1 _ _ htu⟩
  · exact ⟨h.2 _ _ ha, (c.factsAt_le_about j).2 _ _ ha⟩

end Interpretation

namespace Extension
open Interpretation

variable {e : Extension W} {j k : Interpretation W} {own : FeatureStructure}

theorem base_le_about (i : Interpretation W) : i.facts ≤ Facts.about i.Assigned := by
  refine ⟨?_, ?_⟩
  · rintro t u ⟨n, ⟨r, hr, -⟩, ⟨r', hr', -⟩⟩
    exact ⟨⟨r, hr⟩, r', hr'⟩
  · rintro t a ⟨n, ⟨r, hr, -⟩, -⟩
    exact ⟨r, hr⟩

section
variable (hb : e.base.WellFormed) (hs : e.candidate.WellFormed)
  (hA : (e.base.facts ⊔ e.candidate.factsAt e.slot).closure.Acyclic)
include hb hs hA

/-- The candidate beside the others. -/
theorem merge_free (hfree : ¬ e.base.Assigned e.slot) : e.merge.isFailed = false ∧
    e.merge.WellFormed ∧ Gains e.slot e.base e.merge ∧
    e.merge.structure? e.slot = some e.candidate.compact := by
  obtain ⟨hmerged, hlive⟩ := merge_spec hb hs hA
  have hlive := hlive fun h => absurd h hfree
  obtain ⟨hwf, hassigned, hfacts⟩ := hmerged hlive
  have hbase := base_le_about e.base
  have hcand := e.candidate.factsAt_le_about e.slot
  have hapart : ∀ s, e.base.Assigned s → ¬ s = e.slot := by
    rintro s hs rfl
    exact hfree hs
  have hcandA : (e.candidate.factsAt e.slot).Acyclic :=
    hA.mono (le_sup_right.trans (Facts.le_closure _))
  have hsum : e.merge.facts = e.base.facts ⊔ e.candidate.factsAt e.slot := by
    rw [hfacts, Facts.closure_sup_of_apart hbase hcand hapart, hb.closed_facts.closure_eq,
      (hs.closed_factsAt e.slot).closure_eq]
  obtain ⟨hgains, hown⟩ := Gains.of_sup hb hwf (hA.mono (le_sup_left.trans (Facts.le_closure _)))
    hassigned hbase hcand hapart hsum
  exact ⟨hlive, hwf, hgains, structure?_eq hwf hs hcandA ((hassigned _).2 (.inl rfl)) hown⟩

omit hs in
/-- The facts of a merge into a slot that is assigned. -/
theorem merge_amalgam (hown : e.base.slot? e.slot = some own) :
    own.WellFormed ∧ (own.factsAt e.slot ⊔ e.candidate.factsAt e.slot).closure.Acyclic ∧
    (e.base.facts ⊔ e.candidate.factsAt e.slot).closure =
      e.base.facts.amalgam e.slot (own.factsAt e.slot ⊔ e.candidate.factsAt e.slot).closure := by
  obtain ⟨hwf, hfacts⟩ := hb.slot? hown
  rw [hfacts]
  refine ⟨hwf, hA.mono (Facts.closure_mono (sup_le_sup_right (e.base.facts.on_le _) _)), ?_⟩
  exact Facts.closure_sup_eq_amalgam hb.closed_facts (e.candidate.factsAt_le_about e.slot)
    (exists_slot?.2 ⟨own, hown⟩).has_root

/-- A merge fails as the two structures do on their own. -/
theorem merge_isFailed_iff (hown : e.base.slot? e.slot = some own) :
    e.merge.isFailed = false ↔ (own.unify? e.candidate).isSome = true := by
  obtain ⟨hwf, hownA, hamalgam⟩ := merge_amalgam hb hA hown
  have hassigned : e.base.Assigned e.slot := exists_slot?.2 ⟨own, hown⟩
  have hle : e.base.facts.on (· = e.slot) ≤
      (own.factsAt e.slot ⊔ e.candidate.factsAt e.slot).closure := by
    rw [← (hb.slot? hown).2]
    exact le_sup_left.trans (Facts.le_closure _)
  have hclash : (e.base.facts ⊔ e.candidate.factsAt e.slot).closure.Consistent ↔
      (own.factsAt e.slot ⊔ e.candidate.factsAt e.slot).closure.Consistent := by
    constructor
    · refine Facts.Consistent.mono (Facts.closure_mono (sup_le_sup_right ?_ _))
      rw [(hb.slot? hown).2]
      exact e.base.facts.on_le _
    · intro h
      rw [hamalgam]
      exact Facts.Consistent.amalgam hb.closed_facts (Facts.closed_closure _) hle
        hb.consistent_facts h
  rw [merge_live_iff hb hs hA, forall_prop_of_true hassigned, hclash]
  rcases unify?_spec hwf hs hownA with ⟨c, hc, hcwf, hcfacts⟩ | ⟨hnone, hclash⟩
  · rw [hc, ← hcfacts]
    exact iff_of_true (hcwf.consistent_factsAt _) rfl
  · rw [hnone]
    exact iff_of_false hclash (by simp)

/-- `j` is the base with the candidate merged into the slot, where `own` was: the least that has all
of both. It has nothing but what the merged structure shows wherever its nodes are shared. -/
structure Enriched (e : Extension W) (own : FeatureStructure) (j : Interpretation W) : Prop where
  wellFormed : j.WellFormed
  assigned (s : SlotIndex) : j.Assigned s ↔ e.base.Assigned s
  subsumed : e.base.Subsumed j
  candidate : ∃ s, j.slot? e.slot = some s ∧ e.candidate.Subsumed s
  least {k : Interpretation W} : k.WellFormed → e.base.Subsumed k →
    (∃ s, k.slot? e.slot = some s ∧ e.candidate.Subsumed s) → j.Subsumed k
  structure? : j.structure? e.slot = own.unify? e.candidate
  facts : j.facts = e.base.facts.amalgam e.slot (j.facts.on (· = e.slot))

theorem merge_occupied (hown : e.base.slot? e.slot = some own) (hlive : e.merge.isFailed = false) :
    Enriched e own e.merge := by
  obtain ⟨hownwf, hownA, hamalgam⟩ := merge_amalgam hb hA hown
  obtain ⟨hwf, hassigned, hfacts⟩ := (merge_spec hb hs hA).1 hlive
  have hslot : e.base.Assigned e.slot := exists_slot?.2 ⟨own, hown⟩
  have hle := Facts.le_closure (e.base.facts ⊔ e.candidate.factsAt e.slot)
  have hon : e.merge.facts.on (· = e.slot) =
      (own.factsAt e.slot ⊔ e.candidate.factsAt e.slot).closure := by
    rw [hfacts, hamalgam]
    refine Facts.amalgam_on hb.closed_facts (Facts.closed_closure _) ?_ ?_ hslot.has_root
    · rw [← (hb.slot? hown).2]
      exact le_sup_left.trans (Facts.le_closure _)
    · exact Facts.closure_le_about
        (sup_le (own.factsAt_le_about _) (e.candidate.factsAt_le_about _))
  have hmslot : e.merge.Assigned e.slot := (hassigned _).2 (.inl rfl)
  refine ⟨hwf, fun s => ?_, ?_, ?_, fun {k} hk hbase hcand => ?_, ?_, ?_⟩
  · refine (hassigned s).trans ⟨?_, .inr⟩
    rintro (rfl | hs)
    · exact hslot
    · exact hs
  · rw [Interpretation.Subsumed, hfacts]
    exact le_sup_left.trans hle
  · obtain ⟨s, hm⟩ := exists_slot?.1 hmslot
    exact ⟨s, hm, (hwf.subsumed_slot?_iff hs hm).2 (hfacts ▸ le_sup_right.trans hle)⟩
  · obtain ⟨s, hks, hcand⟩ := hcand
    rw [Interpretation.Subsumed, hfacts]
    exact Facts.closure_le hk.closed_facts (sup_le hbase ((hk.subsumed_slot?_iff hs hks).1 hcand))
  · rcases unify?_merges hownwf hs hownA with ⟨m, hm, hmwf, hmfacts⟩ | ⟨hnone, -⟩
    · rw [hm]
      exact structure?_eq hwf hmwf (hmfacts ▸ hownA) hmslot (hon.trans hmfacts.symm)
    · have hsome := (merge_isFailed_iff hb hs hA hown).1 hlive
      rw [hnone] at hsome
      cases hsome
  · rw [hon, hfacts, hamalgam]

/-- In a free slot the candidate lies beside the others, which keep what they have and share. In a
slot that is assigned the extension fails exactly if nothing has all that is there and all that the
candidate has; otherwise it is the least that has both. The probability is kept. -/
theorem merge_least : e.merge.probability = e.base.probability ∧
    (¬ e.base.Assigned e.slot → e.merge.isFailed = false ∧ e.merge.WellFormed ∧
      Gains e.slot e.base e.merge ∧ e.merge.structure? e.slot = some e.candidate.compact) ∧
    ∀ own, e.base.slot? e.slot = some own →
      (e.merge.isFailed = true ↔
        ¬ ∃ u : FeatureStructure, u.WellFormed ∧ own.Subsumed u ∧ e.candidate.Subsumed u) ∧
      (e.merge.isFailed = false → Enriched e own e.merge) := by
  refine ⟨merge_probability e, merge_free hb hs hA,
    fun own hown => ⟨?_, merge_occupied hb hs hA hown⟩⟩
  obtain ⟨hownwf, hownA, -⟩ := merge_amalgam hb hA hown
  rw [← unify?_isSome_iff hownwf hs hownA, ← merge_isFailed_iff hb hs hA hown]
  simp

end

/-- What the candidate has below a node of its slot is found by every path that leads there. -/
theorem Enriched.value_below (h : Enriched e own j) (hs : e.candidate.WellFormed) {t u : PathTerm}
    {q : Path} {a : Atom} (htu : e.base.facts.same t u)
    (ha : (e.candidate.factsAt e.slot).value (t.below q) a) : j.facts.value (u.below q) a := by
  have hcl := h.wellFormed.closed_facts
  obtain ⟨s, hslot, hcand⟩ := h.candidate
  have hval := ((h.wellFormed.subsumed_slot?_iff hs hslot).1 hcand).2 _ _ ha
  exact hcl.value_congr (hcl.congr (h.subsumed.1 _ _ htu) (hcl.has_of_value hval)) hval

/-- Two slots, each with a leaf. -/
def beside : Interpretation Float := merge ⟨Search.seated 1, 2, .single [⟨3⟩, ⟨4⟩] ⟨2⟩⟩

/-- Feature 2 of slot 1 and feature 3 of slot 2 lead to one node. -/
def joint : Interpretation Float := (beside.checkRelative ⟨⟨1, [⟨2⟩]⟩, ⟨2, [⟨3⟩]⟩⟩).2

theorem joint_spec : joint.WellFormed ∧ joint.facts.Graded ∧
    joint.facts.same ⟨1, [⟨2⟩]⟩ ⟨2, [⟨3⟩]⟩ := by
  have hp : ([⟨3⟩, ⟨4⟩] : Path) ≠ [] := by decide
  obtain ⟨hwf, hgraded⟩ := Search.seated_spec 1
  obtain ⟨hbeside, hlevel⟩ := merge_graded (e := ⟨Search.seated 1, 2, .single [⟨3⟩, ⟨4⟩] ⟨2⟩⟩) hwf
    (single_spec hp ⟨2⟩).1 hgraded (single_graded hp ⟨2⟩ 2) (by decide)
  obtain ⟨hjoint, hlevel', hle⟩ := checkRelative_graded (i := beside)
    (c := ⟨⟨1, [⟨2⟩]⟩, ⟨2, [⟨3⟩]⟩⟩) hbeside hlevel rfl (by decide)
  have h₁ : beside.Assigned 1 := Option.isSome_iff_exists.1 (by decide)
  have h₂ : beside.Assigned 2 := Option.isSome_iff_exists.1 (by decide)
  exact ⟨hjoint, hlevel', Relative.factsOn_le.1 hle h₁ h₂⟩

/-- A leaf merged into slot 1 is found in slot 2 as well, and no leaf can be merged that clashes with
one that slot 2 has there. In slot 3, which is free, a candidate stays on its own. -/
theorem merge_least_joint :
    (∃ own, joint.slot? 1 = some own ∧
      Enriched ⟨joint, 1, .single [⟨2⟩, ⟨5⟩] ⟨3⟩⟩ own
        (merge ⟨joint, 1, .single [⟨2⟩, ⟨5⟩] ⟨3⟩⟩) ∧
      (merge ⟨joint, 1, .single [⟨2⟩, ⟨5⟩] ⟨3⟩⟩).facts.value ⟨2, [⟨3⟩, ⟨5⟩]⟩ ⟨3⟩ ∧
      ¬ ∃ u : FeatureStructure, u.WellFormed ∧ own.Subsumed u ∧
        (single [⟨2⟩, ⟨4⟩] ⟨1⟩).Subsumed u) ∧
    Gains 3 joint (merge ⟨joint, 3, clasp⟩) ∧
    (merge ⟨joint, 3, clasp⟩).structure? 3 = some clasp.compact := by
  have hp : ([⟨2⟩, ⟨5⟩] : Path) ≠ [] := by decide
  have hq : ([⟨2⟩, ⟨4⟩] : Path) ≠ [] := by decide
  obtain ⟨hwf, hgraded, hsame⟩ := joint_spec
  obtain ⟨hclasp, hclaspgraded⟩ := clasp_spec (i := 3)
  have hmerge := merge_least (e := ⟨joint, 1, .single [⟨2⟩, ⟨5⟩] ⟨3⟩⟩)
  have hclash := merge_least (e := ⟨joint, 1, .single [⟨2⟩, ⟨4⟩] ⟨1⟩⟩)
  have hfree := merge_least (e := ⟨joint, 3, clasp⟩)
  -- with the fields of the extension written out, nothing computes the base to compare it
  dsimp only at hmerge hclash hfree
  obtain ⟨-, -, hmerge⟩ := hmerge hwf (single_spec hp _).1
    (hgraded.sup (single_graded hp _ _)).closure.acyclic
  obtain ⟨-, -, hclash⟩ := hclash hwf (single_spec hq _).1
    (hgraded.sup (single_graded hq _ _)).closure.acyclic
  obtain ⟨-, hfree, -⟩ := hfree hwf hclasp (hgraded.sup hclaspgraded).closure.acyclic
  obtain ⟨own, hown⟩ := Option.isSome_iff_exists.1 (by decide : (joint.slot? 1).isSome = true)
  have hlive := (hmerge own hown).2 (by decide)
  have hvalue := hlive.value_below (single_spec hp ⟨3⟩).1 (t := ⟨1, [⟨2⟩]⟩) (u := ⟨2, [⟨3⟩]⟩)
    (q := [⟨5⟩]) (a := ⟨3⟩)
  dsimp only at hvalue
  obtain ⟨-, -, hgains, hcopy⟩ := hfree (mt Option.isSome_iff_exists.2 (by decide))
  exact ⟨⟨own, hown, hlive, hvalue hsame (single_value hp (by decide)),
    (hclash own hown).1.1 (by decide)⟩, hgains, hcopy⟩

end Extension

end FeatureLogic
