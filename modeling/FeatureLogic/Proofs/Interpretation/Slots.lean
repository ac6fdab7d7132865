import FeatureLogic.Proofs.Interpretation.Facts
import FeatureLogic.Proofs.Separation
import FeatureLogic.Proofs.Structure.Canonical
/-!
What is in a slot of an interpretation, taken as a structure. It comes out the same wherever its
nodes lie, as long as its facts are the same.
-/
set_option autoImplicit false

namespace FeatureLogic.Interpretation
open FeatureStructure

variable {W : Type} {i r : Interpretation W} {j : SlotIndex} {n : NodeId} {s : FeatureStructure}

theorem leads_slot (hn : i.slots.get? j = some n) {t : PathTerm} {m : NodeId} :
    i.arena.Leads (startAt j n) t m ↔ i.Leads t m ∧ t.slot = j := by
  constructor
  · rintro ⟨root, hroot, hl⟩
    obtain ⟨rfl, rfl⟩ := startAt_eq_some.1 hroot
    exact ⟨⟨n, hn, hl⟩, rfl⟩
  · rintro ⟨⟨root, hroot, hl⟩, rfl⟩
    cases hn.symm.trans hroot
    exact ⟨n, startAt_eq_some.2 ⟨rfl, rfl⟩, hl⟩

/-- What is in one slot. -/
theorem factsAt_slot (hn : i.slots.get? j = some n) :
    (⟨i.arena, n⟩ : FeatureStructure).factsAt j = i.facts.on (· = j) := by
  ext t v
  · constructor
    · rintro ⟨m, ht, hv⟩
      obtain ⟨⟨ht, htj⟩, hv, hvj⟩ := And.intro ((leads_slot hn).1 ht) ((leads_slot hn).1 hv)
      exact ⟨⟨m, ht, hv⟩, htj, hvj⟩
    · rintro ⟨⟨m, ht, hv⟩, htj, hvj⟩
      exact ⟨m, (leads_slot hn).2 ⟨ht, htj⟩, (leads_slot hn).2 ⟨hv, hvj⟩⟩
  · constructor
    · rintro ⟨m, ht, ha⟩
      obtain ⟨ht, htj⟩ := (leads_slot hn).1 ht
      exact ⟨⟨m, ht, ha⟩, htj⟩
    · rintro ⟨⟨m, ht, ha⟩, htj⟩
      exact ⟨m, (leads_slot hn).2 ⟨ht, htj⟩, ha⟩

/-- What is in a slot looks like a structure if it has the facts of it. -/
theorem structure?_eq (hr : r.WellFormed) (hs : s.WellFormed) (hA : (s.factsAt j).Acyclic)
    (hj : r.Assigned j) (h : r.facts.on (· = j) = s.factsAt j) :
    r.structure? j = some s.compact := by
  obtain ⟨m, hm⟩ := hj
  have hslot : (⟨r.arena, m⟩ : FeatureStructure).WellFormed := ⟨hr.arena, hr.root_lt j m hm⟩
  rw [structure?, hm, Option.map_some,
    FeatureStructure.compact_eq_of_facts hs hslot hA ((factsAt_slot hm).trans h)]

theorem structure?_congr (hi : i.WellFormed) (hr : r.WellFormed) (hA : i.facts.Acyclic)
    (hj : r.Assigned j ↔ i.Assigned j) (h : r.facts.on (· = j) = i.facts.on (· = j)) :
    r.structure? j = i.structure? j := by
  cases hn : i.slots.get? j with
  | none =>
    have hnone : r.slots.get? j = none := by
      refine Option.eq_none_iff_forall_ne_some.2 fun m hm => ?_
      obtain ⟨n, hn'⟩ := hj.1 ⟨m, hm⟩
      rw [hn] at hn'
      cases hn'
    rw [structure?, structure?, hn, hnone]
    rfl
  | some n =>
    have hslot := factsAt_slot hn
    have hcompact := structure?_eq hr ⟨hi.arena, hi.root_lt j n hn⟩
      (hA.mono (hslot ▸ Facts.on_le _ _)) (hj.2 ⟨n, hn⟩) (h.trans hslot.symm)
    rw [hcompact, structure?, hn, Option.map_some]

end FeatureLogic.Interpretation
