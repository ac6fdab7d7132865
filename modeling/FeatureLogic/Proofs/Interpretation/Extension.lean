import FeatureLogic.Interpretation.Extension
import FeatureLogic.Proofs.Arena.Sharing
import FeatureLogic.Proofs.Interpretation.Facts
/-!
Extending an interpretation by a candidate. Unless the two clash, the result has the facts of both
and what these force.
-/
set_option autoImplicit false

namespace FeatureLogic

open Copying FeatureStructure Arena

variable {W : Type}

namespace Interpretation
variable {i : Interpretation W} {s : SlotIndex}

theorem isFailed_eq_false : i.isFailed = false ↔ ∃ s, i.Assigned s := by
  unfold isFailed SortedMap.isEmpty
  rw [List.isEmpty_eq_false_iff_exists_mem]
  constructor
  · rintro ⟨⟨s, n⟩, h⟩
    exact ⟨s, n, (SortedMap.get?_eq_some_iff _).2 h⟩
  · rintro ⟨s, n, h⟩
    exact ⟨(s, n), (SortedMap.get?_eq_some_iff _).1 h⟩

theorem not_assigned_of_isFailed (h : i.isFailed = true) : ¬ i.Assigned s := by
  intro hs
  rw [isFailed_eq_false.2 ⟨s, hs⟩] at h
  cases h

theorem ofStructure_assigned [Weight W] {slot : SlotIndex} {candidate : FeatureStructure} :
    (ofStructure slot candidate : Interpretation W).Assigned s ↔ s = slot := by
  simp only [Assigned, ofStructure, SortedMap.get?_singleton]
  simp [eq_comm]

/-- One structure in one slot has the facts of the structure. -/
theorem ofStructure_spec [Weight W] {s : FeatureStructure} {slot : SlotIndex} (hs : s.WellFormed)
    (hA : (s.factsAt slot).Acyclic) : (ofStructure slot s : Interpretation W).WellFormed ∧
      (∀ t, (ofStructure slot s : Interpretation W).Assigned t ↔ t = slot) ∧
      (ofStructure slot s : Interpretation W).facts = s.factsAt slot := by
  have hj := copy_joins Arena.WellFormed.empty hs hA
  refine and_left_comm.1 ⟨fun t => ofStructure_assigned, ?_⟩
  unfold ofStructure
  generalize (Copying.start Arena.empty).copy s.arena s.root = e at *
  obtain ⟨root, c⟩ := e
  have hget : ∀ t, (SortedMap.singleton slot root).get? t = startAt slot root t := by
    intro t
    rw [SortedMap.get?_singleton, startAt]
    simp only [eq_comm]
  refine ⟨⟨hj.wellFormed, fun t n hn => ?_⟩, ?_⟩
  · rw [hget, startAt_eq_some] at hn
    exact hn.2 ▸ hj.lt
  · rw [← hj.facts, facts]
    exact Arena.facts_congr hget

end Interpretation

namespace Extension
open Interpretation

variable {e : Extension W} {c : Copying}

theorem copySlots_keys (source : Arena) (es : List (SlotIndex × NodeId)) (c : Copying) :
    (copySlots source es c).1.map (·.1) = es.map (·.1) := by
  induction es generalizing c with
  | nil => rfl
  | cons e es ih => exact congrArg (e.1 :: ·) (ih _)

theorem copySlots_assigned (i : Interpretation W) (c : Copying) (s : SlotIndex) :
    (∃ n, (SortedMap.ofList (copySlots i.arena i.slots.entries c).1).get? s = some n) ↔
      i.Assigned s := by
  have hkeys := copySlots_keys i.arena i.slots.entries c
  have hnodup : ((copySlots i.arena i.slots.entries c).1.map (·.1)).Nodup :=
    hkeys ▸ i.slots.ascending.nodup_keys
  have hmem : s ∈ (copySlots i.arena i.slots.entries c).1.map (·.1) ↔
      s ∈ i.slots.entries.map (·.1) := by rw [hkeys]
  simpa [SortedMap.get?_ofList_eq_some_iff hnodup, Assigned, SortedMap.get?_eq_some_iff] using hmem

/-- The slots of a merge that has not failed, whatever the arenas hold. -/
theorem merge_assigned (h : e.merge.isFailed = false) (s : SlotIndex) :
    e.merge.Assigned s ↔ s = e.slot ∨ e.base.Assigned s := by
  have hassigned := copySlots_assigned e.base (.start .empty)
  unfold merge at h ⊢
  generalize copySlots e.base.arena e.base.slots.entries (.start .empty) = copied at *
  obtain ⟨slots, c⟩ := copied
  dsimp only at h hassigned ⊢
  generalize (Copying.start c.target).copy e.candidate.arena e.candidate.root = added at *
  obtain ⟨n, c'⟩ := added
  dsimp only at h ⊢
  generalize SortedMap.ofList slots = roots at *
  cases hown : roots.get? e.slot with
  | none =>
    rw [← hassigned]
    simp only [Assigned, SortedMap.get?_insert]
    by_cases hs : e.slot = s
    · simp [hs]
    · simp [hs, Ne.symm hs]
  | some own =>
    rw [hown] at h
    have hslot : e.base.Assigned e.slot := (hassigned _).1 ⟨own, hown⟩
    dsimp only at h ⊢
    generalize c'.target.unify own n = merged at *
    rcases merged with ⟨_ | _, arena⟩
    · cases h
    · refine (hassigned s).trans ⟨.inr, ?_⟩
      rintro (rfl | hs)
      · exact hslot
      · exact hs

/-- To copy the slots is to copy where they start, one after the other with one clone map. -/
theorem copySlots_eq (source : Arena) (es : List (SlotIndex × NodeId)) (c : Copying) :
    copySlots source es c = ((es.map (·.1)).zip (copyAll source (es.map (·.2)) c).1,
      (copyAll source (es.map (·.2)) c).2) := by
  induction es generalizing c with
  | nil => rfl
  | cons e es ih => simp only [copySlots, copyAll, List.map_cons, List.zip_cons_cons, ih]

/-- The slots of a copied interpretation start at copies, which have the facts it had. -/
theorem copySlots_facts {i : Interpretation W} (hi : i.WellFormed) (hA : i.facts.Acyclic)
    {slots : List (SlotIndex × NodeId)}
    (hrun : copySlots i.arena i.slots.entries (.start .empty) = (slots, c)) :
    c.target.WellFormed ∧
      (∀ s n, (SortedMap.ofList slots).get? s = some n → n < c.target.size) ∧
      c.target.facts (SortedMap.ofList slots).get? = i.facts := by
  have hs := hi.arena.settled
  have hroots : ∀ n ∈ i.slots.entries.map (·.2), n < i.arena.size ∧ i.arena.Grounded n ∧
      n ∈ i.slots.entries.map (·.2) := by
    intro n hn
    obtain ⟨e, he, rfl⟩ := List.mem_map.1 hn
    have hget := (SortedMap.get?_eq_some_iff i.slots).2 he
    have hlt := hi.root_lt _ _ hget
    exact ⟨hlt, hi.arena.grounded hA hget hlt, hn⟩
  obtain ⟨hc, -, hall⟩ := copyAll_mirrors (.of_wellFormed hi.arena) hroots
    (.start i.arena .empty (MetFrom i.arena (i.slots.entries.map (·.2))))
  rw [copySlots_eq] at hrun
  cases hrun
  have hrel := rel_get?_of_forall₂ (m := i.slots) (forall₂_zip_keys hall)
  refine ⟨hc.wellFormed hi.arena .empty, fun s n hn => ?_,
    hc.facts_eq hs hrel fun _ _ => And.left⟩
  obtain ⟨m, -, hget⟩ := exists_of_rel_some (hn ▸ hrel s)
  exact (hc.range hget).2

theorem merge_facts (hb : e.base.WellFormed) (hs : e.candidate.WellFormed)
    (hA : (e.base.facts ⊔ e.candidate.factsAt e.slot).closure.Acyclic) :
    (e.merge.isFailed = false → e.merge.WellFormed ∧
        e.merge.facts = (e.base.facts ⊔ e.candidate.factsAt e.slot).closure) ∧
      ((e.base.Assigned e.slot →
          (e.base.facts ⊔ e.candidate.factsAt e.slot).closure.Consistent) →
        e.merge.isFailed = false) := by
  have hle := Facts.le_closure (e.base.facts ⊔ e.candidate.factsAt e.slot)
  have hassigned := copySlots_assigned e.base (.start .empty) e.slot
  rcases hrun : copySlots e.base.arena e.base.slots.entries (.start .empty) with ⟨slots, c⟩
  obtain ⟨hg, hroots, hfacts⟩ := copySlots_facts hb (hA.mono (le_sup_left.trans hle)) hrun
  have hj := copy_joins hg hs (hA.mono (le_sup_right.trans hle))
  rw [← hfacts] at hA ⊢
  rw [hrun] at hassigned
  unfold merge
  simp only [hrun]
  generalize SortedMap.ofList slots = roots at *
  generalize (Copying.start c.target).copy e.candidate.arena e.candidate.root = copied at *
  obtain ⟨n, c'⟩ := copied
  cases hown : roots.get? e.slot with
  | none =>
    dsimp only at hj ⊢
    have hget : ∀ s, (roots.insert e.slot n).get? s =
        if s = e.slot then some n else roots.get? s := by
      intro s
      rw [SortedMap.get?_insert]
      simp only [eq_comm]
    refine ⟨fun _ => ⟨⟨hj.wellFormed, fun s m hm => ?_⟩, ?_⟩, fun _ => ?_⟩
    · rw [hget] at hm
      split at hm
      · cases hm
        exact hj.lt
      · exact Nat.lt_of_lt_of_le (hroots s m hm) hj.grows.size_le
    · exact hj.facts_of_free hroots hown hget
    · exact isFailed_eq_false.2 ⟨e.slot, n, by rw [hget, if_pos rfl]⟩
  | some own =>
    have hslot : e.base.Assigned e.slot := hassigned.1 ⟨own, hown⟩
    obtain ⟨hwf, hsize, hok, hcons⟩ := hj.unify hroots hown hA
    dsimp only at hwf hsize hok hcons ⊢
    generalize c'.target.unify own n = merged at *
    rcases merged with ⟨_ | _, arena⟩
    · exact ⟨fun h => (by cases h), fun hc => by cases hcons (hc hslot)⟩
    · refine ⟨fun _ => ⟨⟨hwf, fun s m hm => ?_⟩, hok rfl⟩, fun _ => ?_⟩
      · exact Nat.lt_of_lt_of_le (hroots s m hm) hsize
      · exact isFailed_eq_false.2 ⟨e.slot, own, hown⟩

/-- What becomes of an extension that has no clash. -/
structure Merged (e : Extension W) (j : Interpretation W) : Prop where
  wellFormed : j.WellFormed
  assigned (s : SlotIndex) : j.Assigned s ↔ s = e.slot ∨ e.base.Assigned s
  facts : j.facts = (e.base.facts ⊔ e.candidate.factsAt e.slot).closure

theorem merge_spec (hb : e.base.WellFormed) (hs : e.candidate.WellFormed)
    (hA : (e.base.facts ⊔ e.candidate.factsAt e.slot).closure.Acyclic) :
    (e.merge.isFailed = false → Merged e e.merge) ∧
      ((e.base.Assigned e.slot →
          (e.base.facts ⊔ e.candidate.factsAt e.slot).closure.Consistent) →
        e.merge.isFailed = false) := by
  obtain ⟨hok, hcons⟩ := merge_facts hb hs hA
  exact ⟨fun hf => ⟨(hok hf).1, merge_assigned hf, (hok hf).2⟩, hcons⟩

/-- Levels are kept, so there is no cycle. -/
theorem merge_graded (hb : e.base.WellFormed) (hs : e.candidate.WellFormed)
    (hbase : e.base.facts.Graded) (hcand : (e.candidate.factsAt e.slot).Graded)
    (hlive : e.merge.isFailed = false) : e.merge.WellFormed ∧ e.merge.facts.Graded := by
  have hsum := (hbase.sup hcand).closure
  obtain ⟨hwf, -, hfacts⟩ := (merge_spec hb hs hsum.acyclic).1 hlive
  exact ⟨hwf, hfacts ▸ hsum⟩

end Extension

end FeatureLogic
