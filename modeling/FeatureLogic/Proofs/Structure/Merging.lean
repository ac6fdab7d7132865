import FeatureLogic.Proofs.Arena.Facts
import FeatureLogic.Structure.Basic
/-!
Copying a structure into an arena and merging it with what is in a slot there. Afterwards the arena
has the facts that both force, and no others; the merge fails only if these clash.
-/
set_option autoImplicit false

namespace FeatureLogic

namespace FeatureStructure

structure WellFormed (s : FeatureStructure) : Prop where
  arena : s.arena.WellFormed
  root_lt : s.root < s.arena.size

/-- One slot, which starts at `n`. -/
def startAt (i : SlotIndex) (n : NodeId) : Arena.Roots := fun j => if j = i then some n else none

/-- The facts of a structure that is put in slot `i`. -/
def factsAt (s : FeatureStructure) (i : SlotIndex) : Facts := s.arena.facts (startAt i s.root)

variable {s t : FeatureStructure} {i j : SlotIndex} {n m : NodeId} {u v : PathTerm}

theorem startAt_eq_some : startAt i n j = some m ↔ j = i ∧ n = m := by
  unfold startAt
  split <;> simp_all

theorem WellFormed.closed_factsAt (hs : s.WellFormed) (i : SlotIndex) : (s.factsAt i).Closed :=
  hs.arena.settled.closed_facts _

theorem WellFormed.consistent_factsAt (hs : s.WellFormed) (i : SlotIndex) :
    (s.factsAt i).Consistent :=
  hs.arena.settled.consistent_facts _

theorem WellFormed.grounded (hs : s.WellFormed) (hA : (s.factsAt i).Acyclic) :
    s.arena.Grounded s.root :=
  hs.arena.grounded hA (startAt_eq_some.2 ⟨rfl, rfl⟩) hs.root_lt

theorem leads_root (s : FeatureStructure) (i : SlotIndex) :
    s.arena.Leads (startAt i s.root) ⟨i, []⟩ (s.arena.resolve s.root) :=
  ⟨s.root, startAt_eq_some.2 ⟨rfl, rfl⟩, rfl⟩

theorem has_root (s : FeatureStructure) (i : SlotIndex) : (s.factsAt i).Has ⟨i, []⟩ :=
  (s.leads_root i).has

theorem slot_of_has (h : (s.factsAt i).Has u) : u.slot = i := by
  obtain ⟨n, ⟨r, hr, -⟩, -⟩ := h
  exact (startAt_eq_some.1 hr).1

end FeatureStructure

namespace Copying
open FeatureStructure Arena

variable {g : Arena} {roots : Roots} {s : FeatureStructure} {i : SlotIndex}

/-- `c` holds the arena `g` and a copy of `s` that starts at `n`. -/
structure Joins (g : Arena) (s : FeatureStructure) (n : NodeId) (c : Copying) : Prop where
  wellFormed : c.target.WellFormed
  grows : g.Grows c.target
  lt : n < c.target.size
  facts (i : SlotIndex) : c.target.facts (startAt i n) = s.factsAt i
  denotes {roots : Roots} {i : SlotIndex} {F : Facts} (hF : F.Closed) :
    (∀ j r, roots j = some r → r < g.size) → g.facts roots ≤ F → s.factsAt i ≤ F →
      ∃ den, c.target.Denotes (F.algebra hF) den ∧ den n (F.same ⟨i, []⟩) ∧
        ∀ j r, roots j = some r → F.Has ⟨j, []⟩ ∧ den r (F.same ⟨j, []⟩)

theorem copy_joins (hg : g.WellFormed) (hs : s.WellFormed) (hA : (s.factsAt i).Acyclic) :
    Joins g s ((Copying.start g).copy s.arena s.root).1
      ((Copying.start g).copy s.arena s.root).2 := by
  obtain ⟨hc, hget, -⟩ := copy_takes (.of_wellFormed hs.arena) hs.root_lt (hs.grounded hA)
    List.mem_cons_self (.start s.arena g (MetFrom s.arena [s.root]))
  refine ⟨hc.wellFormed hs.arena hg, hc.grows hg.settled, (hc.range hget).2, ?_, ?_⟩
  · intro i
    refine hc.facts_eq hs.arena.settled (fun j => ?_) fun _ _ => And.left
    unfold startAt
    split
    · exact .some hget
    · exact .none
  · intro roots j F hF hroots hle hle'
    have hd := hc.denotes (hs.arena.denotes_facts hF hle') hg.settled (hg.denotes_facts hF hle)
    refine ⟨_, hd, .inr ⟨_, hget, hs.arena.settled.resolve_lt hs.root_lt, _, ?_, rfl⟩, ?_⟩
    · rw [hs.arena.settled.resolve_resolve]
      exact s.leads_root j
    · intro k r hr
      obtain ⟨hhas, hden⟩ := root_denotes hroots hle k r hr
      exact ⟨hhas, .inl hden⟩

namespace Joins
variable {n own : NodeId} {c : Copying}

/-- The copy in a slot that is free. -/
theorem facts_of_free (hj : Joins g s n c)
    (hroots : ∀ j r, roots j = some r → r < g.size) {roots' : Roots} (hfree : roots i = none)
    (hroots' : ∀ j, roots' j = if j = i then some n else roots j) :
    c.target.facts roots' = (g.facts roots ⊔ s.factsAt i).closure := by
  have hs := hj.wellFormed.settled
  have hF := Facts.closed_closure (g.facts roots ⊔ s.factsAt i)
  have hle := Facts.le_closure (g.facts roots ⊔ s.factsAt i)
  obtain ⟨den, hd, hn, hold⟩ :=
    hj.denotes hF hroots (le_sup_left.trans hle) (le_sup_right.trans hle)
  apply le_antisymm
  · refine hd.facts_le fun j r hr => ?_
    rw [hroots'] at hr
    split at hr
    · rename_i hji
      cases hr
      subst hji
      exact ⟨hle.1 _ _ (.inr (s.has_root j)), hn⟩
    · exact hold j r hr
  · refine Facts.closure_le (hs.closed_facts _) (sup_le ?_ ?_)
    · refine (facts_mono hs hj.grows roots).trans (hs.facts_le_of_resolve fun j r hr => ?_)
      refine ⟨r, ?_, rfl⟩
      rw [hroots', if_neg, hr]
      rintro rfl
      rw [hfree] at hr
      cases hr
    · rw [← hj.facts]
      refine hs.facts_le_of_resolve fun j r hr => ⟨r, ?_, rfl⟩
      obtain ⟨rfl, rfl⟩ := startAt_eq_some.1 hr
      rw [hroots', if_pos rfl]

/-- The copy merged with what is in the slot. -/
theorem unify (hj : Joins g s n c)
    (hroots : ∀ j r, roots j = some r → r < g.size) (hown : roots i = some own)
    (hA : (g.facts roots ⊔ s.factsAt i).closure.Acyclic) :
    (c.target.unify own n).2.WellFormed ∧ g.size ≤ (c.target.unify own n).2.size ∧
      ((c.target.unify own n).1 = true →
        (c.target.unify own n).2.facts roots = (g.facts roots ⊔ s.factsAt i).closure) ∧
      ((g.facts roots ⊔ s.factsAt i).closure.Consistent → (c.target.unify own n).1 = true) := by
  have hF := Facts.closed_closure (g.facts roots ⊔ s.factsAt i)
  have hle := Facts.le_closure (g.facts roots ⊔ s.factsAt i)
  obtain ⟨den, hd, hn, hold⟩ :=
    hj.denotes hF hroots (le_sup_left.trans hle) (le_sup_right.trans hle)
  obtain ⟨hwf, hd', hgrows, hsize, heq, hcons⟩ :=
    unify_merges hj.wellFormed hd (hA.algebra hF) (hold i own hown).2 hn
  have hs := hwf.settled
  refine ⟨hwf, ?_, fun hok => ?_, fun hc => hcons (hc.algebra hF)⟩
  · rw [hsize]
    exact hj.grows.size_le
  · apply le_antisymm
    · exact hd'.facts_le hold
    · refine Facts.closure_le (hs.closed_facts _) (sup_le ?_ ?_)
      · exact facts_mono hs (hj.grows.trans hgrows) roots
      · rw [← hj.facts]
        refine (facts_mono hs hgrows _).trans (hs.facts_le_of_resolve fun j r hr => ?_)
        obtain ⟨rfl, rfl⟩ := startAt_eq_some.1 hr
        exact ⟨own, hown, (heq hok).symm⟩

end Joins

end Copying

namespace FeatureStructure
open Copying

variable {s t : FeatureStructure} {i : SlotIndex}

theorem compact_spec (hs : s.WellFormed) (hA : (s.factsAt i).Acyclic) :
    s.compact.WellFormed ∧ ∀ j, s.compact.factsAt j = s.factsAt j := by
  have hj := copy_joins Arena.WellFormed.empty hs hA
  exact ⟨⟨hj.wellFormed, hj.lt⟩, hj.facts⟩

/-- A merge is the copy of an arena with the facts that both sides force. -/
theorem unify?_merges (hs : s.WellFormed) (ht : t.WellFormed)
    (hA : (s.factsAt i ⊔ t.factsAt i).closure.Acyclic) :
    (∃ m : FeatureStructure, s.unify? t = some m.compact ∧ m.WellFormed ∧
      m.factsAt i = (s.factsAt i ⊔ t.factsAt i).closure) ∨
    s.unify? t = none ∧ ¬ (s.factsAt i ⊔ t.factsAt i).closure.Consistent := by
  have hj := copy_joins hs.arena ht (hA.mono (le_sup_right.trans (Facts.le_closure _)))
  have hroots : ∀ j r, startAt i s.root j = some r → r < s.arena.size := by
    intro j r hr
    rw [← (startAt_eq_some.1 hr).2]
    exact hs.root_lt
  obtain ⟨hwf, hsize, hfacts, hcons⟩ :=
    hj.unify hroots (startAt_eq_some.2 ⟨rfl, rfl⟩) hA
  unfold unify?
  generalize (Copying.start s.arena).copy t.arena t.root = e at *
  obtain ⟨other, c⟩ := e
  dsimp only at *
  generalize c.target.unify s.root other = e at *
  obtain ⟨b, arena⟩ := e
  cases b with
  | false => exact .inr ⟨rfl, fun hc => Bool.noConfusion (hcons hc)⟩
  | true =>
    have hroot : s.root < arena.size := Nat.lt_of_lt_of_le hs.root_lt hsize
    exact .inl ⟨⟨arena, s.root⟩, rfl, ⟨hwf, hroot⟩, hfacts rfl⟩

/-- To merge two structures is to close their facts, unless these clash. -/
theorem unify?_spec (hs : s.WellFormed) (ht : t.WellFormed)
    (hA : (s.factsAt i ⊔ t.factsAt i).closure.Acyclic) :
    (∃ c, s.unify? t = some c ∧ c.WellFormed ∧
      c.factsAt i = (s.factsAt i ⊔ t.factsAt i).closure) ∨
    s.unify? t = none ∧ ¬ (s.factsAt i ⊔ t.factsAt i).closure.Consistent := by
  rcases unify?_merges hs ht hA with ⟨m, hm, hwf, hfacts⟩ | hnone
  · obtain ⟨hwf', hfacts'⟩ := compact_spec hwf (hfacts.symm ▸ hA)
    exact .inl ⟨_, hm, hwf', (hfacts' i).trans hfacts⟩
  · exact .inr hnone

end FeatureStructure

end FeatureLogic
