import FeatureLogic.Proofs.Arena.Feasibility
import FeatureLogic.Proofs.Interpretation.Evaluation
import FeatureLogic.Proofs.Interpretation.Extension
import FeatureLogic.Proofs.Structure.Subsumption
/-!
The quick check. What it finds is a clash between facts that the merged and evaluated interpretation
would have to hold together, so it rejects nothing that would pass.
-/
set_option autoImplicit false

namespace FeatureLogic

namespace FeatureStructure

variable {s u : FeatureStructure} {i : SlotIndex} {t : PathTerm} {ok : Atom → Prop}

theorem WellFormed.lookup_of_admits (hs : s.WellFormed) (ht : t.slot = i)
    (h : (s.factsAt i).Admits t ok) : s.lookup t.path ≠ .blocked ∧
      ∀ u, s.lookup t.path = .found u →
        u.content = .empty ∨ ∃ a, u.content = .atom a ∧ ok a := by
  have hset := hs.arena.settled
  have hr : startAt i s.root t.slot = some s.root := startAt_eq_some.2 ⟨ht, rfl⟩
  refine ⟨fun hb => ?_, fun u hu => ?_⟩
  · refine Arena.not_admits_of_blocked hset hr ?_ h
    unfold lookup at hb
    cases hl : s.arena.lookup s.root t.path <;> simp [hl, Lookup.map] at hb ⊢
  · obtain ⟨n, hn, rfl⟩ := lookup_eq_found.1 hu
    have hleads : s.arena.Leads (startAt i s.root) t n := ⟨s.root, hr, hn⟩
    rw [content, below, hset.content_resolve]
    exact (hleads.admits_iff hs.arena).1 h

end FeatureStructure

namespace Extension
open FeatureStructure Interpretation

variable {W : Type} {e : Extension W} {F : Facts}

/-- The slots that are assigned once the candidate is in place. -/
def Assigned (e : Extension W) (s : SlotIndex) : Prop := s = e.slot ∨ e.base.Assigned s

theorem admitsAbsolute_of_admits {c : Absolute} (hs : e.candidate.WellFormed)
    (hc : c.term.slot = e.slot) (h : (e.candidate.factsAt e.slot).Admits c.term (· = c.value)) :
    e.admitsAbsolute c = true := by
  obtain ⟨hblocked, hfound⟩ := hs.lookup_of_admits hc h
  unfold admitsAbsolute
  cases hl : e.candidate.lookup c.term.path with
  | missing => rfl
  | blocked => exact absurd hl hblocked
  | found u => rcases hfound u hl with hu | ⟨a, hu, ha⟩ <;> simp [*]

/-- No path that must exist is blocked. -/
theorem not_blocked {g : Arena} {roots : Arena.Roots} {t : PathTerm} {r : NodeId}
    (hg : g.Settled) (hF : F.Closed) (hc : F.Consistent) (hle : g.facts roots ≤ F)
    (hr : roots t.slot = some r) (ht : F.Has t) : g.lookup r t.path ≠ .blocked := by
  intro hb
  obtain ⟨u, f, q, a, rfl, ha⟩ := Arena.exists_value_of_blocked hg hr hb
  exact hc.not_has_of_value_above hF (hle.2 _ _ ha) ht

/-- Compares what two paths lead to, if both are found. -/
def compareFound (test : NodeId → NodeId → Bool) (x y : Lookup NodeId) : Bool :=
  match x, y with
  | .blocked, _ => false
  | _, .blocked => false
  | .found m, .found n => test m n
  | _, _ => true

theorem compareFound_eq_true {x y : Lookup NodeId} {test : NodeId → NodeId → Bool}
    (hx : x ≠ .blocked) (hy : y ≠ .blocked)
    (htest : ∀ m n, x = .found m → y = .found n → test m n = true) :
    compareFound test x y = true := by
  cases x with
  | blocked => exact absurd rfl hx
  | missing => cases y <;> first | rfl | exact absurd rfl hy
  | found m =>
    cases y with
    | blocked => exact absurd rfl hy
    | missing => rfl
    | found n => exact htest m n rfl rfl

theorem admitsRelative_of_same {c : Relative} (hb : e.base.WellFormed)
    (hs : e.candidate.WellFormed) (hF : F.Closed) (hcons : F.Consistent)
    (hbase : e.base.facts ≤ F) (hcand : e.candidate.factsAt e.slot ≤ F)
    (hmentions : c.lhs.slot = e.slot ∨ c.rhs.slot = e.slot)
    (hsame : e.Assigned c.lhs.slot → e.Assigned c.rhs.slot → F.same c.lhs c.rhs) :
    e.admitsRelative c = true := by
  unfold admitsRelative
  -- one term is in the slot of the candidate, whichever side it is on
  have hterms : ∃ own other, (if c.lhs.slot = e.slot then (c.lhs, c.rhs) else (c.rhs, c.lhs)) =
      (own, other) ∧ own.slot = e.slot ∧ (e.Assigned other.slot → F.same own other) := by
    by_cases hl : c.lhs.slot = e.slot
    · exact ⟨c.lhs, c.rhs, if_pos hl, hl, hsame (.inl hl)⟩
    · refine ⟨c.rhs, c.lhs, if_neg hl, hmentions.resolve_left hl, fun h => hF.symm ?_⟩
      exact hsame h (.inl (hmentions.resolve_left hl))
  obtain ⟨own, other, heq, hown, hsame⟩ := hterms
  rw [heq]
  dsimp only
  have hroot : ∀ {t : PathTerm}, t.slot = e.slot →
      startAt e.slot e.candidate.root t.slot = some e.candidate.root :=
    fun ht => startAt_eq_some.2 ⟨ht, rfl⟩
  have hset := hs.arena.settled
  by_cases hother : other.slot = e.slot
  · have h := hsame (.inl hother)
    rw [if_pos hother]
    have hl := not_blocked hset hF hcons hcand (hroot hown) (hF.has_left h)
    have hr := not_blocked hset hF hcons hcand (hroot hother) (hF.has_right h)
    refine compareFound_eq_true hl hr fun m n hm hn => ?_
    have hm' : e.candidate.arena.Leads _ own m := ⟨_, hroot hown, hm⟩
    have hn' : e.candidate.arena.Leads _ other n := ⟨_, hroot hother, hn⟩
    exact Arena.feasible_of_same hs.arena hs.arena hF hcons hcand hcand
      ((hm'.resolve hset).symm ▸ hm') ((hn'.resolve hset).symm ▸ hn') h _
  · rw [if_neg hother]
    unfold slot?
    cases hslot : e.base.slots.get? other.slot with
    | none => rfl
    | some root =>
      have h := hsame (.inr ⟨root, hslot⟩)
      have hbset := hb.arena.settled
      have hl := not_blocked hset hF hcons hcand (hroot hown) (hF.has_left h)
      have hr := not_blocked hbset hF hcons hbase hslot (hF.has_right h)
      dsimp only [Option.map_some]
      rw [hbset.lookup_congr (hbset.resolve_resolve root)]
      refine compareFound_eq_true hl hr fun m n hm hn => ?_
      have hm' : e.candidate.arena.Leads _ own m := ⟨_, hroot hown, hm⟩
      have hn' : e.base.arena.Leads e.base.slots.get? other n := ⟨_, hslot, hn⟩
      exact Arena.feasible_of_same hs.arena hb.arena hF hcons hcand hbase
        ((hm'.resolve hset).symm ▸ hm') ((hn'.resolve hbset).symm ▸ hn') h _

theorem admitsChoice_of_admits {c : Choice W} (hs : e.candidate.WellFormed)
    (hc : c.term.slot = e.slot)
    (h : (e.candidate.factsAt e.slot).Admits c.term fun a => (c.probability? a).isSome = true) :
    e.admitsChoice c = true := by
  obtain ⟨hblocked, hfound⟩ := hs.lookup_of_admits hc h
  unfold admitsChoice
  cases hl : e.candidate.lookup c.term.path with
  | missing => rfl
  | blocked => exact absurd hl hblocked
  | found u => rcases hfound u hl with hu | ⟨a, hu, ha⟩ <;> simp [*]

theorem Merged.assigned_eq {j : Interpretation W} (h : Merged e j) : j.Assigned = e.Assigned := by
  funext s
  exact propext (h.assigned s)

/-- An extension that fails the quick check fails evaluation. -/
theorem quickCheck_eq_true [Weight W] {cs : ConstraintSet W} (hb : e.base.WellFormed)
    (hs : e.candidate.WellFormed)
    (hA : (e.base.facts ⊔ e.candidate.factsAt e.slot ⊔ cs.sharing e.Assigned).closure.Acyclic)
    (heval : (e.merge.eval cs).1 = true) : e.quickCheck cs = true := by
  obtain ⟨j, hj⟩ := exists_eq_true heval
  have hfailed := (eval_eq_true.1 hj).1
  have hmerged := (merge_spec hb hs (hA.mono (Facts.closure_mono le_sup_left))).1 hfailed
  have hev := eval_sound hmerged.wellFormed (by
    rw [hmerged.assigned_eq, hmerged.facts, Facts.closure_sup_closure]
    exact hA) hj
  have hF := hev.wellFormed.closed_facts
  have hcons := hev.wellFormed.consistent_facts
  have hle : e.merge.facts ⊔ cs.facts e.merge.Assigned ≤ j.facts :=
    hev.facts ▸ Facts.le_closure _
  have hmerge : e.base.facts ⊔ e.candidate.factsAt e.slot ≤ e.merge.facts :=
    hmerged.facts ▸ Facts.le_closure _
  have hbase : e.base.facts ≤ j.facts := le_sup_left.trans (hmerge.trans (le_sup_left.trans hle))
  have hcand : e.candidate.factsAt e.slot ≤ j.facts :=
    le_sup_right.trans (hmerge.trans (le_sup_left.trans hle))
  have hslot : e.merge.Assigned e.slot := (hmerged.assigned _).2 (.inl rfl)
  unfold quickCheck slot?
  cases hown : e.base.slots.get? e.slot with
  | some own =>
    have hset := hb.arena.settled
    have hl : e.base.arena.Leads e.base.slots.get? ⟨e.slot, []⟩
        (e.base.arena.resolve (e.base.arena.resolve own)) := by
      rw [hset.resolve_resolve]
      exact ⟨own, hown, rfl⟩
    exact Arena.feasible_of_same hb.arena hs.arena hF hcons hbase hcand hl
      (e.candidate.leads_root e.slot) (hcand.1 _ _ (e.candidate.has_root e.slot)) _
  | none =>
    simp only [Option.map_none, List.all_eq_true, List.mem_filter]
    rintro c ⟨hc, hmentions⟩
    rw [ConstraintSet.toList, List.mem_append, List.mem_append] at hc
    simp only [List.mem_map] at hc
    rcases hc with (⟨c, hc, rfl⟩ | ⟨c, hc, rfl⟩) | ⟨c, hc, rfl⟩
    · refine admitsRelative_of_same hb hs hF hcons hbase hcand ?_ ?_
      · simpa [Constraint.mentions] using hmentions
      · rw [← hmerged.assigned_eq]
        refine Relative.factsOn_le.1 (le_trans ?_ (le_sup_right.trans hle))
        exact (Facts.all_le.1 le_rfl _ (List.mem_map_of_mem hc)).trans le_sup_left
    · have ht : c.term.slot = e.slot := by simpa [Constraint.mentions] using hmentions
      refine admitsAbsolute_of_admits hs ht ((hev.admits hc (ht ▸ hslot)).anti ?_)
      exact le_sup_right.trans hmerge
    · have ht : c.term.slot = e.slot := by simpa [Constraint.mentions] using hmentions
      exact admitsChoice_of_admits hs ht ((hev.meets hc (ht ▸ hslot)).1.anti hcand)

end Extension

end FeatureLogic
