import FeatureLogic.Proofs.Structure.Building
/-!
Subsumption. A structure is subsumed by one that has its paths, its atoms and its coindexations.
Unification gives the least structure that subsumes both sides.
-/
set_option autoImplicit false

namespace FeatureLogic.FeatureStructure
open Arena

/-- `t` has all that `s` has. -/
structure Subsumed (s t : FeatureStructure) : Prop where
  path {p : Path} : (∃ u, s.lookup p = .found u) → ∃ u, t.lookup p = .found u
  atom {p : Path} {u : FeatureStructure} {a : Atom} : s.lookup p = .found u →
    u.content = .atom a → ∃ v, t.lookup p = .found v ∧ v.content = .atom a
  coindexed {p q : Path} : s.coindexed p q = true → t.coindexed p q = true

variable {s t u c : FeatureStructure} {i : SlotIndex} {p q : Path} {a : Atom} {n : NodeId}

theorem leads_startAt : s.arena.Leads (startAt i s.root) ⟨i, p⟩ n ↔
    s.arena.lookup s.root p = .found n := by
  constructor
  · rintro ⟨r, hr, hl⟩
    obtain ⟨-, rfl⟩ := startAt_eq_some.1 hr
    exact hl
  · exact fun hl => ⟨s.root, startAt_eq_some.2 ⟨rfl, rfl⟩, hl⟩

theorem lookup_eq_found : s.lookup p = .found u ↔
    ∃ n, s.arena.lookup s.root p = .found n ∧ s.below n = u := by
  unfold lookup
  cases s.arena.lookup s.root p <;> simp [Lookup.map]

theorem has_factsAt : (s.factsAt i).Has ⟨i, p⟩ ↔ ∃ u, s.lookup p = .found u := by
  simp only [factsAt, has_facts, leads_startAt, lookup_eq_found]
  constructor
  · rintro ⟨n, hn⟩
    exact ⟨_, n, hn, rfl⟩
  · rintro ⟨_, n, hn, -⟩
    exact ⟨n, hn⟩

theorem coindexed_iff : s.coindexed p q = true ↔
    ∃ n, s.arena.lookup s.root p = .found n ∧ s.arena.lookup s.root q = .found n := by
  unfold coindexed
  cases s.arena.lookup s.root p <;> cases s.arena.lookup s.root q <;> simp [eq_comm]

theorem same_factsAt : (s.factsAt i).same ⟨i, p⟩ ⟨i, q⟩ ↔ s.coindexed p q = true := by
  simp only [factsAt, facts, leads_startAt, coindexed_iff]

theorem value_factsAt (hs : s.arena.Settled) : (s.factsAt i).value ⟨i, p⟩ a ↔
    ∃ u, s.lookup p = .found u ∧ u.content = .atom a := by
  simp only [factsAt, facts, leads_startAt, lookup_eq_found]
  constructor
  · rintro ⟨n, hn, ha⟩
    refine ⟨_, ⟨n, hn, rfl⟩, ?_⟩
    rw [content, below, hs.content_resolve, ha]
  · rintro ⟨_, ⟨n, hn, rfl⟩, ha⟩
    rw [content, below, hs.content_resolve] at ha
    exact ⟨n, hn, ha⟩

/-- Subsumption is the order of facts. -/
theorem subsumed_iff (hs : s.WellFormed) (ht : t.WellFormed) :
    s.Subsumed t ↔ s.factsAt i ≤ t.factsAt i := by
  have hslot : ∀ {v w}, (s.factsAt i).same v w → v.slot = i ∧ w.slot = i := by
    intro v w h
    have hc := hs.closed_factsAt i
    exact ⟨slot_of_has (hc.has_left h), slot_of_has (hc.has_right h)⟩
  constructor
  · intro h
    refine ⟨?_, ?_⟩
    · rintro ⟨j, p⟩ ⟨k, q⟩ hpq
      obtain ⟨rfl, rfl⟩ := hslot hpq
      exact same_factsAt.2 (h.coindexed (same_factsAt.1 hpq))
    · rintro ⟨j, p⟩ a ha
      obtain ⟨rfl, -⟩ := hslot ((hs.closed_factsAt i).has_of_value ha)
      obtain ⟨u, hu, ha⟩ := (value_factsAt hs.arena.settled).1 ha
      exact (value_factsAt ht.arena.settled).2 (h.atom hu ha)
  · intro h
    refine ⟨?_, ?_, ?_⟩
    · exact fun hp => (has_factsAt (i := i)).1 (h.1 _ _ (has_factsAt.2 hp))
    · intro p u a hp ha
      exact (value_factsAt ht.arena.settled).1
        (h.2 ⟨i, p⟩ a ((value_factsAt hs.arena.settled).2 ⟨u, hp, ha⟩))
    · exact fun hpq => (same_factsAt (i := i)).1 (h.1 _ _ (same_factsAt.2 hpq))

/-- What subsumes two structures has all that their facts force together. -/
theorem closure_le_of_subsumed (hs : s.WellFormed) (ht : t.WellFormed) (hu : u.WellFormed)
    (hsu : s.Subsumed u) (htu : t.Subsumed u) :
    (s.factsAt i ⊔ t.factsAt i).closure ≤ u.factsAt i :=
  Facts.closure_le (hu.closed_factsAt i)
    (sup_le ((subsumed_iff hs hu).1 hsu) ((subsumed_iff ht hu).1 htu))

theorem subsumed_of_closure (hs : s.WellFormed) (ht : t.WellFormed) (hc : c.WellFormed)
    (hfacts : c.factsAt i = (s.factsAt i ⊔ t.factsAt i).closure) :
    s.Subsumed c ∧ t.Subsumed c := by
  have hle := Facts.le_closure (s.factsAt i ⊔ t.factsAt i)
  rw [← hfacts] at hle
  exact ⟨(subsumed_iff hs hc).2 (le_sup_left.trans hle),
    (subsumed_iff ht hc).2 (le_sup_right.trans hle)⟩

theorem unify?_isSome_iff (hs : s.WellFormed) (ht : t.WellFormed)
    (hA : (s.factsAt i ⊔ t.factsAt i).closure.Acyclic) :
    (s.unify? t).isSome = true ↔ ∃ u, u.WellFormed ∧ s.Subsumed u ∧ t.Subsumed u := by
  rcases unify?_spec hs ht hA with ⟨c, hc, hwf, hfacts⟩ | ⟨hnone, hclash⟩
  · rw [hc]
    exact iff_of_true rfl ⟨c, hwf, subsumed_of_closure hs ht hwf hfacts⟩
  · rw [hnone]
    refine iff_of_false (by simp) ?_
    rintro ⟨u, hu, hsu, htu⟩
    exact hclash ((hu.consistent_factsAt i).mono (closure_le_of_subsumed hs ht hu hsu htu))

/-- Two structures merge exactly if one structure subsumes them both, and then into the least. -/
theorem unify?_least (hs : s.WellFormed) (ht : t.WellFormed)
    (hA : (s.factsAt i ⊔ t.factsAt i).closure.Acyclic) :
    ((s.unify? t).isSome = true ↔ ∃ u, u.WellFormed ∧ s.Subsumed u ∧ t.Subsumed u) ∧
      ∀ c, s.unify? t = some c → c.WellFormed ∧ s.Subsumed c ∧ t.Subsumed c ∧
        c.factsAt i = (s.factsAt i ⊔ t.factsAt i).closure ∧
        ∀ u, u.WellFormed → s.Subsumed u → t.Subsumed u → c.Subsumed u := by
  refine ⟨unify?_isSome_iff hs ht hA, fun c hc => ?_⟩
  rcases unify?_spec hs ht hA with ⟨c', hc', hwf, hfacts⟩ | ⟨hnone, -⟩
  · cases hc.symm.trans hc'
    obtain ⟨hsc, htc⟩ := subsumed_of_closure hs ht hwf hfacts
    refine ⟨hwf, hsc, htc, hfacts, fun u hu hsu htu => ?_⟩
    exact (subsumed_iff hwf hu).2 (hfacts ▸ closure_le_of_subsumed hs ht hu hsu htu)
  · rw [hnone] at hc
    cases hc

/-- Each of the two has a node under two paths, and they have one of the paths in common, so in their
merge there is one node under all three. At one feature of it there cannot be two atoms. -/
theorem unify?_least_clasp :
    (∃ c, clasp.unify? (hook ⟨4⟩) = some c ∧ c.coindexed [⟨1⟩] [⟨5⟩] = true ∧
      clasp.Subsumed c ∧ (hook ⟨4⟩).Subsumed c ∧
      ∀ u, u.WellFormed → clasp.Subsumed u → (hook ⟨4⟩).Subsumed u → c.Subsumed u) ∧
    ¬ ∃ u, u.WellFormed ∧ clasp.Subsumed u ∧ (hook ⟨3⟩).Subsumed u := by
  obtain ⟨hs, hsgraded⟩ := clasp_spec (i := 0)
  obtain ⟨ht, htgraded⟩ := hook_spec (i := 0) ⟨4⟩
  obtain ⟨ht', htgraded'⟩ := hook_spec (i := 0) ⟨3⟩
  obtain ⟨-, hleast⟩ := unify?_least hs ht (hsgraded.sup htgraded).closure.acyclic
  obtain ⟨hiff, -⟩ := unify?_least hs ht' (hsgraded.sup htgraded').closure.acyclic
  obtain ⟨c, hc, hshared⟩ := (Option.any_eq_true ..).1
    (by decide : (clasp.unify? (hook ⟨4⟩)).any (·.coindexed [⟨1⟩] [⟨5⟩]) = true)
  have hnone : clasp.unify? (hook ⟨3⟩) = none := by decide
  obtain ⟨-, hsc, htc, -, hmin⟩ := hleast c hc
  refine ⟨⟨c, hc, hshared, hsc, htc, hmin⟩, fun hu => ?_⟩
  simpa [hnone] using hiff.2 hu

end FeatureLogic.FeatureStructure
