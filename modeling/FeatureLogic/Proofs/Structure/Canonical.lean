import FeatureLogic.Proofs.Arena.Blocking
import FeatureLogic.Proofs.Arena.Canonical
import FeatureLogic.Proofs.Arena.Sharing
import FeatureLogic.Proofs.Structure.Subsumption
/-!
Copies as canonical forms. A copy in an arena of its own looks like the structure it is a copy of,
and structures that look alike have one and the same copy.
-/
set_option autoImplicit false

namespace FeatureLogic

namespace FeatureStructure
open Arena

/-- What there is at a path. -/
def reading (s : FeatureStructure) (p : Path) : Lookup Shape := (s.lookup p).map (·.content.shape)

/-- The nodes that paths lead to. -/
def nodes (s : FeatureStructure) : Set NodeId := {n | ∃ p, s.arena.lookup s.root p = .found n}

/-- The same paths with the same at their ends, and the same of them coindexed. -/
structure Isomorphic (s t : FeatureStructure) : Prop where
  reading (p : Path) : t.reading p = s.reading p
  coindexed (p q : Path) : t.coindexed p q = s.coindexed p q

variable {s t u v : FeatureStructure} {i : SlotIndex} {p q : Path} {n m : NodeId} {a : Atom}

/-! ## Looking alike -/

theorem lookup_eq_blocked_iff (hs : s.WellFormed) :
    s.lookup p = .blocked ↔ (s.factsAt i).Blocked ⟨i, p⟩ := by
  have hroot : startAt i s.root i = some s.root := startAt_eq_some.2 ⟨rfl, rfl⟩
  rw [factsAt, ← Arena.lookup_eq_blocked_iff (t := ⟨i, p⟩) hs.arena.settled hroot, lookup]
  cases s.arena.lookup s.root p <;> simp [Lookup.map]

theorem exists_of_reading (h : t.reading p = s.reading p) (hu : s.lookup p = .found u) :
    ∃ v, t.lookup p = .found v ∧ v.content.shape = u.content.shape := by
  rw [reading, reading, hu] at h
  cases ht : t.lookup p with
  | found v =>
    rw [ht] at h
    exact ⟨v, rfl, Lookup.found.inj h⟩
  | missing => simp [ht, Lookup.map] at h
  | blocked => simp [ht, Lookup.map] at h

theorem Isomorphic.symm (h : s.Isomorphic t) : t.Isomorphic s :=
  ⟨fun p => (h.reading p).symm, fun p q => (h.coindexed p q).symm⟩

theorem Isomorphic.subsumed (h : s.Isomorphic t) : s.Subsumed t where
  path := by
    rintro p ⟨u, hu⟩
    obtain ⟨v, hv, -⟩ := exists_of_reading (h.reading p) hu
    exact ⟨v, hv⟩
  atom := by
    intro p u a hu ha
    obtain ⟨v, hv, hshape⟩ := exists_of_reading (h.reading p) hu
    refine ⟨v, hv, ?_⟩
    rw [ha] at hshape
    cases hcon : v.content <;> simp_all [Content.shape]
  coindexed := by
    intro p q hpq
    rw [h.coindexed, hpq]

/-- Structures with the same facts have nodes of one shape at a path. -/
theorem shape_eq (hs : s.WellFormed) (ht : t.WellFormed) (h : t.factsAt i = s.factsAt i)
    (hu : s.lookup p = .found u) (hv : t.lookup p = .found v) :
    v.content.shape = u.content.shape := by
  obtain ⟨n, hn, rfl⟩ := lookup_eq_found.1 hu
  obtain ⟨m, hm, rfl⟩ := lookup_eq_found.1 hv
  have hn' : s.arena.Leads (startAt i s.root) ⟨i, p⟩ n := leads_startAt.2 hn
  have hm' : t.arena.Leads (startAt i t.root) ⟨i, p⟩ m := leads_startAt.2 hm
  have htwins : Twins s.arena t.arena (startAt i s.root) (startAt i t.root) n m := by
    refine ⟨⟨i, p⟩, ?_, ?_⟩
    · rwa [hn'.resolve hs.arena.settled]
    · rwa [hm'.resolve ht.arena.settled]
  have hcontent := htwins.content hs.arena ht.arena h
  rw [content, content, below, below, hs.arena.settled.content_resolve,
    ht.arena.settled.content_resolve]
  generalize s.arena.content n = c at *
  generalize t.arena.content m = d at *
  cases hcontent <;> rfl

/-- To look alike is to have the same facts. -/
theorem isomorphic_iff (hs : s.WellFormed) (ht : t.WellFormed) :
    s.Isomorphic t ↔ t.factsAt i = s.factsAt i := by
  constructor
  · intro h
    exact le_antisymm ((subsumed_iff ht hs).1 h.symm.subsumed) ((subsumed_iff hs ht).1 h.subsumed)
  · intro h
    refine ⟨fun p => ?_, fun p q => ?_⟩
    · have hfound : (∃ u, t.lookup p = .found u) ↔ ∃ u, s.lookup p = .found u := by
        rw [← has_factsAt (i := i), ← has_factsAt (i := i), h]
      have hblocked : t.lookup p = .blocked ↔ s.lookup p = .blocked := by
        rw [lookup_eq_blocked_iff (i := i) ht, lookup_eq_blocked_iff (i := i) hs, h]
      unfold reading
      cases hu : s.lookup p with
      | found u =>
        obtain ⟨v, hv⟩ := hfound.2 ⟨u, hu⟩
        rw [hv, Lookup.map, Lookup.map, shape_eq hs ht h hu hv]
      | missing => cases hv : t.lookup p <;> simp_all
      | blocked => rw [hblocked.2 hu]
    · rw [Bool.eq_iff_iff, ← same_factsAt (i := i), ← same_factsAt (i := i), h]

/-! ## The copy -/

/-- The arena has room for every path down from a node. -/
theorem WellFormed.height (hs : s.WellFormed) {F : Facts} (hF : F.Closed) (hA : F.Acyclic)
    (hfacts : s.factsAt i = F) {w : PathTerm} (hw : F.Has w) :
    (F.algebra hF).Height s.arena.size (F.same w) := by
  subst hfacts
  have hden := hs.arena.denotes_facts hF le_rfl
  let den (n : NodeId) (x : PathTerm → Prop) : Prop :=
    n < s.arena.size ∧
      ∃ t, s.arena.Leads (startAt i s.root) t (s.arena.resolve n) ∧ x = (s.factsAt i).same t
  have hhas : ∀ {w}, (s.factsAt i).Has w → ∃ n < s.arena.size, den n ((s.factsAt i).same w) := by
    rintro w ⟨n, hn, -⟩
    have hlt := hn.lt hs.arena (hs.roots_lt i)
    refine ⟨n, hlt, hlt, w, ?_, rfl⟩
    rwa [hn.resolve hs.arena.settled]
  refine (hA.algebra hF).height den (fun n x y => hden.unique) ?_ (hhas hw)
  rintro x f y ⟨t, ht, rfl, rfl⟩
  exact hhas ht

/-- Structures with the same facts have the same copy. -/
theorem compact_eq_of_facts (hs : s.WellFormed) (ht : t.WellFormed) (hA : (s.factsAt i).Acyclic)
    (h : t.factsAt i = s.factsAt i) : t.compact = s.compact := by
  have hF := hs.closed_factsAt i
  have hstart : Copying.Parallel s.arena t.arena
      (Twins s.arena t.arena (startAt i s.root) (startAt i t.root))
      (.start .empty) (.start .empty) := ⟨rfl, fun _ => rfl⟩
  obtain ⟨hroot, hend⟩ := Copying.copyWithin_parallel (pairing_twins hs.arena ht.arena h)
    (hs.arena.denotes_facts hF le_rfl) (hs.height hF hA rfl (s.has_root i))
    (ht.height hF hA h (s.has_root i))
    ⟨hs.root_lt, _, s.leads_root i, rfl⟩ ⟨⟨i, []⟩, s.leads_root i, t.leads_root i⟩ _ _ hstart
  simp only [compact, Copying.copy, Copying.select, hroot, hend.target]

/-- The nodes that paths lead to are copied once, and the copy has no others. -/
theorem size_compact (hs : s.WellFormed) (hA : (s.factsAt i).Acyclic) :
    s.compact.arena.size = s.nodes.ncard := by
  obtain ⟨hc, hget, -⟩ := Copying.copy_takes (.of_wellFormed hs.arena) hs.root_lt (hs.grounded hA)
    List.mem_cons_self (.start s.arena .empty (Copying.MetFrom s.arena [s.root]))
  have hsize := hc.size_eq_of_copied hs.arena.settled (List.forall_mem_singleton.2 ⟨_, hget⟩)
  have hempty : Arena.empty.size = 0 := rfl
  simpa [compact, nodes, hempty] using hsize

/-- Structures look alike exactly if their copies are one. -/
theorem isomorphic_iff_compact_eq (hs : s.WellFormed) (ht : t.WellFormed)
    (hA : (s.factsAt i).Acyclic) (hA' : (t.factsAt i).Acyclic) :
    s.Isomorphic t ↔ t.compact = s.compact := by
  rw [isomorphic_iff (i := i) hs ht]
  refine ⟨compact_eq_of_facts hs ht hA, fun h => ?_⟩
  rw [← (compact_spec ht hA').2 i, ← (compact_spec hs hA).2 i, h]

theorem compact_compact (hs : s.WellFormed) (hA : (s.factsAt i).Acyclic) :
    s.compact.compact = s.compact := by
  obtain ⟨hwf, hfacts⟩ := compact_spec hs hA
  exact compact_eq_of_facts hs hwf hA (hfacts i)

/-- Whichever side is merged into the other, the merges are one. -/
theorem unify?_comm (hs : s.WellFormed) (ht : t.WellFormed)
    (hA : (s.factsAt i ⊔ t.factsAt i).closure.Acyclic) : s.unify? t = t.unify? s := by
  have hsup : (t.factsAt i ⊔ s.factsAt i).closure = (s.factsAt i ⊔ t.factsAt i).closure := by
    rw [sup_comm]
  rcases unify?_merges hs ht hA with ⟨m, hm, hwf, hfacts⟩ | ⟨hnone, hclash⟩ <;>
    rcases unify?_merges ht hs (hsup.symm ▸ hA) with ⟨m', hm', hwf', hfacts'⟩ | ⟨hnone', hclash'⟩
  · rw [hm, hm', compact_eq_of_facts hwf' hwf (hfacts'.trans hsup ▸ hA)
      (hfacts.trans (hfacts'.trans hsup).symm)]
  · exact absurd (hfacts ▸ hwf.consistent_factsAt i) (hsup ▸ hclash')
  · exact absurd (hsup ▸ hfacts' ▸ hwf'.consistent_factsAt i) hclash
  · rw [hnone, hnone']

/-- The copy looks like the structure and has no node too many, and it depends on nothing but the
looks. To copy it again changes nothing, nor does it matter which side is merged into the other. -/
theorem compact_canonical (hs : s.WellFormed) (hA : (s.factsAt i).Acyclic) :
    s.Isomorphic s.compact ∧ s.compact.arena.size = s.nodes.ncard ∧
      (∀ t, t.WellFormed → s.Isomorphic t → t.compact = s.compact) ∧
      s.compact.compact = s.compact ∧
      ∀ t, t.WellFormed → (s.factsAt i ⊔ t.factsAt i).closure.Acyclic →
        s.unify? t = t.unify? s := by
  obtain ⟨hwf, hfacts⟩ := compact_spec hs hA
  refine ⟨(isomorphic_iff (i := i) hs hwf).2 (hfacts i), size_compact hs hA, fun t ht h => ?_,
    compact_compact hs hA, fun t ht => unify?_comm hs ht⟩
  exact compact_eq_of_facts hs ht hA ((isomorphic_iff hs ht).1 h)

/-- Two paths to one leaf, merged with a third path. -/
theorem compact_canonical_coindexed : ∃ s u, (single [⟨1⟩] ⟨1⟩).coindex [⟨1⟩] [⟨2⟩] = .ok (some s) ∧
    s.coindexed [⟨1⟩] [⟨2⟩] = true ∧ s.Isomorphic s.compact ∧
    s.compact.arena.size = s.nodes.ncard ∧
    s.unify? (single [⟨3⟩] ⟨1⟩) = some u ∧ (single [⟨3⟩] ⟨1⟩).unify? s = some u := by
  have hp : ([⟨1⟩] : Path) ≠ [] := by decide
  have hq : ([⟨3⟩] : Path) ≠ [] := by decide
  obtain ⟨s, hs⟩ : ∃ s, (single [⟨1⟩] ⟨1⟩).coindex [⟨1⟩] [⟨2⟩] = .ok (some s) := ⟨_, rfl⟩
  obtain ⟨hwf, hgraded⟩ :=
    coindex_graded (single_spec hp ⟨1⟩).1 (single_graded hp ⟨1⟩ 0) (by rfl) hs
  obtain ⟨hiso, hsize, -, -, hcomm⟩ := compact_canonical hwf hgraded.acyclic
  have hcomm' := hcomm (single [⟨3⟩] ⟨1⟩) (single_spec hq ⟨1⟩).1
    (hgraded.sup (single_graded hq ⟨1⟩ 0)).closure.acyclic
  cases hs
  exact ⟨_, _, rfl, rfl, hiso, hsize, rfl, hcomm'.symm⟩

end FeatureStructure

end FeatureLogic
