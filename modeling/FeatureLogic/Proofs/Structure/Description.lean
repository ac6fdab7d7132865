import FeatureLogic.Proofs.Arena.Leaves
import FeatureLogic.Proofs.Structure.Canonical
import FeatureLogic.Proofs.Structure.Invariant
import FeatureLogic.Proofs.Structure.Placing
/-!
Descriptions. The leaves of a structure unfold it into a tree, and its coindexed pairs fold the tree
again: building from both, in whatever order they are listed, gives the copy of the structure.
-/
set_option autoImplicit false

namespace FeatureLogic

variable {i : SlotIndex} {p q : Path} {a : Atom}

namespace FeatureStructure
open Arena

variable {s : FeatureStructure} {n : NodeId}

/-! ## Leaves -/

section Leaves
variable (hs : s.WellFormed) (hA : (s.factsAt i).Acyclic)
include hs hA

theorem mem_leaves : (p, a) ∈ s.leaves ↔ ∃ n, s.arena.lookup s.root p = .found n ∧
    (s.arena.content n).isComplex = false ∧ a = (s.arena.content n).atom? :=
  mem_leavesWithin hs.arena.settled (hs.arena.denotes_facts (hs.closed_factsAt i) le_rfl)
    (hs.height _ hA rfl (s.has_root i)) ⟨hs.root_lt, _, s.leads_root i, rfl⟩

theorem exists_leaf (hl : s.arena.lookup s.root p = .found n) :
    ∃ q a, (p ++ q, a) ∈ s.leaves := by
  have hn : s.arena.Leads (startAt i s.root) ⟨i, p⟩ n := leads_startAt.2 hl
  have hn' : s.arena.Leads (startAt i s.root) ⟨i, p⟩ (s.arena.resolve n) := by
    rwa [hn.resolve hs.arena.settled]
  obtain ⟨q, m, hm, hend⟩ := exists_end hs.arena
    (hs.arena.denotes_facts (hs.closed_factsAt i) le_rfl) (hs.height _ hA rfl hn.has)
    ⟨hn.lt hs.arena (hs.roots_lt i), _, hn', rfl⟩
  refine ⟨q, _, (mem_leaves hs hA).2 ⟨m, ?_, hend, rfl⟩⟩
  rw [hs.arena.settled.lookup_append hl, hm]

theorem leaf_le_factsAt (h : (p, a) ∈ s.leaves) : Facts.leaf ⟨i, p⟩ a ≤ s.factsAt i := by
  obtain ⟨n, hn, hend, rfl⟩ := (mem_leaves hs hA).1 h
  have hleads : s.arena.Leads (startAt i s.root) ⟨i, p⟩ n := leads_startAt.2 hn
  refine Facts.leaf_le.2 ⟨hleads.has, fun hne => hleads.value_iff.2 ?_⟩
  cases hcon : s.arena.content n with
  | atom a => rfl
  | empty => exact absurd (by rw [hcon]; rfl) hne
  | complex children => simp [hcon, Content.isComplex] at hend

/-- What has the leaves of a structure has all its paths. -/
theorem has_of_leaves {F : Facts} (hF : F.Closed)
    (hleaves : ∀ e ∈ s.leaves, Facts.leaf ⟨i, e.1⟩ e.2 ≤ F)
    (hl : s.arena.lookup s.root p = .found n) : F.Has ⟨i, p⟩ := by
  obtain ⟨q, a, hq⟩ := exists_leaf hs hA hl
  exact hF.up (q := q) (Facts.leaf_le.1 (hleaves _ hq)).1

/-- All that a structure has is in its leaves and its coindexed paths. -/
theorem factsAt_le (hnull : ∀ n, s.arena.content n ≠ .atom .null) {F : Facts} (hF : F.Closed)
    (hleaves : ∀ e ∈ s.leaves, Facts.leaf ⟨i, e.1⟩ e.2 ≤ F)
    (hpairs : ∀ p q, p ≠ q → s.coindexed p q = true → F.same ⟨i, p⟩ ⟨i, q⟩) :
    s.factsAt i ≤ F := by
  have hcl := hs.closed_factsAt i
  refine ⟨?_, ?_⟩
  · rintro ⟨j, p⟩ ⟨k, q⟩ hpq
    obtain rfl : j = i := slot_of_has (hcl.has_left hpq)
    obtain rfl : k = j := slot_of_has (hcl.has_right hpq)
    by_cases he : p = q
    · subst he
      obtain ⟨n, hn, -⟩ := hpq
      exact has_of_leaves hs hA hF hleaves (leads_startAt.1 hn)
    · exact hpairs p q he (same_factsAt.1 hpq)
  · rintro ⟨j, p⟩ a ha
    obtain rfl : j = i := slot_of_has (hcl.has_of_value ha)
    obtain ⟨n, hn, hcon⟩ := ha
    have hleaf : (p, a) ∈ s.leaves :=
      (mem_leaves hs hA).2 ⟨n, leads_startAt.1 hn, by rw [hcon]; rfl, by rw [hcon]; rfl⟩
    refine (Facts.leaf_le.1 (hleaves _ hleaf)).2 ?_
    rintro rfl
    exact hnull n hcon

end Leaves

end FeatureStructure

namespace Description
open Arena FeatureStructure

variable {g : Arena} {root : NodeId} {F : Facts} {values placed : List (Path × Atom)}
  {pairs : List (Path × Path)} {s : FeatureStructure} {d : Description}

/-! ## Placing what describes a structure -/

/-- Values at paths of which none goes on from another are taken in any order. -/
theorem placeValues_spec (i : SlotIndex) (hfree : PrefixFree values) :
    ∃ g h, placeRootValue empty.root values empty.arena = .ok g ∧
      placeValues empty.root (values.filter (!·.1.isEmpty)) g = .ok h ∧
      Planted i empty.root values h := by
  rcases placeAllValues i values with ⟨-, htwo⟩ | ⟨g, hrun, ⟨h, hrun', hh⟩ |
    ⟨e, earlier, p, a, later, -, rfl, href, htaken⟩⟩
  · -- two values at the root would go on from each other
    rcases hroots : values.filter (·.1.isEmpty) with _ | ⟨d, _ | ⟨d', ds⟩⟩
    · simp [hroots] at htwo
    · simp [hroots] at htwo
    · have hd : d.1 = [] := List.isEmpty_iff.1
        (List.mem_filter.1 (hroots ▸ List.mem_cons_self : d ∈ values.filter (·.1.isEmpty))).2
      have hpair : PrefixFree (d :: d' :: ds) := hroots ▸ List.Pairwise.filter _ hfree
      have hno := ((List.pairwise_cons.1 hpair).1 d' List.mem_cons_self).1
      exact absurd (hd ▸ List.nil_prefix) hno
  · exact ⟨g, h, hrun, hrun', hh⟩
  · exfalso
    cases href with
    | taken =>
      obtain ⟨d, hd, hpre⟩ := htaken rfl
      exact ((List.pairwise_append.1 hfree).2.2 d hd _ List.mem_cons_self).2 hpre
    | @blocked q r f b hd _ hp =>
      have hne : (q, b) ≠ (p, a) := fun he => by simpa [hp] using congrArg Prod.fst he
      have hsymm : Std.Symm fun d e : Path × Atom => ¬ d.1 <+: e.1 ∧ ¬ e.1 <+: d.1 :=
        ⟨fun _ _ => And.symm⟩
      have hno := List.Pairwise.forall hfree hd (b := (p, a)) (by simp) hne
      exact hno.1 (hp ▸ List.prefix_append q (f :: r))

/-- Two paths of each pair that exist can be made one as long as this agrees with the facts `F`. -/
theorem placeEquivalences_spec (hF : F.Closed) (hA : F.Acyclic) (hc : F.Consistent)
    (hg : g.WellFormed) (hroot : root < g.size) (hle : g.facts (startAt i root) ≤ F)
    (hpairs : ∀ e ∈ pairs, (g.facts (startAt i root)).Has ⟨i, e.1⟩ ∧
      F.same ⟨i, e.1⟩ ⟨i, e.2⟩) :
    ∃ h, placeEquivalences root pairs g = .ok h ∧ Extends (startAt i root) F g h ∧
      ∀ e ∈ pairs, (h.facts (startAt i root)).same ⟨i, e.1⟩ ⟨i, e.2⟩ := by
  rcases placeEquivalences_cases hF hA hg hroot hle fun d hd => (hpairs d hd).2 with
    hok | ⟨-, -, -, hclash⟩ | ⟨earlier, p, q, later, h, rfl, -, -, hext, hp, -⟩
  · exact hok
  · exact absurd hc hclash
  · have hmem : (p, q) ∈ earlier ++ (p, q) :: later := by simp
    refine absurd (hext.facts_le.1 _ _ (hpairs _ hmem).1) ?_
    exact not_has_of_missing (t := ⟨i, p⟩) (startAt_eq_some.2 ⟨rfl, rfl⟩) hp

/-! ## Round trip -/

/-- The leaves of a structure, and every two of its paths that lead to one node, in any order and
with either path first. -/
structure Describes (d : Description) (s : FeatureStructure) : Prop where
  values : d.values.Perm s.leaves
  equivalences (p q : Path) : (p, q) ∈ d.equivalences ∨ (q, p) ∈ d.equivalences ↔
    p ≠ q ∧ s.coindexed p q = true

end Description

namespace FeatureStructure
open Arena Description

variable {s : FeatureStructure} {d : Description}

/-- Each pair of paths is listed both ways round. -/
def describe (s : FeatureStructure) : Description where
  values := s.leaves
  equivalences :=
    let paths := s.leaves.flatMap (·.1.inits)
    (paths ×ˢ paths).filter fun e => e.1 ≠ e.2 ∧ s.coindexed e.1 e.2

theorem describes_describe (hs : s.WellFormed) (hA : (s.factsAt i).Acyclic) :
    s.describe.Describes s := by
  have hpath : ∀ {p n}, s.arena.lookup s.root p = .found n →
      p ∈ s.leaves.flatMap (·.1.inits) := by
    intro p n hn
    obtain ⟨q, a, hq⟩ := exists_leaf hs hA hn
    exact List.mem_flatMap.2 ⟨_, hq, (List.mem_inits _ _).2 (List.prefix_append p q)⟩
  have hmem : ∀ p q, (p, q) ∈ s.describe.equivalences ↔ p ≠ q ∧ s.coindexed p q = true := by
    intro p q
    simp only [describe, List.mem_filter, List.mem_product, decide_eq_true_eq]
    refine ⟨And.right, fun h => ⟨?_, h⟩⟩
    obtain ⟨n, hp, hq⟩ := coindexed_iff.1 h.2
    exact ⟨hpath hp, hpath hq⟩
  refine ⟨.refl _, fun p q => ?_⟩
  rw [hmem, hmem, or_iff_left_iff_imp]
  rintro ⟨hne, h⟩
  obtain ⟨n, hq, hp⟩ := coindexed_iff.1 h
  exact ⟨hne.symm, coindexed_iff.2 ⟨n, hp, hq⟩⟩

/-- From a description of a structure its copy is built. -/
theorem Sound.ofDescription_eq (hs : s.Sound fun _ => False) (hA : (s.factsAt i).Acyclic)
    (hd : d.Describes s) : ofDescription d = .ok s.compact := by
  have hwf : s.WellFormed := ⟨hs.arena.wellFormed id, hs.root_lt⟩
  have hF := hwf.closed_factsAt i
  have hnull : ∀ n, s.arena.content n ≠ .atom .null :=
    fun n hn => (hs.arena.allowed n).given (.inr hn)
  obtain ⟨g₁, g₂, hrun₁, hrun₂, hg₂⟩ :=
    placeValues_spec i ((prefixFree_leaves s.arena s.root).perm hd.values.symm)
  have hF₂ := hg₂.wellFormed.settled.closed_facts (startAt i empty.root)
  have hleaves : ∀ e ∈ s.leaves,
      Facts.leaf ⟨i, e.1⟩ e.2 ≤ g₂.facts (startAt i empty.root) :=
    fun e he => hg₂.leaf_le e (hd.values.mem_iff.2 he)
  have hle₂ : g₂.facts (startAt i empty.root) ≤ s.factsAt i :=
    hg₂.le_tree.trans (Facts.tree_le hF (s.has_root i) fun e he =>
      leaf_le_factsAt hwf hA (hd.values.mem_iff.1 he))
  -- the paths of a pair are on the way to leaves, so they are there to be merged
  have hpairs : ∀ e ∈ d.equivalences, (g₂.facts (startAt i empty.root)).Has ⟨i, e.1⟩ ∧
      (s.factsAt i).same ⟨i, e.1⟩ ⟨i, e.2⟩ := by
    rintro ⟨p, q⟩ he
    have h := ((hd.equivalences p q).1 (.inl he)).2
    obtain ⟨n, hp, -⟩ := coindexed_iff.1 h
    exact ⟨has_of_leaves hwf hA hF₂ hleaves hp, same_factsAt.2 h⟩
  obtain ⟨g₃, hrun₃, hext, hsame⟩ := placeEquivalences_spec hF hA (hwf.consistent_factsAt i)
    hg₂.wellFormed hg₂.root_lt hle₂ hpairs
  have hF₃ := hext.wellFormed.settled.closed_facts (startAt i empty.root)
  have hfacts : (FeatureStructure.mk g₃ empty.root).factsAt i = s.factsAt i := by
    refine le_antisymm hext.le (factsAt_le hwf hA hnull hF₃ (fun e he => ?_) fun p q hne h => ?_)
    · exact (hleaves e he).trans hext.facts_le
    · rcases (hd.equivalences p q).2 ⟨hne, h⟩ with he | he
      · exact hsame _ he
      · exact hF₃.symm (hsame _ he)
  have hwf₃ : (FeatureStructure.mk g₃ empty.root).WellFormed :=
    ⟨hext.wellFormed, Nat.lt_of_lt_of_le hg₂.root_lt hext.grows.size_le⟩
  have hstart : Arena.empty.alloc .empty = (empty.root, empty.arena) := rfl
  rw [← compact_eq_of_facts hwf hwf₃ hA hfacts]
  simp only [ofDescription, hstart, hrun₁, hrun₂, hrun₃, bind, Except.bind, pure, Except.pure]

/-- Every structure can be described, and whichever way it is, its copy is what is built. -/
theorem description_roundtrip (hs : s.Sound fun _ => False) (hA : (s.factsAt i).Acyclic) :
    (∃ d : Description, d.Describes s) ∧
      ∀ d : Description, d.Describes s → ofDescription d = .ok s.compact :=
  ⟨⟨_, describes_describe ⟨hs.arena.wellFormed id, hs.root_lt⟩ hA⟩,
    fun _ => hs.ofDescription_eq hA⟩

/-- Two paths to a node that is not a leaf. -/
theorem description_roundtrip_inner : ∃ s,
    (single [⟨1⟩, ⟨1⟩] ⟨1⟩).coindex [⟨1⟩] [⟨2⟩] = .ok (some s) ∧
    s.describe.Describes s ∧ ofDescription s.describe = .ok s.compact := by
  have hp : ([⟨1⟩, ⟨1⟩] : Path) ≠ [] := by decide
  have hsound : (single [⟨1⟩, ⟨1⟩] ⟨1⟩).Sound fun _ => False :=
    (sound_atomic .null).createValue [⟨1⟩, ⟨1⟩] ⟨1⟩
  obtain ⟨s, hs⟩ : ∃ s, (single [⟨1⟩, ⟨1⟩] ⟨1⟩).coindex [⟨1⟩] [⟨2⟩] = .ok (some s) := ⟨_, rfl⟩
  obtain ⟨hwf, hgraded⟩ :=
    coindex_graded (single_spec hp ⟨1⟩).1 (single_graded hp ⟨1⟩ 0) (by rfl) hs
  have hd := describes_describe hwf hgraded.acyclic
  exact ⟨s, hs, hd, (description_roundtrip (hsound.coindex hs) hgraded.acyclic).2 _ hd⟩

end FeatureStructure

end FeatureLogic
