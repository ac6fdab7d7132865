import FeatureLogic.Proofs.Structure.Coindexing
import FeatureLogic.Proofs.Structure.Placing
/-!
Models of descriptions: the structures that have the values and the coindexed paths asked for. What is
built from a description is its least model. Of the errors, some say that there is no model, the others
that the description goes over a path twice or has nothing to link.
-/
set_option autoImplicit false

namespace FeatureLogic

open Arena Description FeatureStructure

namespace FeatureStructure

/-- The structure has all that the description asks for. The null atom asks for the path alone. -/
structure Models (s : FeatureStructure) (d : Description) : Prop where
  wellFormed : s.WellFormed
  value {p : Path} {a : Atom} : (p, a) ∈ d.values →
    ∃ u, s.lookup p = .found u ∧ (a ≠ .null → u.content = .atom a)
  equivalence {p q : Path} : (p, q) ∈ d.equivalences → s.coindexed p q = true

/-- No other path, atom or coindexation than every model has. -/
structure IsLeastModel (s : FeatureStructure) (d : Description) : Prop where
  models : s.Models d
  least {u : FeatureStructure} : u.Models d → s.Subsumed u

end FeatureStructure

namespace Description

/-- What the description asks for in slot `i`. -/
def facts (d : Description) (i : SlotIndex) : Facts :=
  Facts.tree i d.values ⊔ links i d.equivalences

variable {d : Description} {s : FeatureStructure} {i : SlotIndex} {p q : Path} {a : Atom}
  {g h k : Arena} {e : StructureError}

theorem models_iff (hs : s.WellFormed) : s.Models d ↔ d.facts i ≤ s.factsAt i := by
  have hF := hs.closed_factsAt i
  constructor
  · intro hm
    refine sup_le (Facts.tree_le hF (s.has_root i) fun v hv => ?_) (Facts.all_le.2 fun F hlink => ?_)
    · obtain ⟨u, hu, ha⟩ := hm.value hv
      exact Facts.leaf_le.2
        ⟨has_factsAt.2 ⟨u, hu⟩, fun hne => (value_factsAt hs.arena.settled).2 ⟨u, hu, ha hne⟩⟩
    · obtain ⟨pair, hpair, rfl⟩ := List.mem_map.1 hlink
      refine ⟨?_, fun _ _ => False.elim⟩
      rintro _ _ ⟨rfl, rfl⟩
      exact same_factsAt.2 (hm.equivalence hpair)
  · intro hle
    refine ⟨hs, fun {p a} hv => ?_, fun {p q} hpair => ?_⟩
    · obtain ⟨hhas, hvalue⟩ := Facts.leaf_le.1 ((Facts.leaf_le_tree hv).trans (le_sup_left.trans hle))
      obtain ⟨u, hu⟩ := has_factsAt.1 hhas
      refine ⟨u, hu, fun hne => ?_⟩
      obtain ⟨v, hv, ha⟩ := (value_factsAt hs.arena.settled).1 (hvalue hne)
      cases hu.symm.trans hv
      exact ha
    · refine same_factsAt.1 (hle.1 ⟨i, p⟩ ⟨i, q⟩ (.inr ?_))
      exact ⟨_, List.mem_map_of_mem hpair, rfl, rfl⟩

theorem isLeastModel_of_facts (hs : s.WellFormed) (hfacts : s.factsAt i = (d.facts i).closure) :
    s.IsLeastModel d := by
  refine ⟨(models_iff hs).2 (hfacts ▸ Facts.le_closure _), fun {u} hu => ?_⟩
  refine (subsumed_iff (i := i) hs hu.wellFormed).2 ?_
  rw [hfacts]
  exact Facts.closure_le (hu.wellFormed.closed_factsAt i) ((models_iff hu.wellFormed).1 hu)

theorem not_models (hc : ¬ (d.facts i).closure.Consistent) (u : FeatureStructure) :
    ¬ u.Models d := fun hu =>
  hc ((hu.wellFormed.consistent_factsAt i).mono
    (Facts.closure_le (hu.wellFormed.closed_factsAt i) ((models_iff hu.wellFormed).1 hu)))

/-- A value asked for behind an atom. -/
theorem Refused.not_consistent (href : Refused d.values p .atomicNode) (hp : (p, a) ∈ d.values) :
    ¬ (d.facts i).closure.Consistent := by
  intro hc
  have hF := Facts.closed_closure (d.facts i)
  have hle : Facts.tree i d.values ≤ (d.facts i).closure := le_sup_left.trans (Facts.le_closure _)
  cases href with
  | @blocked q r f b hq hne hpath =>
    refine hc.not_has_of_value_above hF (t := ⟨i, q⟩) (f := f) (q := r) (a := b)
      (hle.2 _ _ ⟨rfl, hq, hne⟩) (hle.1 _ _ ⟨rfl, rfl, .inr ⟨_, hp, ?_⟩⟩)
    rw [hpath]
    exact List.prefix_rfl

/-- When everything has been placed, the copy of what stands there is the least model. -/
theorem isLeastModel_compact (hA : (d.facts i).closure.Acyclic)
    (hh : Planted i empty.root d.values h)
    (hrun : placeEquivalences empty.root d.equivalences h = .ok k) :
    (compact ⟨k, empty.root⟩).IsLeastModel d ∧ ∀ p, k.lookup empty.root p = .missing →
      (compact ⟨k, empty.root⟩).lookup p = .missing := by
  have hF := Facts.closed_closure (d.facts i)
  have hle := Facts.le_closure (d.facts i)
  rcases placeEquivalences_cases hF hA hh.wellFormed hh.root_lt
      (hh.le_tree.trans (le_sup_left.trans hle)) fun pair hpair =>
        hle.1 _ _ (.inr ⟨_, List.mem_map_of_mem hpair, rfl, rfl⟩) with
    ⟨k', hrun', hext, hall⟩ | ⟨e, hrun', -⟩ | ⟨-, p, q, -, -, -, hrun', -⟩
  · cases hrun.symm.trans hrun'
    have hs : (FeatureStructure.mk k empty.root).WellFormed :=
      ⟨hext.wellFormed, Nat.lt_of_lt_of_le hh.root_lt hext.grows.size_le⟩
    have hcl := hs.closed_factsAt i
    have hfacts : (FeatureStructure.mk k empty.root).factsAt i = (d.facts i).closure := by
      refine le_antisymm hext.le (Facts.closure_le hcl (sup_le ?_ (Facts.all_le.2 ?_)))
      · exact hh.facts_eq.ge.trans hext.facts_le
      · intro F hlink
        obtain ⟨pair, hpair, rfl⟩ := List.mem_map.1 hlink
        refine ⟨?_, fun _ _ => False.elim⟩
        rintro _ _ ⟨rfl, rfl⟩
        exact hall pair hpair
    obtain ⟨hwf, hcopy⟩ := compact_spec hs (hfacts ▸ hA)
    refine ⟨isLeastModel_of_facts hwf ((hcopy i).trans hfacts), fun p hp => ?_⟩
    have hread := ((isomorphic_iff (i := i) hs hwf).2 (hcopy i)).reading p
    have hp' : (FeatureStructure.mk k empty.root).lookup p = .missing := lookup_eq_missing.2 hp
    rw [FeatureStructure.reading, FeatureStructure.reading, hp'] at hread
    cases hl : (compact ⟨k, empty.root⟩).lookup p <;> simp [hl, Lookup.map] at hread
    rfl
  · cases hrun.symm.trans hrun'
  · cases hrun.symm.trans hrun'

/-- What an error says of the description. -/
def Reports (d : Description) : StructureError → Prop
  | .atomicNode => ∀ u : FeatureStructure, ¬ u.Models d
  | .inconsistentEquivalence p q => (p, q) ∈ d.equivalences ∧ ∀ u : FeatureStructure, ¬ u.Models d
  | .duplicateRootValue => 2 ≤ (d.values.filter (·.1.isEmpty)).length
  | .valueExists p => ∃ earlier a later,
      d.values = earlier ++ (p, a) :: later ∧ ∃ e ∈ earlier, p <+: e.1
  | .unresolvedEquivalence p q => ∃ earlier later s,
      d.equivalences = earlier ++ (p, q) :: later ∧
      ofDescription ⟨d.values, earlier⟩ = .ok s ∧ s.IsLeastModel ⟨d.values, earlier⟩ ∧
      s.lookup p = .missing ∧ s.lookup q = .missing
  | .emptyPath => False

theorem reports_of_refused {earlier later : List (Path × Atom)}
    (hsplit : d.values = earlier ++ (p, a) :: later) (href : Refused d.values p e)
    (htaken : e = .valueExists p → ∃ e ∈ earlier, p <+: e.1) : d.Reports e := by
  cases href with
  | taken => exact ⟨earlier, a, later, hsplit, htaken rfl⟩
  | blocked hq hne hp =>
    exact not_models (i := 0) (Refused.not_consistent (.blocked hq hne hp) (a := a)
      (hsplit ▸ by simp))

/-- Either a value is at fault, or all are placed and what is left are the equivalences. -/
theorem ofDescription_cases (i : SlotIndex) (d : Description) :
    (∃ e, ofDescription d = .error e ∧ d.Reports e) ∨
      ∃ h, Planted i empty.root d.values h ∧ ∀ pairs, ofDescription ⟨d.values, pairs⟩ =
        (placeEquivalences empty.root pairs h).map fun k => compact ⟨k, empty.root⟩ := by
  have hstart : Arena.empty.alloc .empty = (empty.root, empty.arena) := rfl
  simp only [ofDescription, hstart, bind, Except.bind, pure, Except.pure]
  rcases placeAllValues i d.values with ⟨hrun, htwo⟩ | ⟨g, hrun, ⟨h, hrun', hh⟩ |
    ⟨e, earlier, p, a, later, hrun', hsplit, href, htaken⟩⟩
  · exact .inl ⟨.duplicateRootValue, by simp only [hrun], htwo⟩
  · refine .inr ⟨h, hh, fun pairs => ?_⟩
    simp only [hrun, hrun']
    cases placeEquivalences empty.root pairs h <;> rfl
  · exact .inl ⟨e, by simp only [hrun, hrun'], reports_of_refused hsplit href htaken⟩

/-- Values that are in place leave an equivalence at fault, or nothing. -/
theorem reports_of_planted (hA : (d.facts i).closure.Acyclic)
    (hh : Planted i empty.root d.values h)
    (hbuild : ∀ pairs, ofDescription ⟨d.values, pairs⟩ =
      (placeEquivalences empty.root pairs h).map fun k => compact ⟨k, empty.root⟩)
    (hrun : placeEquivalences empty.root d.equivalences h = .error e) : d.Reports e := by
  have hle := Facts.le_closure (d.facts i)
  rcases placeEquivalences_cases (Facts.closed_closure _) hA hh.wellFormed hh.root_lt
      (hh.le_tree.trans (le_sup_left.trans hle)) (fun pair hpair =>
        hle.1 _ _ (.inr ⟨_, List.mem_map_of_mem hpair, rfl, rfl⟩)) with
    ⟨k, hrun', -⟩ | ⟨e', hrun', he, hclash⟩ |
    ⟨earlier, p, q, later, k, hsplit, hrun', hearlier, -, hp, hq⟩
  · cases hrun.symm.trans hrun'
  · cases hrun.symm.trans hrun'
    rcases he with rfl | ⟨pair, hpair, rfl⟩
    · exact not_models hclash
    · exact ⟨hpair, not_models hclash⟩
  · cases hrun.symm.trans hrun'
    -- what is forced by the equivalences before this one forces no cycle either
    have hA' : ((Description.mk d.values earlier).facts i).closure.Acyclic := by
      refine hA.mono (Facts.closure_mono (sup_le_sup_left ?_ _))
      rw [links, links, hsplit, List.map_append, Facts.all_append]
      exact le_sup_left
    obtain ⟨hleast, hmissing⟩ :=
      isLeastModel_compact (d := ⟨d.values, earlier⟩) hA' hh hearlier
    exact ⟨earlier, later, _, hsplit, by rw [hbuild, hearlier]; rfl, hleast,
      hmissing p hp, hmissing q hq⟩

end Description

namespace FeatureStructure
open Description

variable {d : Description} {i : SlotIndex}

/-- From a description whose coindexed paths force no cycle its least model is built, or else the error
tells why not. Linking a path that is missing does not fail. -/
theorem ofDescription_least (hA : (d.facts i).closure.Acyclic) :
    (∀ s, ofDescription d = .ok s → s.IsLeastModel d) ∧
      (∀ e, ofDescription d = .error e → d.Reports e) ∧
      ∀ (g : Arena) (root target : NodeId) (p q : Path), g.WellFormed → root < g.size →
        g.lookup root p = .found target → g.lookup root q = .missing →
        (g.linkPath root q target).1 = .ok () := by
  have hlink : ∀ (g : Arena) (root target : NodeId) (p q : Path), g.WellFormed → root < g.size →
      g.lookup root p = .found target → g.lookup root q = .missing →
      (g.linkPath root q target).1 = .ok () := by
    intro g root target p q hg hroot hp hq
    obtain ⟨k, hrun, -⟩ := linkPath_spec hg.bounded hroot (hg.lookup_lt hroot hp) hq
    rw [hrun]
  rcases ofDescription_cases i d with ⟨e, hrun, he⟩ | ⟨h, hh, hbuild⟩
  · refine ⟨fun s hs => ?_, fun e' he' => ?_, hlink⟩
    · cases hrun.symm.trans hs
    · cases hrun.symm.trans he'
      exact he
  · have hrun := hbuild d.equivalences
    cases hk : placeEquivalences empty.root d.equivalences h with
    | ok k =>
      rw [hk] at hrun
      refine ⟨fun s hs => ?_, fun e he => ?_, hlink⟩
      · cases hrun.symm.trans hs
        exact (isLeastModel_compact hA hh hk).1
      · cases hrun.symm.trans he
    | error e =>
      rw [hk] at hrun
      refine ⟨fun s hs => ?_, fun e' he => ?_, hlink⟩
      · cases hrun.symm.trans hs
      · cases hrun.symm.trans he
        exact reports_of_planted hA hh hbuild hk

/-- A path linked to the one that has a value, and a value at both sides of a pair. -/
theorem ofDescription_least_linked :
    let linked : Description := ⟨[([⟨1⟩, ⟨1⟩], ⟨1⟩)], [([⟨1⟩], [⟨2⟩])]⟩
    let torn : Description := ⟨[([⟨1⟩], ⟨1⟩), ([⟨2⟩], ⟨2⟩)], [([⟨1⟩], [⟨2⟩])]⟩
    (∃ s, ofDescription linked = .ok s ∧ s.IsLeastModel linked) ∧
      ofDescription torn = .error (.inconsistentEquivalence [⟨1⟩] [⟨2⟩]) ∧
      ∀ u : FeatureStructure, ¬ u.Models torn := by
  intro linked torn
  have hlinked : (linked.facts 0).closure.Acyclic :=
    ((Facts.Graded.tree _).sup (links_graded (by simp [linked]))).closure.acyclic
  have htorn : (torn.facts 0).closure.Acyclic :=
    ((Facts.Graded.tree _).sup (links_graded (by simp [torn]))).closure.acyclic
  obtain ⟨s, hs⟩ : ∃ s, ofDescription linked = .ok s := ⟨_, rfl⟩
  have hrun : ofDescription torn = .error (.inconsistentEquivalence [⟨1⟩] [⟨2⟩]) := rfl
  exact ⟨⟨s, hs, (ofDescription_least hlinked).1 s hs⟩, hrun,
    ((ofDescription_least htorn).2.1 _ hrun).2⟩

end FeatureStructure

end FeatureLogic
