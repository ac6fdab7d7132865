import FeatureLogic.Proofs.Arena.Blocking
import FeatureLogic.Structure.Description
import Mathlib.Data.List.Infix
/-!
Putting descriptions in place. What stands while values are placed is the tree of those that have
been, and one is refused only for what stands in its way. Equivalences add what they force, until one
clashes or has neither path in place.
-/
set_option autoImplicit false

namespace FeatureLogic

variable {i : SlotIndex} {p q : Path} {a : Atom}

/-- The facts of a tree with these leaves. -/
def Facts.tree (i : SlotIndex) (values : List (Path × Atom)) : Facts where
  same t u := t = u ∧ t.slot = i ∧ (t.path = [] ∨ ∃ e ∈ values, t.path <+: e.1)
  value t a := t.slot = i ∧ (t.path, a) ∈ values ∧ a ≠ .null

namespace Facts
variable {values : List (Path × Atom)}

theorem closed_tree (i : SlotIndex) (values : List (Path × Atom)) : (tree i values).Closed where
  symm := by
    rintro t _ ⟨rfl, ht⟩
    exact ⟨rfl, ht⟩
  trans := by
    rintro t _ _ ⟨rfl, ht⟩ ⟨rfl, -⟩
    exact ⟨rfl, ht⟩
  up := by
    rintro t q ⟨-, hslot, hq⟩
    refine ⟨rfl, hslot, ?_⟩
    rcases hq with hnil | ⟨e, he, hpre⟩
    · exact .inl (List.append_eq_nil_iff.1 hnil).1
    · exact .inr ⟨e, he, (List.prefix_append t.path q).trans hpre⟩
  congr := by
    rintro t _ q ⟨rfl, -⟩ ht
    exact ht
  has_of_value := by
    rintro t a ⟨hslot, ha, -⟩
    exact ⟨rfl, hslot, .inr ⟨_, ha, List.prefix_rfl⟩⟩
  value_congr := by
    rintro t _ a ⟨rfl, -⟩ ha
    exact ha

theorem tree_mono {values' : List (Path × Atom)} (h : values ⊆ values') :
    tree i values ≤ tree i values' := by
  refine ⟨?_, fun t a ⟨hslot, ha, hne⟩ => ⟨hslot, h ha, hne⟩⟩
  rintro t u ⟨he, hslot, hnil | ⟨e, hmem, hpre⟩⟩
  · exact ⟨he, hslot, .inl hnil⟩
  · exact ⟨he, hslot, .inr ⟨e, h hmem, hpre⟩⟩

theorem leaf_le_tree (h : (p, a) ∈ values) : leaf ⟨i, p⟩ a ≤ tree i values :=
  leaf_le.2 ⟨⟨rfl, rfl, .inr ⟨_, h, List.prefix_rfl⟩⟩, fun hne => ⟨rfl, h, hne⟩⟩

theorem Graded.tree (values : List (Path × Atom)) : (tree i values).Graded := by
  rintro t _ ⟨rfl, -⟩
  rfl

/-- A tree hangs together by its leaves. -/
theorem tree_le {F : Facts} (hF : F.Closed) (hroot : F.Has ⟨i, []⟩)
    (h : ∀ e ∈ values, leaf ⟨i, e.1⟩ e.2 ≤ F) : tree i values ≤ F := by
  refine ⟨?_, ?_⟩
  · rintro ⟨_, p⟩ _ ⟨rfl, rfl, hnil | ⟨e, he, q, hq⟩⟩
    · obtain rfl : p = [] := hnil
      exact hroot
    · refine hF.up (q := q) ?_
      rw [PathTerm.below, hq]
      exact (leaf_le.1 (h e he)).1
  · rintro ⟨_, p⟩ a ⟨rfl, ha, hne⟩
    exact (leaf_le.1 (h _ ha)).2 hne

end Facts

namespace Description
open Arena FeatureStructure

variable {g : Arena} {root : NodeId} {F : Facts} {values placed placed' : List (Path × Atom)}
  {pairs : List (Path × Path)} {e : StructureError}

/-! ## Values -/

/-- The tree with the leaves `placed` has been built at `root`. -/
structure Planted (i : SlotIndex) (root : NodeId) (placed : List (Path × Atom)) (g : Arena) :
    Prop where
  wellFormed : g.WellFormed
  root_lt : root < g.size
  le_tree : g.facts (startAt i root) ≤ Facts.tree i placed
  leaf_le : ∀ e ∈ placed, Facts.leaf ⟨i, e.1⟩ e.2 ≤ g.facts (startAt i root)

/-- Why no value is put at `p` when those of `placed` are in place: the path is there already, or an
atom is on the way. -/
inductive Refused (placed : List (Path × Atom)) (p : Path) : StructureError → Prop
  | taken {d : Path × Atom} : d ∈ placed → p <+: d.1 → Refused placed p (.valueExists p)
  | blocked {q r : Path} {f : Feature} {b : Atom} : (q, b) ∈ placed → b ≠ .null →
      p = q ++ f :: r → Refused placed p .atomicNode

theorem Refused.mono (h : placed ⊆ placed') (href : Refused placed p e) : Refused placed' p e := by
  cases href with
  | taken hd hpre => exact .taken (h hd) hpre
  | blocked hd hne hp => exact .blocked (h hd) hne hp

namespace Planted

theorem roots_lt (hg : Planted i root placed g) :
    ∀ j r, startAt i root j = some r → r < g.size :=
  WellFormed.roots_lt (s := ⟨g, root⟩) ⟨hg.wellFormed, hg.root_lt⟩ i

/-- In which order the leaves are listed, and how often, does not matter. -/
theorem congr (hg : Planted i root placed g) (h : ∀ d, d ∈ placed ↔ d ∈ placed') :
    Planted i root placed' g :=
  ⟨hg.wellFormed, hg.root_lt, hg.le_tree.trans (Facts.tree_mono fun d => (h d).1),
    fun d hd => hg.leaf_le d ((h d).2 hd)⟩

theorem facts_eq (hg : Planted i root placed g) :
    g.facts (startAt i root) = Facts.tree i placed :=
  le_antisymm hg.le_tree (Facts.tree_le (hg.wellFormed.settled.closed_facts _)
    (has_root ⟨g, root⟩ i) hg.leaf_le)

theorem place (hg : Planted i root placed g) (hp : p ≠ []) (a : Atom) :
    (∃ n h, g.createValue root p a = (.ok n, h) ∧ Planted i root ((p, a) :: placed) h) ∨
    ∃ e h, g.createValue root p a = (.error e, h) ∧ Refused placed p e := by
  have hroot : startAt i root i = some root := startAt_eq_some.2 ⟨rfl, rfl⟩
  cases hl : g.lookup root p with
  | found n =>
    obtain ⟨h, hrun⟩ := createValue_of_found hg.wellFormed.bounded hg.root_lt hp hl a
    have hn : g.Leads (startAt i root) ⟨i, p⟩ n := (leads_iff hroot).2 hl
    obtain ⟨-, -, hnil | ⟨d, hd, hpre⟩⟩ := hg.le_tree.1 _ _ hn.has
    · exact absurd hnil hp
    · exact .inr ⟨_, h, hrun, .taken hd hpre⟩
  | blocked =>
    obtain ⟨h, hrun⟩ := createValue_of_blocked hg.wellFormed.bounded hg.root_lt hl a
    obtain ⟨u, f, r, b, he, hb⟩ :=
      exists_value_of_blocked (t := ⟨i, p⟩) hg.wellFormed.settled hroot hl
    obtain ⟨-, hmem, hne⟩ := hg.le_tree.2 u b hb
    exact .inr ⟨_, h, hrun, .blocked hmem hne (congrArg PathTerm.path he)⟩
  | missing =>
    have hmem : (p, a) ∈ (p, a) :: placed := List.mem_cons_self
    have hle := hg.le_tree.trans (Facts.tree_mono (i := i) (List.subset_cons_self (p, a) placed))
    obtain ⟨hhas, hvalue⟩ := Facts.leaf_le.1 (Facts.leaf_le_tree (i := i) hmem)
    obtain ⟨n, h, hrun, hext, hhas', hvalue'⟩ := createValue_facts (t := ⟨i, p⟩) hg.wellFormed
      hg.roots_lt (Facts.closed_tree i _) hle hroot hl hhas hvalue
    refine .inl ⟨n, h, hrun, hext.wellFormed,
      Nat.lt_of_lt_of_le hg.root_lt hext.grows.size_le, hext.le, fun d hd => ?_⟩
    rcases List.mem_cons.1 hd with rfl | hd
    · exact Facts.leaf_le.2 ⟨hhas', hvalue'⟩
    · exact (hg.leaf_le d hd).trans hext.facts_le

end Planted

/-- Values are placed up to the first that is refused. -/
theorem placeValues_planted (hg : Planted i root placed g) (hnil : ∀ d ∈ values, d.1 ≠ []) :
    (∃ h, placeValues root values g = .ok h ∧ Planted i root (values.reverse ++ placed) h) ∨
    ∃ e earlier p a later, placeValues root values g = .error e ∧
      values = earlier ++ (p, a) :: later ∧ Refused (earlier.reverse ++ placed) p e := by
  induction values generalizing placed g with
  | nil => exact .inl ⟨g, rfl, hg⟩
  | cons d values ih =>
    obtain ⟨p, a⟩ := d
    obtain ⟨hp, hnil⟩ := List.forall_mem_cons.1 hnil
    rcases hg.place hp a with ⟨n, h, hrun, hh⟩ | ⟨e, h, hrun, href⟩
    · simp only [placeValues, hrun, List.reverse_cons, List.append_assoc, List.singleton_append]
      rcases ih hh hnil with ⟨k, hk⟩ | ⟨e, earlier, q, b, later, herr, rfl, href⟩
      · exact .inl ⟨k, hk⟩
      · exact .inr ⟨e, (p, a) :: earlier, q, b, later, herr, rfl, by simpa using href⟩
    · exact .inr ⟨e, [], p, a, values, by simp only [placeValues, hrun], rfl, href⟩

theorem planted_atomic (i : SlotIndex) (a : Atom) :
    Planted i (atomic a).root [([], a)] (atomic a).arena := by
  obtain ⟨hwf, hfacts⟩ := atomic_spec a
  have hleaf : (atomic a).arena.facts (startAt i (atomic a).root) = Facts.leaf ⟨i, []⟩ a :=
    hfacts i
  refine ⟨hwf.arena, hwf.root_lt, ?_, fun d hd => ?_⟩
  · rw [hleaf]
    exact Facts.leaf_le_tree List.mem_cons_self
  · obtain rfl := List.mem_singleton.1 hd
    exact hleaf.ge

theorem planted_empty (i : SlotIndex) : Planted i empty.root [] empty.arena := by
  obtain ⟨hwf, hfacts⟩ := empty_spec
  have hleaf : empty.arena.facts (startAt i empty.root) = Facts.leaf ⟨i, []⟩ .null := hfacts i
  refine ⟨hwf.arena, hwf.root_lt, ?_, fun d hd => absurd hd List.not_mem_nil⟩
  rw [hleaf]
  exact Facts.leaf_le.2 ⟨⟨rfl, rfl, .inl rfl⟩, fun hne => absurd rfl hne⟩

/-- The root takes at most one value. -/
theorem placeRootValue_planted (i : SlotIndex) (values : List (Path × Atom)) :
    (∃ g, placeRootValue empty.root values empty.arena = .ok g ∧
      Planted i empty.root (values.filter (·.1.isEmpty)) g) ∨
    placeRootValue empty.root values empty.arena = .error .duplicateRootValue ∧
      2 ≤ (values.filter (·.1.isEmpty)).length := by
  have hnil : ∀ d ∈ values.filter (·.1.isEmpty), d.1 = [] := fun d hd =>
    List.isEmpty_iff.1 (List.mem_filter.1 hd).2
  unfold placeRootValue
  generalize values.filter (·.1.isEmpty) = roots at hnil ⊢
  match roots with
  | [] => exact .inl ⟨_, rfl, planted_empty i⟩
  | [(p, a)] =>
    obtain rfl : p = [] := hnil (p, a) (List.mem_singleton_self _)
    exact .inl ⟨_, rfl, planted_atomic i a⟩
  | _ :: _ :: _ => exact .inr ⟨rfl, by simp⟩

/-- All values are placed, or too many are for the root, or one is refused for another. -/
theorem placeAllValues (i : SlotIndex) (values : List (Path × Atom)) :
    (placeRootValue empty.root values empty.arena = .error .duplicateRootValue ∧
      2 ≤ (values.filter (·.1.isEmpty)).length) ∨
    ∃ g, placeRootValue empty.root values empty.arena = .ok g ∧
      ((∃ h, placeValues empty.root (values.filter (!·.1.isEmpty)) g = .ok h ∧
        Planted i empty.root values h) ∨
      ∃ e earlier p a later, placeValues empty.root (values.filter (!·.1.isEmpty)) g = .error e ∧
        values = earlier ++ (p, a) :: later ∧ Refused values p e ∧
        (e = .valueExists p → ∃ d ∈ earlier, p <+: d.1)) := by
  rcases placeRootValue_planted i values with ⟨g, hrun, hg⟩ | hdup
  · refine .inr ⟨g, hrun, ?_⟩
    have hrest : ∀ d ∈ values.filter (!·.1.isEmpty), d.1 ≠ [] := fun d hd => by
      simpa using (List.mem_filter.1 hd).2
    rcases placeValues_planted hg hrest with ⟨h, hrun', hh⟩ | ⟨e, ls, p, a, rs, herr, hsplit, href⟩
    · refine .inl ⟨h, hrun', hh.congr fun d => ?_⟩
      by_cases hd : d.1 = [] <;> simp [hd]
    · obtain ⟨l, r, rfl, hl, hr⟩ := List.filter_eq_append_iff.1 hsplit
      obtain ⟨r₁, later, rfl, -, -, -⟩ := List.filter_eq_cons_iff.1 hr
      have hp : p ≠ [] := hrest (p, a) (by simp [hsplit])
      refine .inr ⟨e, l ++ r₁, p, a, later, herr, by simp, ?_, ?_⟩
      · refine href.mono fun d hd => ?_
        rcases List.mem_append.1 hd with hd | hd
        · exact List.mem_append_left _ (List.mem_filter.1 (hl ▸ List.mem_reverse.1 hd)).1
        · exact (List.mem_filter.1 hd).1
      · rintro rfl
        cases href with
        | taken hd hpre =>
          rcases List.mem_append.1 hd with hd | hd
          · rw [List.mem_reverse, ← hl] at hd
            exact ⟨_, List.mem_append_left _ (List.mem_filter.1 hd).1, hpre⟩
          · -- a value at the root is no further down
            rw [List.isEmpty_iff.1 (List.mem_filter.1 hd).2] at hpre
            exact absurd (List.prefix_nil.1 hpre) hp
  · exact .inl hdup

/-! ## Equivalences -/

section Equivalences
variable (hF : F.Closed) (hA : F.Acyclic)
include hF hA

/-- Two paths that are one in `F` are made one, unless this shows `F` to clash or neither is there. -/
theorem placeEquivalence_cases (hg : g.WellFormed) (hroot : root < g.size)
    (hle : g.facts (startAt i root) ≤ F) (hs : F.same ⟨i, p⟩ ⟨i, q⟩) :
    (∃ h, placeEquivalence root p q g = .ok h ∧ Extends (startAt i root) F g h ∧
      (h.facts (startAt i root)).same ⟨i, p⟩ ⟨i, q⟩) ∨
    (∃ e, placeEquivalence root p q g = .error e ∧
      (e = .atomicNode ∨ e = .inconsistentEquivalence p q) ∧ ¬ F.Consistent) ∨
    placeEquivalence root p q g = .error (.unresolvedEquivalence p q) ∧
      g.lookup root p = .missing ∧ g.lookup root q = .missing := by
  have hlt := WellFormed.roots_lt (s := ⟨g, root⟩) ⟨hg, hroot⟩ i
  have hstart : startAt i root i = some root := startAt_eq_some.2 ⟨rfl, rfl⟩
  have hblocked : ∀ {p}, g.lookup root p = .blocked → F.Has ⟨i, p⟩ → ¬ F.Consistent := by
    intro p hl hhas hc
    obtain ⟨u, f, r, a, he, ha⟩ :=
      exists_value_of_blocked (t := ⟨i, p⟩) hg.settled hstart hl
    exact hc.not_has_of_value_above hF (hle.2 u a ha) (he ▸ hhas)
  have hleads : ∀ {p n}, g.lookup root p = .found n →
      n < g.size ∧ g.Leads (startAt i root) ⟨i, p⟩ (g.resolve n) := by
    intro p n hl
    have hn : g.Leads (startAt i root) ⟨i, p⟩ n := (leads_iff hstart).2 hl
    exact ⟨hn.lt hg hlt, (hn.resolve hg.settled).symm ▸ hn⟩
  unfold placeEquivalence
  cases hp : g.lookup root p with
  | blocked => exact .inr (.inl ⟨_, rfl, .inl rfl, hblocked hp (hF.has_left hs)⟩)
  | found l =>
    obtain ⟨hllt, hl⟩ := hleads hp
    cases hq : g.lookup root q with
    | blocked => exact .inr (.inl ⟨_, rfl, .inl rfl, hblocked hq (hF.has_right hs)⟩)
    | found r =>
      obtain ⟨hrlt, hr⟩ := hleads hq
      obtain ⟨hok, hcons⟩ := unify_facts hg hlt hF hle hA hllt hrlt hl hr hs
      rcases hunify : g.unify l r with ⟨_ | _, h⟩
      · rw [hunify] at hcons
        exact .inr (.inl ⟨_, by simp [hunify], .inr rfl, fun hc => Bool.noConfusion (hcons hc)⟩)
      · rw [hunify] at hok
        exact .inl ⟨h, by simp [hunify], hok rfl⟩
    | missing =>
      obtain ⟨h, hrun, hext, hsame⟩ :=
        linkPath_facts (t := ⟨i, q⟩) hg hlt hF hle hstart hq hllt hl hs
      exact .inl ⟨h, by simp [hrun], hext, hsame⟩
  | missing =>
    cases hq : g.lookup root q with
    | blocked => exact .inr (.inl ⟨_, rfl, .inl rfl, hblocked hq (hF.has_right hs)⟩)
    | found r =>
      obtain ⟨hrlt, hr⟩ := hleads hq
      obtain ⟨h, hrun, hext, hsame⟩ :=
        linkPath_facts (t := ⟨i, p⟩) hg hlt hF hle hstart hp hrlt hr (hF.symm hs)
      exact .inl ⟨h, by simp [hrun], hext, (hext.wellFormed.settled.closed_facts _).symm hsame⟩
    | missing => exact .inr (.inr ⟨rfl, rfl, rfl⟩)

theorem placeEquivalences_cases (hg : g.WellFormed) (hroot : root < g.size)
    (hle : g.facts (startAt i root) ≤ F) (hs : ∀ d ∈ pairs, F.same ⟨i, d.1⟩ ⟨i, d.2⟩) :
    (∃ h, placeEquivalences root pairs g = .ok h ∧ Extends (startAt i root) F g h ∧
      ∀ d ∈ pairs, (h.facts (startAt i root)).same ⟨i, d.1⟩ ⟨i, d.2⟩) ∨
    (∃ e, placeEquivalences root pairs g = .error e ∧
      (e = .atomicNode ∨ ∃ d ∈ pairs, e = .inconsistentEquivalence d.1 d.2) ∧
      ¬ F.Consistent) ∨
    ∃ earlier p q later h, pairs = earlier ++ (p, q) :: later ∧
      placeEquivalences root pairs g = .error (.unresolvedEquivalence p q) ∧
      placeEquivalences root earlier g = .ok h ∧ Extends (startAt i root) F g h ∧
      h.lookup root p = .missing ∧ h.lookup root q = .missing := by
  induction pairs generalizing g with
  | nil =>
    have hrefl : Extends (startAt i root) F g g :=
      ⟨hg, (SameView.refl hg.settled).grows hg.settled, hle⟩
    exact .inl ⟨g, rfl, hrefl, by simp⟩
  | cons d pairs ih =>
    obtain ⟨p, q⟩ := d
    obtain ⟨hpq, hs⟩ := List.forall_mem_cons.1 hs
    rcases placeEquivalence_cases hF hA hg hroot hle hpq with
      ⟨g₁, hrun, hext, hsame⟩ | ⟨e, hrun, he, hclash⟩ | ⟨hrun, hp, hq⟩
    · have hroot₁ := Nat.lt_of_lt_of_le hroot hext.grows.size_le
      simp only [placeEquivalences, hrun]
      rcases ih hext.wellFormed hroot₁ hext.le hs with ⟨h, hrun', hext', hall⟩ |
        ⟨e, hrun', he, hclash⟩ | ⟨earlier, p', q', later, h, rfl, hrun', hok, hext', hmiss⟩
      · refine .inl ⟨h, hrun', hext.trans hext', List.forall_mem_cons.2 ⟨?_, hall⟩⟩
        exact hext'.facts_le.1 _ _ hsame
      · refine .inr (.inl ⟨e, hrun', he.imp id ?_, hclash⟩)
        exact fun ⟨d, hd, he⟩ => ⟨d, List.mem_cons_of_mem _ hd, he⟩
      · refine .inr (.inr ⟨(p, q) :: earlier, p', q', later, h, rfl, hrun', ?_,
          hext.trans hext', hmiss⟩)
        simp only [placeEquivalences, hrun, hok]
    · simp only [placeEquivalences, hrun]
      exact .inr (.inl ⟨e, rfl, he.imp id fun he => ⟨_, List.mem_cons_self, he⟩, hclash⟩)
    · have hrefl : Extends (startAt i root) F g g :=
        ⟨hg, (SameView.refl hg.settled).grows hg.settled, hle⟩
      exact .inr (.inr ⟨[], p, q, pairs, g, rfl, by simp only [placeEquivalences, hrun], rfl,
        hrefl, hp, hq⟩)

end Equivalences

end Description

end FeatureLogic
