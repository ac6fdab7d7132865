import FeatureLogic.Proofs.Arena.Creation
import FeatureLogic.Proofs.Arena.Facts
/-!
Making facts true. A value can be put where there is none, and two paths can be made to lead to one
node; the arena then has the facts it had and what these force, as long as nothing clashes.
-/
set_option autoImplicit false

namespace FeatureLogic.Arena

variable {g h k : Arena} {roots : Roots} {F : Facts} {t u : PathTerm} {m n r l : NodeId} {a : Atom}
  {ok : Atom → Prop}

theorem leads_iff (hr : roots t.slot = some r) :
    g.Leads roots t n ↔ g.lookup r t.path = .found n := by
  constructor
  · rintro ⟨r', hr', hl⟩
    cases hr.symm.trans hr'
    exact hl
  · exact fun hl => ⟨r, hr, hl⟩

theorem not_has_of_missing (hr : roots t.slot = some r) (hl : g.lookup r t.path = .missing) :
    ¬ (g.facts roots).Has t := by
  rw [has_facts]
  rintro ⟨n, hn⟩
  rw [leads_iff hr, hl] at hn
  cases hn

theorem exists_value_of_blocked (hg : g.Settled) (hr : roots t.slot = some r)
    (hl : g.lookup r t.path = .blocked) :
    ∃ u f q a, t = PathTerm.below u (f :: q) ∧ (g.facts roots).value u a := by
  obtain ⟨q, f, q', m, a, he, hm, ha⟩ := hg.lookup_eq_blocked hl
  refine ⟨⟨t.slot, q⟩, f, q', a, ?_, m, ⟨r, hr, hm⟩, ha⟩
  rw [PathTerm.below, ← he]

theorem not_admits_of_blocked (hg : g.Settled) (hr : roots t.slot = some r)
    (hl : g.lookup r t.path = .blocked) : ¬ (g.facts roots).Admits t ok := by
  obtain ⟨u, f, q, a, he, ha⟩ := exists_value_of_blocked hg hr hl
  exact fun h => h.not_value_above he ha

theorem admits_of_missing (hg : g.Settled) (hr : roots t.slot = some r)
    (hl : g.lookup r t.path = .missing) : (g.facts roots).Admits t ok where
  value ha := absurd ((hg.closed_facts roots).has_of_value ha) (not_has_of_missing hr hl)
  not_has_below _ hf := not_has_of_missing hr hl ((hg.closed_facts roots).up hf)
  not_value_above := by
    rintro u f q a rfl ⟨m, ⟨r', hr', hm⟩, ha⟩
    cases hr.symm.trans hr'
    have hblocked : g.lookup r (u.path ++ f :: q) = .blocked := by
      rw [hg.lookup_append hm, lookup_of_atom ha]
    cases hl.symm.trans hblocked

theorem Leads.emptyAt_iff (hg : g.WellFormed) (hn : g.Leads roots t n) :
    (g.facts roots).EmptyAt t ↔ g.content n = .empty := by
  constructor
  · intro h
    cases hc : g.content n with
    | empty => rfl
    | atom a => exact absurd (hn.value_iff.2 hc) (h.not_value a)
    | complex children =>
      obtain ⟨f, hf⟩ := hg.child_of_complex hc
      exact absurd ((hn.has_child hg.settled).2 hf) (h.not_has_below f)
  · intro hc
    refine ⟨hn.has, fun a ha => ?_, fun f hf => ?_⟩
    · rw [hn.value_iff, hc] at ha
      cases ha
    · obtain ⟨c, hc'⟩ := (hn.has_child hg.settled).1 hf
      rw [child?_eq, hc] at hc'
      cases hc'

theorem Leads.admits_iff (hg : g.WellFormed) (hn : g.Leads roots t n) :
    (g.facts roots).Admits t ok ↔
      g.content n = .empty ∨ ∃ a, g.content n = .atom a ∧ ok a := by
  have hF := hg.settled.closed_facts roots
  have hc := hg.settled.consistent_facts roots
  constructor
  · intro h
    cases hcon : g.content n with
    | empty => exact .inl rfl
    | atom a => exact .inr ⟨a, rfl, h.value (hn.value_iff.2 hcon)⟩
    | complex children =>
      obtain ⟨f, hf⟩ := hg.child_of_complex hcon
      exact absurd ((hn.has_child hg.settled).2 hf) (h.not_has_below f)
  · rintro (hcon | ⟨a, hcon, hok⟩)
    · have he := (hn.emptyAt_iff hg).2 hcon
      refine ⟨fun ha => absurd ha (he.not_value _), he.not_has_below, ?_⟩
      rintro u f q a rfl ha
      exact hc.not_has_of_value_above hF ha hn.has
    · have h := hc.admits hF (hn.value_iff.2 hcon)
      exact ⟨fun ha => h.value ha ▸ hok, h.not_has_below, h.not_value_above⟩

/-! ## Making facts true -/

/-- The nodes that slots start from go on standing for what they stood for. -/
theorem facts_le_of_denotes {hF : F.Closed} {den : NodeId → (PathTerm → Prop) → Prop}
    (hlt : ∀ i r, roots i = some r → r < g.size) (hle : g.facts roots ≤ F)
    (hd : h.Denotes (F.algebra hF) den)
    (hsub : ∀ n x, (n < g.size ∧ ∃ t, g.Leads roots t (g.resolve n) ∧ x = F.same t) → den n x) :
    h.facts roots ≤ F := by
  refine hd.facts_le fun i r hr => ?_
  obtain ⟨hi, hden⟩ := root_denotes hlt hle i r hr
  exact ⟨hi, hsub _ _ hden⟩

/-- A slot that starts at `r` can be given the path `t` with an atom at its end. -/
theorem Bounded.createValue_facts (hg : g.Bounded)
    (hlt : ∀ i r, roots i = some r → r < g.size) (hF : F.Closed) (hle : g.facts roots ≤ F)
    (hr : roots t.slot = some r) (hl : g.lookup r t.path = .missing)
    (ht : F.Has t) (ha : a ≠ .null → F.value t a) :
    ∃ h, g.createValue r t.path a = (.ok g.size, h) ∧ (g.WellFormed → h.WellFormed) ∧
      h.Bounded ∧ g.Grows h ∧ h.facts roots ≤ F ∧ h.Leads roots t g.size ∧
      h.content g.size = .leaf a := by
  obtain ⟨h, hrun, hb, hwf, hgrow, hfound, hleaf, hden⟩ := createValue_spec hg (hlt _ r hr) a hl
  obtain ⟨den, hsub, hd⟩ := hden (hg.denotes_facts hF hle) (root_denotes hlt hle _ r hr).2
    (Facts.walk_algebra hF (t := ⟨t.slot, []⟩) (p := t.path) ht) fun hne => ⟨_, rfl, ha hne⟩
  exact ⟨h, hrun, hwf, hb, hgrow, facts_le_of_denotes hlt hle hd hsub, ⟨r, hr, hfound⟩, hleaf⟩

theorem Leads.value_of_leaf (hn : g.Leads roots t n) (hleaf : g.content n = .leaf a)
    (ha : a ≠ .null) : (g.facts roots).value t a := by
  rw [hn.value_iff, hleaf, Content.leaf_eq_atom]
  exact ⟨rfl, ha⟩

/-- `h` has the facts of `g` and more, all of them in `F`. -/
structure Extends (roots : Roots) (F : Facts) (g h : Arena) : Prop where
  wellFormed : h.WellFormed
  grows : g.Grows h
  le : h.facts roots ≤ F

namespace Extends

theorem facts_le (he : Extends roots F g h) : g.facts roots ≤ h.facts roots :=
  facts_mono he.wellFormed.settled he.grows roots

theorem roots_lt (he : Extends roots F g h) (hlt : ∀ i r, roots i = some r → r < g.size) :
    ∀ i r, roots i = some r → r < h.size :=
  fun i r hr => Nat.lt_of_lt_of_le (hlt i r hr) he.grows.size_le

theorem trans (hgh : Extends roots F g h) (hhk : Extends roots F h k) : Extends roots F g k :=
  ⟨hhk.wellFormed, hgh.grows.trans hhk.grows, hhk.le⟩

theorem of_denotes {den : NodeId → (PathTerm → Prop) → Prop}
    (hlt : ∀ i r, roots i = some r → r < g.size) (hF : F.Closed) (hle : g.facts roots ≤ F)
    (hh : h.WellFormed)
    (hgh : g.Grows h) (hd : h.Denotes (F.algebra hF) den)
    (hsub : ∀ n x, (n < g.size ∧ ∃ t, g.Leads roots t (g.resolve n) ∧ x = F.same t) → den n x) :
    Extends roots F g h :=
  ⟨hh, hgh, facts_le_of_denotes hlt hle hd hsub⟩

end Extends

section Changes
variable (hg : g.WellFormed) (hlt : ∀ i r, roots i = some r → r < g.size) (hF : F.Closed)
  (hle : g.facts roots ≤ F)
include hg hlt hF hle

theorem createValue_facts (hr : roots t.slot = some r) (hl : g.lookup r t.path = .missing)
    (ht : F.Has t) (ha : a ≠ .null → F.value t a) :
    ∃ n h, g.createValue r t.path a = (.ok n, h) ∧ Extends roots F g h ∧ (h.facts roots).Has t ∧
      (a ≠ .null → (h.facts roots).value t a) := by
  obtain ⟨h, hrun, hwf, -, hgrow, hleF, hleads, hleaf⟩ :=
    hg.bounded.createValue_facts hlt hF hle hr hl ht ha
  exact ⟨g.size, h, hrun, ⟨hwf hg, hgrow, hleF⟩, hleads.has, hleads.value_of_leaf hleaf⟩

/-- A slot can be given a path with a node at its end that another path leads to. -/
theorem linkPath_facts (hr : roots t.slot = some r) (hl : g.lookup r t.path = .missing)
    (hn : n < g.size) (hu : g.Leads roots u (g.resolve n)) (hs : F.same u t) :
    ∃ h, g.linkPath r t.path n = (.ok (), h) ∧ Extends roots F g h ∧
      (h.facts roots).same u t := by
  obtain ⟨h, hrun, -, hwf, hgrow, -, hfound, -, hden⟩ := linkPath_spec hg.bounded (hlt _ r hr) hn hl
  have hh := hwf hg
  have hleads : h.Leads roots t (h.resolve n) := ⟨r, hr, hfound⟩
  obtain ⟨den, hsub, hd⟩ := hden (hg.denotes_facts hF hle) (root_denotes hlt hle _ r hr).2
    (Facts.walk_algebra hF (t := ⟨t.slot, []⟩) (p := t.path) (hF.has_right hs))
    ⟨hn, u, hu, (hF.eq_of_same hs).symm⟩
  have hu' := hu.grows hh.settled hgrow
  rw [hgrow.resolve] at hu'
  exact ⟨h, hrun, .of_denotes hlt hF hle hh hgrow hd hsub, _, hu', hleads⟩

/-- It can be given the path, unless an atom on the way is a clash. -/
theorem materialize_facts (hr : roots t.slot = some r) (ht : F.Has t) :
    (∃ h, g.materialize r t.path = (.error .atomicNode, h) ∧ ¬ F.Consistent) ∨
    ∃ n h, g.materialize r t.path = (.ok n, h) ∧ Extends roots F g h ∧ h.Leads roots t n := by
  rcases materialize_spec hg.bounded (hlt _ r hr) t.path with ⟨h, hrun, hb, -⟩ | ⟨n, h, hrun, hm⟩
  · refine .inl ⟨h, hrun, fun hc => ?_⟩
    obtain ⟨w, f, q, a, rfl, ha⟩ := exists_value_of_blocked hg.settled hr hb
    exact hc.not_has_of_value_above hF (hle.2 _ _ ha) ht
  · obtain ⟨den, hsub, hd, -⟩ := hm.denotes (hg.denotes_facts hF hle)
      (root_denotes hlt hle _ r hr).2
      (Facts.walk_algebra hF (t := ⟨t.slot, []⟩) (p := t.path) ht)
    exact .inr ⟨n, h, hrun, .of_denotes hlt hF hle (hm.wellFormed hg) hm.grows hd hsub,
      r, hr, hm.found⟩

/-- The nodes that two paths lead to can be made one, unless this is a clash. -/
theorem unify_facts (hA : F.Acyclic) (hm : m < g.size) (hn : n < g.size)
    (ht : g.Leads roots t (g.resolve m)) (hu : g.Leads roots u (g.resolve n)) (hs : F.same t u) :
    ((g.unify m n).1 = true →
      Extends roots F g (g.unify m n).2 ∧ ((g.unify m n).2.facts roots).same t u) ∧
      (F.Consistent → (g.unify m n).1 = true) := by
  obtain ⟨hwf, hd, hgrows, -, hsame, hcons⟩ := unify_merges hg (hg.denotes_facts hF hle)
    (hA.algebra hF) ⟨hm, t, ht, rfl⟩ ⟨hn, u, hu, hF.eq_of_same hs⟩
  have hset := hwf.settled
  refine ⟨fun hok => ⟨?_, ?_⟩, fun hc => hcons (hc.algebra hF)⟩
  · exact .of_denotes hlt hF hle hwf hgrows hd fun _ _ => id
  · have ht' := ht.grows hset hgrows
    have hu' := hu.grows hset hgrows
    rw [hgrows.resolve] at ht' hu'
    exact ⟨_, ht', hsame hok ▸ hu'⟩

end Changes

/-- Makes two paths lead to one node, building them as far as they are absent. -/
def equate (g : Arena) (l : NodeId) (p : Path) (r : NodeId) (q : Path) :
    Except StructureError Bool × Arena :=
  match g.materialize l p with
  | (.error e, g) => (.error e, g)
  | (.ok m, g) =>
    match g.materialize r q with
    | (.error e, g) => (.error e, g)
    | (.ok n, g) => ((.ok (g.unify m n).1), (g.unify m n).2)

theorem equate_facts (hg : g.WellFormed) (hlt : ∀ i r, roots i = some r → r < g.size)
    (hl : roots t.slot = some l) (hr : roots u.slot = some r) (hF : F.Closed) (hA : F.Acyclic)
    (hle : g.facts roots ≤ F) (hs : F.same t u) :
    ((g.equate l t.path r u.path).1 = .ok true →
      Extends roots F g (g.equate l t.path r u.path).2 ∧
        ((g.equate l t.path r u.path).2.facts roots).same t u) ∧
      (F.Consistent → (g.equate l t.path r u.path).1 = .ok true) := by
  unfold equate
  rcases materialize_facts hg hlt hF hle hl (hF.has_left hs) with
    ⟨g₁, hrun₁, hclash⟩ | ⟨m, g₁, hrun₁, he₁, hm⟩
  · rw [hrun₁]
    exact ⟨fun h => (by cases h), fun hc => absurd hc hclash⟩
  · rw [hrun₁]
    dsimp only
    rcases materialize_facts he₁.wellFormed (he₁.roots_lt hlt) hF he₁.le hr (hF.has_right hs) with
      ⟨g₂, hrun₂, hclash⟩ | ⟨n, g₂, hrun₂, he₂, hn⟩
    · rw [hrun₂]
      exact ⟨fun h => (by cases h), fun hc => absurd hc hclash⟩
    · rw [hrun₂]
      dsimp only
      have he := he₁.trans he₂
      have hlt₂ := he.roots_lt hlt
      have hm₂ := hm.grows he₂.wellFormed.settled he₂.grows
      have hmlt : m < g₂.size :=
        Nat.lt_of_lt_of_le (hm.lt he₁.wellFormed (he₁.roots_lt hlt)) he₂.grows.size_le
      have hnlt : n < g₂.size := hn.lt he₂.wellFormed hlt₂
      rw [← hn.resolve he₂.wellFormed.settled] at hn
      obtain ⟨hok, hcons⟩ :=
        unify_facts he₂.wellFormed hlt₂ hF he₂.le hA hmlt hnlt hm₂ hn hs
      refine ⟨fun hok' => ?_, fun hc => congrArg Except.ok (hcons hc)⟩
      obtain ⟨he₃, hsame⟩ := hok (Except.ok.inj hok')
      exact ⟨he.trans he₃, hsame⟩

end FeatureLogic.Arena
