import FeatureLogic.Proofs.Arena.Copying
import FeatureLogic.Proofs.Arena.Unification
import FeatureLogic.Proofs.Facts
/-!
The facts of an arena, read from the nodes where the slots start. Closed facts make an algebra, and
an arena has no other facts than these exactly if its nodes stand for points of that algebra.
-/
set_option autoImplicit false

namespace FeatureLogic

namespace Facts

variable {F : Facts} {t u : PathTerm} {p : Path} {f : Feature}

theorem same_of_eq (hu : F.Has u) (h : F.same t = F.same u) :
    F.same t u := by
  rw [h]
  exact hu

theorem Closed.eq_of_same (hF : F.Closed) (h : F.same t u) : F.same t = F.same u := by
  funext v
  exact propext ⟨fun hv => hF.trans (hF.symm h) hv, fun hv => hF.trans h hv⟩

/-- A point is the set of all paths that lead to it. -/
def algebra (F : Facts) (hF : F.Closed) : FeatureAlgebra where
  Point := PathTerm → Prop
  edge x f y := ∃ t, F.Has (t.below [f]) ∧ x = F.same t ∧ y = F.same (t.below [f])
  label x a := ∃ t, x = F.same t ∧ F.value t a
  edge_unique := by
    rintro x y z f ⟨t, ht, rfl, rfl⟩ ⟨u, hu, he, rfl⟩
    exact hF.eq_of_same (hF.congr (same_of_eq (hF.up hu) he) ht)

variable (hF : F.Closed)

theorem walk_algebra (h : F.Has (t.below p)) :
    (F.algebra hF).Walk (F.same t) p (F.same (t.below p)) := by
  induction p generalizing t with
  | nil =>
    rw [PathTerm.below_nil]
    exact rfl
  | cons f p ih =>
    have hp : F.Has ((t.below [f]).below p) := by simpa using h
    exact ⟨F.same (t.below [f]), ⟨t, hF.up hp, rfl, rfl⟩, by simpa using ih hp⟩

theorem eq_of_walk_algebra (ht : F.Has t) {y : PathTerm → Prop}
    (h : (F.algebra hF).Walk (F.same t) p y) : F.Has (t.below p) ∧ y = F.same (t.below p) := by
  induction p generalizing t with
  | nil =>
    rw [PathTerm.below_nil]
    exact ⟨ht, Eq.symm h⟩
  | cons f p ih =>
    obtain ⟨z, ⟨u, hu, he, rfl⟩, hw⟩ := h
    have hut : F.same (u.below [f]) (t.below [f]) :=
      hF.congr (hF.symm (same_of_eq (hF.up hu) he)) hu
    rw [hF.eq_of_same hut] at hw
    simpa using ih (hF.has_right hut) hw

theorem Acyclic.algebra (hA : F.Acyclic) : (F.algebra hF).Acyclic := by
  have key : ∀ x y, Relation.TransGen (F.algebra hF).Step x y →
      ∃ t p, p ≠ [] ∧ F.Has (t.below p) ∧ x = F.same t ∧ y = F.same (t.below p) := by
    intro x y h
    induction h with
    | single h =>
      obtain ⟨f, t, ht, rfl, rfl⟩ := h
      exact ⟨t, [f], by simp, ht, rfl, rfl⟩
    | tail _ h ih =>
      obtain ⟨t, p, -, ht, rfl, rfl⟩ := ih
      obtain ⟨f, u, hu, he, rfl⟩ := h
      have hut := hF.congr (hF.symm (same_of_eq (hF.up hu) he)) hu
      rw [PathTerm.below_below] at hut
      exact ⟨t, p ++ [f], by simp, hF.has_right hut, rfl, hF.eq_of_same hut⟩
  intro x hx
  obtain ⟨t, p, hp, ht, rfl, he⟩ := key x x hx
  exact hp (hA t p (same_of_eq ht he))

theorem Consistent.algebra (hc : F.Consistent) : (F.algebra hF).Consistent where
  label_unique := by
    rintro x a b ⟨t, rfl, ha⟩ ⟨u, he, hb⟩
    have hs := same_of_eq (hF.has_of_value hb) he
    exact hc.value_unique (hF.value_congr hs ha) hb
  no_edge := by
    rintro x y a f ⟨t, rfl, ha⟩ ⟨u, hu, he, -⟩
    have hs := same_of_eq (hF.up hu) he
    exact hc.not_has_below (hF.value_congr hs ha) hu

end Facts

namespace Arena

/-- Where the structure of each slot starts. -/
abbrev Roots := SlotIndex → Option NodeId

def Leads (g : Arena) (roots : Roots) (t : PathTerm) (n : NodeId) : Prop :=
  ∃ root, roots t.slot = some root ∧ g.lookup root t.path = .found n

def facts (g : Arena) (roots : Roots) : Facts where
  same t u := ∃ n, g.Leads roots t n ∧ g.Leads roots u n
  value t a := ∃ n, g.Leads roots t n ∧ g.content n = .atom a

variable {g h : Arena} {roots : Roots} {t u : PathTerm} {n m r : NodeId} {p : Path} {F : Facts}

theorem Leads.unique (hn : g.Leads roots t n) (hm : g.Leads roots t m) : n = m := by
  obtain ⟨r, hr, hn⟩ := hn
  obtain ⟨r', hr', hm⟩ := hm
  cases hr.symm.trans hr'
  cases hn.symm.trans hm
  rfl

theorem Leads.below (hg : g.Settled) (hn : g.Leads roots t n) :
    g.Leads roots (t.below p) m ↔ g.lookup n p = .found m := by
  obtain ⟨r, hr, hl⟩ := hn
  have happ : g.lookup r (t.path ++ p) = g.lookup n p := hg.lookup_append hl p
  constructor
  · rintro ⟨r', hr', hm⟩
    cases hr.symm.trans hr'
    rw [← happ]
    exact hm
  · intro hm
    exact ⟨r, hr, happ.trans hm⟩

theorem has_facts : (g.facts roots).Has t ↔ ∃ n, g.Leads roots t n := by
  simp [Facts.Has, facts]

theorem Leads.has (hn : g.Leads roots t n) : (g.facts roots).Has t := ⟨n, hn, hn⟩

theorem Leads.resolve (hg : g.Settled) (hn : g.Leads roots t n) : g.resolve n = n := by
  obtain ⟨r, -, hl⟩ := hn
  exact hg.resolve_of_lookup hl

theorem Leads.lt (hg : g.WellFormed) (hlt : ∀ i r, roots i = some r → r < g.size)
    (hn : g.Leads roots t n) : n < g.size := by
  obtain ⟨r, hr, hl⟩ := hn
  exact hg.lookup_lt (hlt _ r hr) hl

theorem Leads.up (hg : g.Settled) (hn : g.Leads roots (t.below p) n) :
    ∃ m, g.Leads roots t m ∧ g.lookup m p = .found n := by
  obtain ⟨r, hr, hl⟩ := hn
  obtain ⟨m, hm⟩ := lookup_prefix hl
  have hm' : g.Leads roots t m := ⟨r, hr, hm⟩
  exact ⟨m, hm', (hm'.below hg).1 ⟨r, hr, hl⟩⟩

theorem Leads.has_child (hg : g.Settled) (hn : g.Leads roots t n) {f : Feature} :
    (g.facts roots).Has (t.below [f]) ↔ ∃ c, g.child? n f = some c := by
  rw [has_facts]
  constructor
  · rintro ⟨m, hm⟩
    obtain ⟨c, hc, -⟩ := lookup_cons_eq_found.1 ((hn.below hg).1 hm)
    exact ⟨c, hc⟩
  · rintro ⟨c, hc⟩
    exact ⟨_, (hn.below hg).2 (lookup_cons_eq_found.2 ⟨c, hc, rfl⟩)⟩

theorem Leads.value_iff (hn : g.Leads roots t n) {a : Atom} :
    (g.facts roots).value t a ↔ g.content n = .atom a := by
  constructor
  · rintro ⟨m, hm, ha⟩
    cases hn.unique hm
    exact ha
  · exact fun ha => ⟨n, hn, ha⟩

theorem Settled.closed_facts (hg : g.Settled) (roots : Roots) : (g.facts roots).Closed where
  symm := by
    rintro t u ⟨n, ht, hu⟩
    exact ⟨n, hu, ht⟩
  trans := by
    rintro t u v ⟨n, ht, hu⟩ ⟨m, hu', hv⟩
    cases hu.unique hu'
    exact ⟨n, ht, hv⟩
  up := by
    rintro t q ⟨n, hn, -⟩
    obtain ⟨m, hm, -⟩ := hn.up hg
    exact hm.has
  congr := by
    rintro t u q ⟨n, ht, hu⟩ ⟨m, hm, -⟩
    exact ⟨m, hm, (hu.below hg).2 ((ht.below hg).1 hm)⟩
  has_of_value := by
    rintro t a ⟨n, hn, -⟩
    exact hn.has
  value_congr := by
    rintro t u a ⟨n, ht, hu⟩ ⟨m, hm, ha⟩
    cases ht.unique hm
    exact ⟨n, hu, ha⟩

theorem Settled.consistent_facts (hg : g.Settled) (roots : Roots) :
    (g.facts roots).Consistent where
  value_unique := by
    rintro t a b ⟨n, hn, ha⟩ hb
    rw [hn.value_iff, ha] at hb
    cases hb
    rfl
  not_has_below := by
    rintro t a f ⟨n, hn, ha⟩ hf
    obtain ⟨c, hc⟩ := (hn.has_child hg).1 hf
    exact not_atom_of_child hc ha

theorem Leads.grows (hh : h.Settled) (hgh : g.Grows h) (hn : g.Leads roots t n) :
    h.Leads roots t (h.resolve n) := by
  obtain ⟨r, hr, hl⟩ := hn
  exact ⟨r, hr, hgh.lookup hh hl⟩

theorem facts_mono (hh : h.Settled) (hgh : g.Grows h) (roots : Roots) :
    g.facts roots ≤ h.facts roots := by
  refine ⟨?_, ?_⟩
  · rintro t u ⟨n, ht, hu⟩
    exact ⟨_, ht.grows hh hgh, hu.grows hh hgh⟩
  · rintro t a ⟨n, ht, ha⟩
    exact ⟨_, ht.grows hh hgh, by rw [hh.content_resolve, hgh.atom ha]⟩

theorem facts_congr {roots' : Roots} (h : ∀ i, roots i = roots' i) :
    g.facts roots = g.facts roots' := by
  rw [funext h]

/-- Slots that start at one node have the same facts. -/
theorem Settled.facts_le_of_resolve (hg : g.Settled) {roots' : Roots}
    (h : ∀ i r, roots i = some r → ∃ r', roots' i = some r' ∧ g.resolve r = g.resolve r') :
    g.facts roots ≤ g.facts roots' := by
  have hleads : ∀ {t n}, g.Leads roots t n → g.Leads roots' t n := by
    rintro t n ⟨r, hr, hl⟩
    obtain ⟨r', hr', he⟩ := h _ r hr
    exact ⟨r', hr', by rw [← hg.lookup_congr he, hl]⟩
  refine ⟨?_, ?_⟩
  · rintro t u ⟨n, ht, hu⟩
    exact ⟨n, hleads ht, hleads hu⟩
  · rintro t a ⟨n, ht, ha⟩
    exact ⟨n, hleads ht, ha⟩

/-- Where a slot starts that has no path back, the arena is grounded. -/
theorem WellFormed.grounded (hg : g.WellFormed) (hA : (g.facts roots).Acyclic) {i : SlotIndex}
    (hr : roots i = some r) (hlt : r < g.size) : g.Grounded r := by
  refine (Sound.of_wellFormed hg).grounded hlt fun p q m hp hq => hA ⟨i, p⟩ q ?_
  have hm : g.Leads roots ⟨i, p⟩ m := ⟨r, hr, hp⟩
  exact ⟨m, hm, (hm.below hg.settled).2 hq⟩

/-- Each node stands for the paths that lead to it, in closed facts that hold those of the
arena. -/
theorem Bounded.denotes_facts (hg : g.Bounded) (hF : F.Closed)
    (hle : g.facts roots ≤ F) :
    g.Denotes (F.algebra hF) fun n x =>
      n < g.size ∧ ∃ t, g.Leads roots t (g.resolve n) ∧ x = F.same t := by
  have hs := hg.settled
  refine ⟨And.left, ?_, ?_, ?_, ?_⟩
  · rintro n x y ⟨-, t, ht, rfl⟩ ⟨-, u, hu, rfl⟩
    exact hF.eq_of_same (hle.1 t u ⟨_, ht, hu⟩)
  · rintro n x ⟨hn, t, ht, rfl⟩
    exact ⟨hs.resolve_lt hn, t, by rwa [hs.resolve_resolve], rfl⟩
  · rintro n c x f ⟨hn, t, ht, rfl⟩ hc
    have hc' : g.child? (g.resolve n) f = some c := by
      rw [hs.child?_congr (hs.resolve_resolve n), hc]
    have hleads : g.Leads roots (t.below [f]) (g.resolve c) := by
      rw [ht.below hs, lookup_cons_of_child hc', lookup]
    exact ⟨F.same (t.below [f]), ⟨t, hle.1 _ _ hleads.has, rfl, rfl⟩, hg.child_lt hc, _,
      hleads, rfl⟩
  · rintro n x a ⟨hn, t, ht, rfl⟩ ha
    exact ⟨t, rfl, hle.2 t a ⟨_, ht, by rw [hs.content_resolve, ha]⟩⟩

theorem WellFormed.denotes_facts (hg : g.WellFormed) (hF : F.Closed)
    (hle : g.facts roots ≤ F) :
    g.Denotes (F.algebra hF) fun n x =>
      n < g.size ∧ ∃ t, g.Leads roots t (g.resolve n) ∧ x = F.same t :=
  hg.bounded.denotes_facts hF hle

theorem root_denotes (hlt : ∀ i r, roots i = some r → r < g.size) (hle : g.facts roots ≤ F)
    (i : SlotIndex) (r : NodeId) (hr : roots i = some r) : F.Has ⟨i, []⟩ ∧
      r < g.size ∧ ∃ t, g.Leads roots t (g.resolve r) ∧ F.same ⟨i, []⟩ = F.same t := by
  have hn : g.Leads roots ⟨i, []⟩ (g.resolve r) := ⟨r, hr, rfl⟩
  exact ⟨hle.1 _ _ hn.has, hlt i r hr, _, hn, rfl⟩

theorem Denotes.facts_le {hF : F.Closed} {den : NodeId → (PathTerm → Prop) → Prop}
    (hd : g.Denotes (F.algebra hF) den)
    (hroots : ∀ i r, roots i = some r → F.Has ⟨i, []⟩ ∧ den r (F.same ⟨i, []⟩)) :
    g.facts roots ≤ F := by
  have hleads : ∀ {t n}, g.Leads roots t n → F.Has t ∧ den n (F.same t) := by
    rintro ⟨i, p⟩ n ⟨r, hr, hl⟩
    obtain ⟨hi, hden⟩ := hroots i r hr
    obtain ⟨y, hw, hy⟩ := hd.walk hden hl
    obtain ⟨hp, rfl⟩ := Facts.eq_of_walk_algebra hF hi hw
    simp only [PathTerm.below, List.nil_append] at hp hy
    exact ⟨hp, hy⟩
  refine ⟨?_, ?_⟩
  · rintro t u ⟨n, ht, hu⟩
    exact Facts.same_of_eq (hleads hu).1 (hd.unique (hleads ht).2 (hleads hu).2)
  · rintro t a ⟨n, ht, ha⟩
    obtain ⟨u, he, ha⟩ := hd.atom (hleads ht).2 ha
    exact hF.value_congr (hF.symm (Facts.same_of_eq (hF.has_of_value ha) he)) ha

end Arena

namespace Copying.Mirrors

variable {source base : Arena} {met : Selection → NodeId → Prop} {c : Copying}
  {roots roots' : Arena.Roots} {t : PathTerm} {n w : NodeId}
  (hc : Mirrors source base met c) (hs : source.Settled)
  (h : ∀ i, Option.Rel (fun r r' => c.copies.get? (source.resolve r) = some r') (roots i)
    (roots' i))
include hc hs h

theorem leads_of_copy (hw : c.target.Leads roots' t w) :
    ∃ n, source.Leads roots t n ∧ c.copies.get? n = some w := by
  obtain ⟨r', hr', hl⟩ := hw
  obtain ⟨r, hr, hget⟩ := exists_of_rel_some (hr' ▸ h t.slot)
  obtain ⟨n, hn, hnw⟩ := hc.of_lookup hs hget hl
  rw [hs.lookup_congr (hs.resolve_resolve r)] at hn
  exact ⟨n, ⟨r, hr, hn⟩, hnw⟩

variable (hall : ∀ s k, met s k → s = .everything)
include hall

theorem leads_copy (hn : source.Leads roots t n) :
    ∃ w, c.target.Leads roots' t w ∧ c.copies.get? n = some w := by
  obtain ⟨r, hr, hl⟩ := hn
  obtain ⟨r', hr', hget⟩ := exists_of_rel (hr ▸ h t.slot)
  rw [← hs.lookup_congr (hs.resolve_resolve r)] at hl
  obtain ⟨w, hw, hnw⟩ := hc.exists_lookup hs hall hget hl
  exact ⟨w, ⟨r', hr', hw⟩, hnw⟩

/-- Copies have the facts of what they are copies of. -/
theorem facts_eq : c.target.facts roots' = source.facts roots := by
  have hatom : ∀ {k v} a, c.copies.get? k = some v →
      (c.target.content v = .atom a ↔ source.content k = .atom a) := by
    intro k v a hk
    obtain ⟨-, -, s, -, hcon⟩ := hc.isCopy hk
    exact hcon.atom a
  ext t u
  · constructor
    · rintro ⟨w, ht, hu⟩
      obtain ⟨n, ht, hn⟩ := hc.leads_of_copy hs h ht
      obtain ⟨m, hu, hm⟩ := hc.leads_of_copy hs h hu
      cases hc.injective hn hm
      exact ⟨n, ht, hu⟩
    · rintro ⟨n, ht, hu⟩
      obtain ⟨w, ht, hw⟩ := hc.leads_copy hs h hall ht
      obtain ⟨w', hu, hw'⟩ := hc.leads_copy hs h hall hu
      cases hw.symm.trans hw'
      exact ⟨w, ht, hu⟩
  · constructor
    · rintro ⟨w, ht, ha⟩
      obtain ⟨n, ht, hn⟩ := hc.leads_of_copy hs h ht
      exact ⟨n, ht, (hatom _ hn).1 ha⟩
    · rintro ⟨n, ht, ha⟩
      obtain ⟨w, ht, hw⟩ := hc.leads_copy hs h hall ht
      exact ⟨w, ht, (hatom _ hw).2 ha⟩

end Copying.Mirrors

end FeatureLogic
