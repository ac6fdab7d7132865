import FeatureLogic.Proofs.Arena.Constraining
import FeatureLogic.Proofs.Structure.Merging
/-!
Building structures leaf by leaf and path by path. Each step adds the facts it is asked for and what
these force.
-/
set_option autoImplicit false

namespace FeatureLogic

/-- A leaf at `t`. The null atom gives an empty one. -/
def Facts.leaf (t : PathTerm) (a : Atom) : Facts where
  same u v := u = t ∧ v = t
  value u b := (u = t ∧ b = a) ∧ a ≠ .null

theorem Facts.leaf_le {F : Facts} {t : PathTerm} {a : Atom} :
    Facts.leaf t a ≤ F ↔ F.Has t ∧ (a ≠ .null → F.value t a) := by
  constructor
  · exact fun h => ⟨h.1 _ _ ⟨rfl, rfl⟩, fun hne => h.2 _ _ ⟨⟨rfl, rfl⟩, hne⟩⟩
  · rintro ⟨ht, ha⟩
    refine ⟨?_, ?_⟩
    · rintro _ _ ⟨rfl, rfl⟩
      exact ht
    · rintro _ _ ⟨⟨rfl, rfl⟩, hne⟩
      exact ha hne

/-- A leaf in a slot that is there. -/
theorem Facts.HangsOn.leaf {G : Facts} {t : PathTerm} {a : Atom} (h : G.Has ⟨t.slot, []⟩) :
    (Facts.leaf t a).HangsOn G where
  eq_of_same := by
    rintro _ _ ⟨rfl, rfl⟩
    rfl
  root := by
    rintro _ ⟨rfl, -⟩
    exact h
  root_of_value := by
    rintro _ _ ⟨⟨rfl, -⟩, -⟩
    exact h

theorem Facts.Graded.leaf (t : PathTerm) (a : Atom) : (Facts.leaf t a).Graded := by
  rintro _ _ ⟨rfl, rfl⟩
  rfl

namespace FeatureStructure
open Arena

variable {s t : FeatureStructure} {i : SlotIndex} {p q : Path} {a : Atom}

theorem lookup_eq_missing : s.lookup p = .missing ↔ s.arena.lookup s.root p = .missing := by
  unfold lookup
  cases s.arena.lookup s.root p <;> simp [Lookup.map]

theorem atomic_spec (a : Atom) :
    (atomic a).WellFormed ∧ ∀ i, (atomic a).factsAt i = Facts.leaf ⟨i, []⟩ a := by
  have hg : (Arena.empty.alloc (.leaf a)).2.WellFormed := WellFormed.empty.alloc_leaf a
  have hwf : (atomic a).WellFormed := ⟨hg, Nat.zero_lt_one⟩
  have hcon : (atomic a).arena.content (atomic a).root = .leaf a :=
    (content_alloc WellFormed.empty.settled (.leaf a) 0).trans (if_pos rfl)
  refine ⟨hwf, fun i => ?_⟩
  have hF := hwf.closed_factsAt i
  have hnil : ∀ {u}, ((atomic a).factsAt i).Has u → u = ⟨i, []⟩ := by
    rintro ⟨j, p⟩ hu
    obtain rfl : j = i := slot_of_has hu
    obtain ⟨n, hn, -⟩ := hu
    cases p with
    | nil => rfl
    | cons f p =>
      obtain ⟨r, hr, hl⟩ := hn
      obtain ⟨-, rfl⟩ := startAt_eq_some.1 hr
      obtain ⟨c, hc, -⟩ := lookup_cons_eq_found.1 hl
      rw [child?_eq, hcon, Content.child?_leaf] at hc
      cases hc
  have hroot := (atomic a).leads_root i
  have hvalue : ∀ b, ((atomic a).factsAt i).value ⟨i, []⟩ b ↔ b = a ∧ a ≠ .null := by
    intro b
    rw [factsAt, hroot.value_iff, hwf.arena.settled.content_resolve, hcon, Content.leaf_eq_atom]
  apply le_antisymm
  · refine ⟨fun u v h => ⟨hnil (hF.has_left h), hnil (hF.has_right h)⟩, fun u b h => ?_⟩
    obtain rfl := hnil (hF.has_of_value h)
    obtain ⟨hb, hne⟩ := (hvalue b).1 h
    exact ⟨⟨rfl, hb⟩, hne⟩
  · exact Facts.leaf_le.2 ⟨has_root _ i, fun hne => (hvalue a).2 ⟨rfl, hne⟩⟩

theorem empty_spec : empty.WellFormed ∧ ∀ i, empty.factsAt i = Facts.leaf ⟨i, []⟩ .null :=
  atomic_spec .null

theorem WellFormed.roots_lt (hs : s.WellFormed) (i : SlotIndex) :
    ∀ j r, startAt i s.root j = some r → r < s.arena.size := by
  intro j r hr
  rw [← (startAt_eq_some.1 hr).2]
  exact hs.root_lt

/-- A leaf at a path that is absent. -/
theorem createValue_spec (hs : s.WellFormed) (hl : s.lookup p = .missing) (a : Atom) :
    ∃ t, s.createValue p a = (.ok (), t) ∧ t.WellFormed ∧
      ∀ i, t.factsAt i = (s.factsAt i ⊔ Facts.leaf ⟨i, p⟩ a).closure := by
  have hcreate : ∀ i, ∃ n h, s.arena.createValue s.root p a = (.ok n, h) ∧ h.WellFormed ∧
      s.arena.Grows h ∧
      h.facts (startAt i s.root) = (s.factsAt i ⊔ Facts.leaf ⟨i, p⟩ a).closure := by
    intro i
    have hle := Facts.le_closure (s.factsAt i ⊔ Facts.leaf ⟨i, p⟩ a)
    obtain ⟨ht, ha⟩ := Facts.leaf_le.1 (le_sup_right.trans hle)
    obtain ⟨n, h, hrun, he, ht', ha'⟩ := createValue_facts (t := ⟨i, p⟩) hs.arena (hs.roots_lt i)
      (Facts.closed_closure _) (le_sup_left.trans hle) (startAt_eq_some.2 ⟨rfl, rfl⟩)
      (lookup_eq_missing.1 hl) ht ha
    refine ⟨n, h, hrun, he.wellFormed, he.grows, le_antisymm he.le ?_⟩
    exact Facts.closure_le (he.wellFormed.settled.closed_facts _)
      (sup_le he.facts_le (Facts.leaf_le.2 ⟨ht', ha'⟩))
  obtain ⟨n, h, hrun, hh, hgrow, -⟩ := hcreate 0
  refine ⟨⟨h, s.root⟩, ?_, ⟨hh, Nat.lt_of_lt_of_le hs.root_lt hgrow.size_le⟩, fun i => ?_⟩
  · rw [createValue, hrun]
    rfl
  · obtain ⟨n', h', hrun', -, -, hfacts⟩ := hcreate i
    cases hrun.symm.trans hrun'
    exact hfacts

/-- The structure with one leaf, which is at `p`. -/
def single (p : Path) (a : Atom) : FeatureStructure := (empty.createValue p a).2

theorem single_spec (hp : p ≠ []) (a : Atom) : (single p a).WellFormed ∧
    ∀ i, (single p a).factsAt i = (Facts.leaf ⟨i, []⟩ .null ⊔ Facts.leaf ⟨i, p⟩ a).closure := by
  obtain ⟨hwf, hfacts⟩ := empty_spec
  have hl : empty.lookup p = .missing := by
    cases p with
    | nil => exact absurd rfl hp
    | cons f p => rfl
  obtain ⟨t, hrun, ht⟩ := createValue_spec (s := empty) hwf hl a
  rw [single, hrun]
  simpa only [hfacts] using ht

theorem single_graded (hp : p ≠ []) (a : Atom) (i : SlotIndex) :
    ((single p a).factsAt i).Graded := by
  rw [(single_spec hp a).2]
  exact ((Facts.Graded.leaf _ _).sup (Facts.Graded.leaf _ _)).closure

theorem single_value (hp : p ≠ []) (ha : a ≠ .null) :
    ((single p a).factsAt i).value ⟨i, p⟩ a := by
  rw [(single_spec hp a).2]
  exact (Facts.le_closure _).2 _ _ (.inr ⟨⟨rfl, rfl⟩, ha⟩)

/-- That two paths lead to one node. -/
def link (i : SlotIndex) (p q : Path) : Facts where
  same t u := t = ⟨i, p⟩ ∧ u = ⟨i, q⟩
  value _ _ := False

theorem coindex_eq (s : FeatureStructure) (p q : Path) :
    s.coindex p q = match s.arena.equate s.root p s.root q with
      | (.error e, _) => .error e
      | (.ok true, arena) => .ok (some (compact ⟨arena, s.root⟩))
      | (.ok false, _) => .ok none := by
  unfold coindex equate
  rcases s.arena.materialize s.root p with ⟨_ | l, g⟩
  · rfl
  · dsimp only
    rcases g.materialize s.root q with ⟨_ | r, g⟩
    · rfl
    · dsimp only
      rcases g.unify l r with ⟨_ | _, g⟩ <;> rfl

/-- What two paths of one structure make one is the copy of an arena with the facts that this
forces. -/
theorem coindex_merges (hs : s.WellFormed)
    (hA : (s.factsAt i ⊔ link i p q).closure.Acyclic) :
    (∀ t, s.coindex p q = .ok (some t) → ∃ m : FeatureStructure, t = m.compact ∧ m.WellFormed ∧
      m.factsAt i = (s.factsAt i ⊔ link i p q).closure) ∧
    ((s.factsAt i ⊔ link i p q).closure.Consistent → ∃ t, s.coindex p q = .ok (some t)) := by
  have hcl := Facts.closed_closure (s.factsAt i ⊔ link i p q)
  have hle := Facts.le_closure (s.factsAt i ⊔ link i p q)
  have hroot : startAt i s.root i = some s.root := startAt_eq_some.2 ⟨rfl, rfl⟩
  obtain ⟨hok, hcons⟩ := equate_facts (t := ⟨i, p⟩) (u := ⟨i, q⟩) hs.arena (hs.roots_lt i) hroot
    hroot hcl hA (le_sup_left.trans hle) (hle.1 _ _ (.inr ⟨rfl, rfl⟩))
  rw [coindex_eq]
  dsimp only at hok hcons
  generalize s.arena.equate s.root p s.root q = e at hok hcons ⊢
  obtain ⟨outcome, arena⟩ := e
  constructor
  · intro t ht
    rcases outcome with e | _ | _
    · cases ht
    · cases ht
    · cases ht
      obtain ⟨hext, hsame⟩ := hok rfl
      refine ⟨⟨arena, s.root⟩, rfl, ⟨hext.wellFormed,
        Nat.lt_of_lt_of_le hs.root_lt hext.grows.size_le⟩, le_antisymm hext.le
        (Facts.closure_le (hext.wellFormed.settled.closed_facts _)
          (sup_le hext.facts_le ⟨?_, fun _ _ => False.elim⟩))⟩
      rintro _ _ ⟨rfl, rfl⟩
      exact hsame
  · intro hc
    cases hcons hc
    exact ⟨_, rfl⟩

/-- Two paths of one structure made one, unless what this forces clashes. -/
theorem coindex_spec (hs : s.WellFormed)
    (hA : (s.factsAt i ⊔ link i p q).closure.Acyclic) :
    (∀ t, s.coindex p q = .ok (some t) →
      t.WellFormed ∧ t.factsAt i = (s.factsAt i ⊔ link i p q).closure) ∧
    ((s.factsAt i ⊔ link i p q).closure.Consistent → ∃ t, s.coindex p q = .ok (some t)) := by
  obtain ⟨hmerges, hcons⟩ := coindex_merges hs hA
  refine ⟨fun t ht => ?_, hcons⟩
  obtain ⟨m, rfl, hwf, hfacts⟩ := hmerges t ht
  obtain ⟨hwf', hfacts'⟩ := compact_spec hwf (hfacts ▸ hA)
  exact ⟨hwf', (hfacts' i).trans hfacts⟩

theorem link_graded (h : p.length = q.length) : (link i p q).Graded := by
  rintro _ _ ⟨rfl, rfl⟩
  exact h

/-- Two paths of one length can be made one. -/
theorem coindex_graded (hs : s.WellFormed) (hgraded : (s.factsAt i).Graded)
    (hlen : p.length = q.length) (h : s.coindex p q = .ok (some t)) :
    t.WellFormed ∧ (t.factsAt i).Graded := by
  have hclosure := (hgraded.sup (link_graded (i := i) hlen)).closure
  obtain ⟨hwf, hfacts⟩ := (coindex_spec hs hclosure.acyclic).1 t h
  exact ⟨hwf, hfacts ▸ hclosure⟩

/-- The structure in which `f` and `g` lead to one node, and from there `h` to the only leaf. -/
def twofold (f g h : Feature) (a : Atom) : FeatureStructure :=
  match (single [f, h] a).coindex [f] [g] with
  | .ok (some s) => s
  | _ => empty

theorem twofold_spec (f g h : Feature) (a : Atom) :
    (twofold f g h a).WellFormed ∧ ((twofold f g h a).factsAt i).Graded := by
  have hp : [f, h] ≠ [] := List.cons_ne_nil _ _
  have hlen : [f].length = [g].length := rfl
  unfold twofold
  split
  · rename_i s hs
    exact coindex_graded (single_spec hp a).1 (single_graded hp a i) hlen hs
  · obtain ⟨hwf, hfacts⟩ := empty_spec
    exact ⟨hwf, hfacts i ▸ Facts.Graded.leaf _ _⟩

/-- Features 1 and 2 lead to one node, which has an atom at feature 3. -/
def clasp : FeatureStructure := twofold ⟨1⟩ ⟨2⟩ ⟨3⟩ ⟨1⟩

/-- Features 2 and 5 lead to one node, which has another atom, at `f`. -/
def hook (f : Feature) : FeatureStructure := twofold ⟨2⟩ ⟨5⟩ f ⟨2⟩

theorem clasp_spec : clasp.WellFormed ∧ (clasp.factsAt i).Graded := twofold_spec ..

theorem hook_spec (f : Feature) : (hook f).WellFormed ∧ ((hook f).factsAt i).Graded :=
  twofold_spec ..

/-- Structures that are made step by step, with no cycle on the way. -/
inductive Built : FeatureStructure → Prop
  | atomic (a : Atom) : Built (atomic a)
  | createValue {s t : FeatureStructure} {p : Path} {a : Atom} : Built s →
      s.lookup p = .missing → s.createValue p a = (.ok (), t) → Built t
  | coindex {s t : FeatureStructure} {p q : Path} : Built s →
      (∀ i, (s.factsAt i ⊔ link i p q).closure.Acyclic) → s.coindex p q = .ok (some t) → Built t
  | unify {s t u : FeatureStructure} : Built s → Built t →
      (∀ i, (s.factsAt i ⊔ t.factsAt i).closure.Acyclic) → s.unify? t = some u → Built u

/-- What is built is well-formed, and no path of it leads back to where it starts. -/
theorem Built.wellFormed (h : Built s) : s.WellFormed ∧ ∀ i, (s.factsAt i).Acyclic := by
  induction h with
  | atomic a =>
    obtain ⟨hwf, hfacts⟩ := atomic_spec a
    exact ⟨hwf, fun i => hfacts i ▸ (Facts.Graded.leaf _ a).acyclic⟩
  | @createValue s t p a _ hl hrun ih =>
    obtain ⟨t', hrun', hwf, hfacts⟩ := createValue_spec ih.1 hl a
    cases hrun.symm.trans hrun'
    refine ⟨hwf, fun i => ?_⟩
    rw [hfacts]
    exact (Facts.HangsOn.leaf (s.has_root i)).acyclic (ih.1.closed_factsAt i) (ih.2 i)
  | coindex _ hA hrun ih =>
    refine ⟨((coindex_spec ih.1 (hA 0)).1 _ hrun).1, fun i => ?_⟩
    rw [((coindex_spec ih.1 (hA i)).1 _ hrun).2]
    exact hA i
  | @unify s t u _ _ hA hrun ihs iht =>
    have hspec : ∀ i, u.WellFormed ∧ u.factsAt i = (s.factsAt i ⊔ t.factsAt i).closure := by
      intro i
      rcases unify?_spec ihs.1 iht.1 (hA i) with ⟨c, hc, hwf, hfacts⟩ | ⟨hnone, -⟩
      · cases hrun.symm.trans hc
        exact ⟨hwf, hfacts⟩
      · cases hrun.symm.trans hnone
    exact ⟨(hspec 0).1, fun i => (hspec i).2 ▸ hA i⟩

end FeatureStructure

end FeatureLogic
