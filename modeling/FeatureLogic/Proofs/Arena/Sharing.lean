import FeatureLogic.Proofs.Arena.Congruence
import FeatureLogic.Proofs.Arena.Copying
import Mathlib.Data.Set.Card
import Mathlib.Order.Interval.Set.Nat
/-!
Sharing in copies. Nodes that are shared are shared in the copies too, however many of them are copied
with one clone map, and the target grows by as many cells as nodes are reached.
-/
set_option autoImplicit false

namespace FeatureLogic

/-- What a node is, its children aside. -/
inductive Shape where
  | empty
  | atom (a : Atom)
  | complex
  deriving DecidableEq

def Content.shape : Content → Shape
  | empty => .empty
  | atom a => .atom a
  | complex _ => .complex

/-- No children unless the content is complex. -/
def Content.childMap : Content → SortedMap Feature NodeId
  | complex children => children
  | _ => .empty

theorem Content.children_eq_entries (c : Content) : c.children = c.childMap.entries := by
  cases c <;> rfl

theorem Content.child?_eq_get? (c : Content) (f : Feature) : c.child? f = c.childMap.get? f := by
  cases c <;> rfl

namespace Arena

variable {g : Arena} {n : NodeId} {f : Feature}

/-- What there is at a path from `n`. -/
def reading (g : Arena) (n : NodeId) (p : Path) : Lookup Shape :=
  (g.lookup n p).map fun m => (g.content m).shape

end Arena

open Arena

namespace Copying

variable {source base : Arena} {met : Selection → NodeId → Prop} {c c' : Copying} {s : Selection}
  {copies : CloneMap} {n k v m : NodeId} {f : Feature} {p : Path} {content : Content}

namespace IsCopy

theorem shape_eq (hcon : IsCopy source copies .everything k content) :
    content.shape = (source.content k).shape := by
  cases hk : source.content k with
  | atom a => rw [(hcon.atom a).2 hk]
  | empty =>
    cases content with
    | empty => rfl
    | atom a => cases hk.symm.trans ((hcon.atom a).1 rfl)
    | complex children =>
      have hcomplex := (hcon.complex.1 rfl).1
      rw [hk] at hcomplex
      cases hcomplex
  | complex children =>
    have hcomplex := hcon.complex.2 ⟨by rw [hk]; rfl, .inl rfl⟩
    cases content with
    | complex children => rfl
    | empty | atom => cases hcomplex

theorem features_eq (hcon : IsCopy source copies s k content) :
    content.children.map (·.1) = ((source.content k).children.map (·.1)).filter s.keeps := by
  have hkeys : content.childMap.keys = ((source.content k).childMap.restrict s.keeps).keys := by
    refine SortedMap.keys_eq_of_mem_iff fun f => ?_
    have hrel := hcon.child f
    rw [Selection.child?, child?_eq, Content.child?_eq_get?, Content.child?_eq_get?,
      ← SortedMap.get?_restrict] at hrel
    rw [← SortedMap.contains_iff_mem_keys, ← SortedMap.contains_iff_mem_keys, SortedMap.contains,
      SortedMap.contains]
    generalize content.childMap.get? f = o at hrel ⊢
    generalize ((source.content k).childMap.restrict s.keeps).get? f = o' at hrel ⊢
    cases hrel <;> simp
  rw [Content.children_eq_entries, Content.children_eq_entries, List.filter_map]
  exact hkeys

theorem shape_named {t : FeatureTree} (hcon : IsCopy source copies (.named t) k content) :
    content.shape = match (source.content k).shape with
      | .complex => if content.children.map (·.1) = [] then .empty else .complex
      | shape => shape := by
  cases hk : source.content k with
  | atom a => rw [(hcon.atom a).2 hk]; rfl
  | empty =>
    cases content with
    | empty => rfl
    | atom a => cases hk.symm.trans ((hcon.atom a).1 rfl)
    | complex children =>
      have hcomplex := (hcon.complex.1 rfl).1
      rw [hk] at hcomplex
      cases hcomplex
  | complex children =>
    cases content with
    | atom a => cases hk.symm.trans ((hcon.atom a).1 rfl)
    | empty => rfl
    | complex kept =>
      obtain ⟨-, heverything | ⟨f, d, hd⟩⟩ := hcon.complex.1 rfl
      · cases heverything
      · obtain ⟨w, hw, -⟩ := exists_of_rel (hd ▸ hcon.child f)
        have hmem := (SortedMap.get?_eq_some_iff kept).1 hw
        have hne : kept.entries ≠ [] := List.ne_nil_of_mem hmem
        simp [Content.shape, Content.children, hne]

end IsCopy

namespace Mirrors
variable (hc : Mirrors source base met c)
include hc

theorem reading (hs : source.Settled) (hall : ∀ s k, met s k → s = .everything)
    (hk : c.copies.get? k = some v) (p : Path) : c.target.reading v p = source.reading k p := by
  unfold Arena.reading
  rcases hc.lookup hs hall hk (p := p) with ⟨m, w, hm, hw, hget⟩ | ⟨hno, he⟩
  · obtain ⟨-, -, s, hmet, hcon⟩ := hc.isCopy hget
    obtain rfl := hall s m hmet
    rw [hm, hw, Lookup.map, Lookup.map, hcon.shape_eq]
  · rw [he]
    cases hl : source.lookup k p with
    | found m => exact absurd hl (hno m)
    | missing | blocked => rfl

/-- Two paths lead to one copy exactly if they lead to one node of the source. -/
theorem shared_iff (hs : source.Settled) (hall : ∀ s k, met s k → s = .everything)
    {k' v' : NodeId} (hk : c.copies.get? k = some v) (hk' : c.copies.get? k' = some v')
    (p q : Path) : (∃ w, c.target.lookup v p = .found w ∧ c.target.lookup v' q = .found w) ↔
      ∃ m, source.lookup k p = .found m ∧ source.lookup k' q = .found m := by
  constructor
  · rintro ⟨w, hp, hq⟩
    obtain ⟨m, hm, hget⟩ := hc.of_lookup hs hk hp
    obtain ⟨m', hm', hget'⟩ := hc.of_lookup hs hk' hq
    obtain rfl := hc.injective hget hget'
    exact ⟨m, hm, hm'⟩
  · rintro ⟨m, hp, hq⟩
    obtain ⟨w, hw, hget⟩ := hc.exists_lookup hs hall hk hp
    obtain ⟨w', hw', hget'⟩ := hc.exists_lookup hs hall hk' hq
    cases hget.symm.trans hget'
    exact ⟨w, hw, hw'⟩

/-- The target has grown by as many cells as nodes have been copied. -/
theorem size_eq : c.target.size = base.size + {k | ∃ v, c.copies.get? k = some v}.ncard := by
  have hbij : Set.BijOn (fun k => (c.copies.get? k).getD 0) {k | ∃ v, c.copies.get? k = some v}
      (Set.Ico base.size c.target.size) := by
    refine ⟨?_, ?_, ?_⟩
    · rintro k ⟨v, hv⟩
      simpa [hv] using hc.range hv
    · rintro k ⟨v, hv⟩ k' ⟨v', hv'⟩ he
      obtain rfl : v = v' := by simpa [hv, hv'] using he
      exact hc.injective hv hv'
    · rintro v ⟨hge, hlt⟩
      obtain ⟨k, hk⟩ := hc.onto hge hlt
      exact ⟨k, ⟨v, hk⟩, by simp [hk]⟩
  rw [← hbij.injOn.ncard_image, hbij.image_eq, Set.ncard_Ico_nat, Nat.add_sub_cancel' hc.size_le]

end Mirrors

/-- All that the nodes reach is copied, once, and nothing else. -/
theorem Mirrors.size_eq_of_copied {ns : List NodeId} (hs : source.Settled)
    (hc : Mirrors source base (MetFrom source ns) c)
    (hns : ∀ n ∈ ns, ∃ v, c.copies.get? (source.resolve n) = some v) :
    c.target.size = base.size + {m | ∃ n ∈ ns, ∃ p, source.lookup n p = .found m}.ncard := by
  rw [hc.size_eq]
  congr 2
  ext m
  constructor
  · rintro ⟨v, hv⟩
    obtain ⟨hr, s, -, ⟨-, n, hn, p, hp⟩, -⟩ := hc.cell hv
    exact ⟨n, hn, p, hr ▸ hp⟩
  · rintro ⟨n, hn, p, hp⟩
    obtain ⟨v, hv⟩ := hns n hn
    rw [← hs.lookup_congr (hs.resolve_resolve n)] at hp
    obtain ⟨w, -, hw⟩ := hc.exists_lookup hs (fun _ _ => And.left) hv hp
    exact ⟨w, hw⟩

/-! ## One clone map for many nodes -/

/-- Copies one node after the other, with one clone map. -/
def copyAll (source : Arena) : List NodeId → Copying → List NodeId × Copying
  | [], c => ([], c)
  | n :: ns, c =>
    let (v, c) := c.copy source n
    let (vs, c) := copyAll source ns c
    (v :: vs, c)

section CopyAll
variable {given : Content → Prop} {ns ns' vs : List NodeId}

theorem copyAll_mirrors (hs : source.Sound given)
    (hns : ∀ n ∈ ns, n < source.size ∧ source.Grounded n ∧ n ∈ ns')
    (hc : Mirrors source base (MetFrom source ns') c) :
    Mirrors source base (MetFrom source ns') (copyAll source ns c).2 ∧
      (∀ k v, c.copies.get? k = some v → (copyAll source ns c).2.copies.get? k = some v) ∧
      List.Forall₂ (fun n v => (copyAll source ns c).2.copies.get? (source.resolve n) = some v)
        ns (copyAll source ns c).1 := by
  induction ns generalizing c with
  | nil => exact ⟨hc, fun _ _ => id, .nil⟩
  | cons n ns ih =>
    obtain ⟨⟨hlt, hg, hmem⟩, hns⟩ := List.forall_mem_cons.1 hns
    have hhead := copy_takes hs hlt hg hmem hc
    obtain ⟨hc', hkept, hall⟩ := ih hns hhead.mirrors
    exact ⟨hc', fun k v hk => hkept k v (hhead.continues.kept hk),
      .cons (hkept _ _ hhead.copied) hall⟩

/-- Copies made with one clone map look like their sources and share what these share, and each node
that the sources reach comes once into the target, which is left alone otherwise. -/
theorem copyAll_shares (hs : source.Sound given) (hA : source.Acyclic)
    (hns : ∀ n ∈ ns, n < source.size) (base : Arena)
    (hrun : copyAll source ns (.start base) = (vs, c)) :
    vs.length = ns.length ∧
      (∀ e ∈ ns.zip vs, ∀ p, c.target.reading e.2 p = source.reading e.1 p) ∧
      (∀ e ∈ ns.zip vs, ∀ e' ∈ ns.zip vs, ∀ p q,
        (∃ w, c.target.lookup e.2 p = .found w ∧ c.target.lookup e'.2 q = .found w) ↔
          ∃ m, source.lookup e.1 p = .found m ∧ source.lookup e'.1 q = .found m) ∧
      (∀ n < base.size, c.target.cells[n]? = base.cells[n]?) ∧
      (∀ e ∈ ns.zip vs, ∀ p w, c.target.lookup e.2 p = .found w → base.size ≤ w) ∧
      c.target.size = base.size + {m | ∃ n ∈ ns, ∃ p, source.lookup n p = .found m}.ncard := by
  have hset := hs.settled
  obtain ⟨hc, -, hall⟩ := copyAll_mirrors hs
    (fun n hn => ⟨hns n hn, hA.grounded hs n, hn⟩) (.start source base (MetFrom source ns))
  rw [hrun] at hc hall
  have heverything : ∀ s k, MetFrom source ns s k → s = .everything := fun _ _ => And.left
  have hlookup : ∀ n p, source.lookup (source.resolve n) p = source.lookup n p :=
    fun n p => hset.lookup_congr (hset.resolve_resolve n) p
  have hzip : ∀ e ∈ ns.zip vs, c.copies.get? (source.resolve e.1) = some e.2 :=
    fun e he => List.forall₂_zip hall he
  refine ⟨hall.length_eq.symm, fun e he p => ?_, fun e he e' he' p q => ?_, fun n hn => hc.old hn,
    fun e he p w hw => ?_, ?_⟩
  · rw [hc.reading hset heverything (hzip e he), Arena.reading, Arena.reading, hlookup]
  · rw [hc.shared_iff hset heverything (hzip e he) (hzip e' he'), hlookup, hlookup]
  · obtain ⟨m, -, hget⟩ := hc.of_lookup hset (hzip e he) hw
    exact (hc.range hget).1
  · refine hc.size_eq_of_copied hset fun n hn => ?_
    obtain ⟨e, he, rfl⟩ := List.mem_map.1 ((List.map_fst_zip hall.length_eq.le).symm ▸ hn)
    exact ⟨_, hzip e he⟩

/-- An atom copied for itself and then again below two nodes that have become one. -/
theorem copyAll_shares_forked : ∃ c,
    copyAll (forked.unify 0 4).2 [2, 4, 0] (.start (empty.alloc (.atom ⟨7⟩)).2) = ([1, 2, 2], c) ∧
    c.target.reading 2 [⟨1⟩] = (forked.unify 0 4).2.reading 0 [⟨1⟩] ∧
    (∃ w, c.target.lookup 1 [] = .found w ∧ c.target.lookup 2 [⟨1⟩] = .found w) ∧
    c.target.cells[0]? = some (.holds (.atom ⟨7⟩)) ∧
    c.target.size =
      1 + {m | ∃ n ∈ [2, 4, 0], ∃ p, (forked.unify 0 4).2.lookup n p = .found m}.ncard := by
  have hs : (forked.unify 0 4).2.Sound fun _ => False :=
    (Follows.unify forked_sound (by decide) (by decide)).sound
  have hA : (forked.unify 0 4).2.Acyclic :=
    acyclic_of_level (fun n => if n = 2 ∨ n = 3 then 0 else 1) (by decide) (by decide)
  obtain ⟨c, hrun⟩ : ∃ c, copyAll (forked.unify 0 4).2 [2, 4, 0]
      (.start (empty.alloc (.atom ⟨7⟩)).2) = ([1, 2, 2], c) := ⟨_, rfl⟩
  obtain ⟨-, hread, hshared, hold, -, hsize⟩ := copyAll_shares hs hA (by decide) _ hrun
  have h₂ : ((2, 1) : NodeId × NodeId) ∈ [2, 4, 0].zip [1, 2, 2] := by decide
  have h₀ : ((0, 2) : NodeId × NodeId) ∈ [2, 4, 0].zip [1, 2, 2] := by decide
  exact ⟨c, hrun, hread _ h₀ _, (hshared _ h₂ _ h₀ _ _).2 ⟨2, rfl, rfl⟩, hold 0 (by decide), hsize⟩

end CopyAll

end Copying

end FeatureLogic
