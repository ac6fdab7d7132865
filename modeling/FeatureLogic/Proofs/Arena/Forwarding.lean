import FeatureLogic.Arena.Creation
import FeatureLogic.Proofs.SortedMap
import Mathlib.Data.List.Perm.Subperm
/-!
Chains of forwarding nodes. In an arena whose chains all end, `resolve` and `content` say all that
can be read, and each operation on cells is described by what it does to these two.
-/
set_option autoImplicit false

namespace FeatureLogic.Arena

/-- From `n` the chain takes `k` steps to its end `m`. -/
inductive Chain (g : Arena) : Nat → NodeId → NodeId → Prop
  | stop {n : NodeId} {c : Content} (h : g.cells[n]? = some (.holds c)) : Chain g 0 n n
  | step {k : Nat} {n next m : NodeId} (h : g.cells[n]? = some (.forwards next))
      (rest : Chain g k next m) : Chain g (k + 1) n m

variable {g : Arena} {n m l r : NodeId} {k : Nat}

theorem Chain.lt (h : g.Chain k n m) : n < g.size := by
  cases h with
  | stop hc => exact (Array.getElem?_eq_some_iff.1 hc).1
  | step hc _ => exact (Array.getElem?_eq_some_iff.1 hc).1

theorem Chain.holds (h : g.Chain k n m) : ∃ c, g.cells[m]? = some (.holds c) := by
  induction h with
  | stop hc => exact ⟨_, hc⟩
  | step _ _ ih => exact ih

theorem Chain.unique {k' : Nat} {m' : NodeId} (h : g.Chain k n m) (h' : g.Chain k' n m') :
    k = k' ∧ m = m' := by
  induction h generalizing k' with
  | stop hc =>
    cases h' with
    | stop _ => exact ⟨rfl, rfl⟩
    | step hf _ => simp [hc] at hf
  | step hf _ ih =>
    cases h' with
    | stop hc => simp [hc] at hf
    | step hf' hrest =>
      have hnext : _ = _ := Option.some.inj (hf.symm.trans hf')
      cases hnext
      obtain ⟨rfl, rfl⟩ := ih hrest
      exact ⟨rfl, rfl⟩

theorem Chain.follow (h : g.Chain k n m) {j : Nat} (hj : k ≤ j) : g.follow j n = m := by
  induction h generalizing j with
  | stop hc => cases j <;> simp [Arena.follow, hc]
  | step hf _ ih =>
    cases j with
    | zero => omega
    | succ j =>
      simp only [Arena.follow, hf]
      exact ih (by omega)

/-- The nodes of a chain, none of which is met twice. -/
theorem Chain.trail (h : g.Chain k n m) :
    ∃ ns : List NodeId, ns.length = k + 1 ∧ ns.Nodup ∧
      ∀ x ∈ ns, x < g.size ∧ ∃ j ≤ k, g.Chain j x m := by
  induction h with
  | @stop n c hc =>
    refine ⟨[n], rfl, by simp, ?_⟩
    intro x hx
    obtain rfl := List.mem_singleton.1 hx
    exact ⟨(Chain.stop hc).lt, 0, Nat.le_refl 0, .stop hc⟩
  | @step k n next m hf hrest ih =>
    obtain ⟨ns, hlen, hnd, hns⟩ := ih
    have hfull : g.Chain (k + 1) n m := .step hf hrest
    refine ⟨n :: ns, by simp [hlen], ?_, ?_⟩
    · refine List.nodup_cons.2 ⟨?_, hnd⟩
      intro hmem
      obtain ⟨j, hj, hchain⟩ := (hns n hmem).2
      have hlen := (hchain.unique hfull).1
      omega
    · intro x hx
      rcases List.mem_cons.1 hx with rfl | hx
      · exact ⟨hfull.lt, k + 1, Nat.le_refl _, hfull⟩
      · obtain ⟨hlt, j, hj, hchain⟩ := hns x hx
        exact ⟨hlt, j, by omega, hchain⟩

theorem length_le_of_nodup {ns : List NodeId} (hd : ns.Nodup) {b : Nat} (h : ∀ x ∈ ns, x < b) :
    ns.length ≤ b := by
  have hsub : ns ⊆ List.range b := fun x hx => List.mem_range.2 (h x hx)
  simpa using (List.subperm_of_subset hd hsub).length_le

theorem Chain.length_lt (h : g.Chain k n m) : k < g.size := by
  obtain ⟨ns, hlen, hnd, hns⟩ := h.trail
  have hle := length_le_of_nodup hnd fun x hx => (hns x hx).1
  omega

theorem Chain.resolve (h : g.Chain k n m) : g.resolve n = m :=
  h.follow (Nat.le_of_lt h.length_lt)

def Settled (g : Arena) : Prop := ∀ n, n < g.size → ∃ k m, g.Chain k n m

theorem Settled.chain (hg : g.Settled) (hn : n < g.size) : ∃ k, g.Chain k n (g.resolve n) := by
  obtain ⟨k, m, h⟩ := hg n hn
  exact ⟨k, h.resolve ▸ h⟩

theorem resolve_of_size_le (h : g.size ≤ n) : g.resolve n = n := by
  have hnone : g.cells[n]? = none := Array.getElem?_eq_none h
  unfold Arena.resolve
  cases g.size <;> simp [Arena.follow, hnone]

/-- What chains keep inside the arena they keep everywhere. -/
theorem map_resolve {α : Type} {level : NodeId → α}
    (h : ∀ n < g.size, level (g.resolve n) = level n) (n : NodeId) :
    level (g.resolve n) = level n := by
  rcases Nat.lt_or_ge n g.size with hn | hn
  · exact h n hn
  · rw [resolve_of_size_le hn]

theorem content_of_size_le (h : g.size ≤ n) : g.content n = .empty := by
  have hnone : g.cells[n]? = none := Array.getElem?_eq_none h
  simp [content, resolve_of_size_le h, hnone]

theorem resolve_of_holds {c : Content} (h : g.cells[n]? = some (.holds c)) : g.resolve n = n :=
  (Chain.stop h).resolve

namespace Settled
variable (hg : g.Settled)
include hg

theorem holds_content (hn : n < g.size) :
    g.cells[g.resolve n]? = some (.holds (g.content n)) := by
  obtain ⟨k, hk⟩ := hg.chain hn
  obtain ⟨c, hc⟩ := hk.holds
  simp [content, hc]

theorem resolve_lt (hn : n < g.size) : g.resolve n < g.size :=
  (Array.getElem?_eq_some_iff.1 (hg.holds_content hn)).1

theorem resolve_resolve (n : NodeId) : g.resolve (g.resolve n) = g.resolve n := by
  rcases Nat.lt_or_ge n g.size with hn | hn
  · exact resolve_of_holds (hg.holds_content hn)
  · rw [resolve_of_size_le hn, resolve_of_size_le hn]

theorem content_resolve (n : NodeId) : g.content (g.resolve n) = g.content n := by
  unfold content
  rw [hg.resolve_resolve]

theorem content_congr (h : g.resolve n = g.resolve m) : g.content n = g.content m := by
  rw [← hg.content_resolve n, ← hg.content_resolve m, h]

theorem holds_of_resolve_eq (hn : n < g.size) (he : g.resolve n = n) :
    g.cells[n]? = some (.holds (g.content n)) := by
  simpa only [he] using hg.holds_content hn

end Settled

/-- `h` reads like `g`, though its chains may be shorter. -/
structure SameView (g h : Arena) : Prop where
  settled : h.Settled
  size : h.size = g.size
  resolve : h.resolve = g.resolve
  content : h.content = g.content

theorem SameView.refl (hg : g.Settled) : SameView g g := ⟨hg, rfl, rfl, rfl⟩

theorem SameView.trans {h i : Arena} (hgh : SameView g h) (hhi : SameView h i) : SameView g i :=
  ⟨hhi.settled, hhi.size.trans hgh.size, hhi.resolve.trans hgh.resolve,
    hhi.content.trans hgh.content⟩

theorem getElem?_set (g : Arena) (n x : NodeId) (c : Cell) (hn : n < g.size) :
    (g.set n c).cells[x]? = if n = x then some c else g.cells[x]? := by
  simp only [set, Array.getElem?_setIfInBounds]
  split
  · rename_i h
    subst h
    have hn : n < g.cells.size := hn
    simp [hn]
  · rfl

theorem getElem?_set_ne (g : Arena) {n x : NodeId} (c : Cell) (hne : n ≠ x) :
    (g.set n c).cells[x]? = g.cells[x]? :=
  Array.getElem?_setIfInBounds_ne hne

theorem Chain.ne_of_holds {x : NodeId} {c : Content} (h : g.Chain k n m) (hne : n ≠ m)
    (hc : g.cells[x]? = some (.holds c)) : n ≠ x := by
  rintro rfl
  exact hne (h.unique (.stop hc)).2.symm

theorem Chain.set_forwards {j i : Nat} {x t : NodeId} (hn : g.Chain j n t) (hne : n ≠ t)
    (h : g.Chain i x m) : ∃ i', (g.set n (.forwards t)).Chain i' x m := by
  induction h with
  | @stop x c hc =>
    have hx : n ≠ x := hn.ne_of_holds hne hc
    exact ⟨0, .stop (c := c) ((getElem?_set_ne g _ hx).trans hc)⟩
  | @step i x next m hf hrest ih =>
    by_cases hx : n = x
    · subst hx
      obtain ⟨c, hc⟩ := hn.holds
      have hm : t = m := (hn.unique (.step hf hrest)).2
      subst hm
      refine ⟨1, @Chain.step _ _ _ t _ ?_ (.stop (c := c) ?_)⟩
      · rw [getElem?_set _ _ _ _ hn.lt, if_pos rfl]
      · exact (getElem?_set_ne g _ hne).trans hc
    · obtain ⟨i', hi'⟩ := ih
      exact ⟨i' + 1, .step ((getElem?_set_ne g _ hx).trans hf) hi'⟩

/-- If chains and held contents survive, nothing that can be read has changed. -/
theorem SameView.of_chains {h : Arena} (hg : g.Settled) (hsize : h.size = g.size)
    (hchain : ∀ i x m, g.Chain i x m → ∃ i', h.Chain i' x m)
    (hholds : ∀ (x : NodeId) c, g.cells[x]? = some (.holds c) → h.cells[x]? = some (.holds c)) :
    SameView g h := by
  have hresolve : ∀ x, h.resolve x = g.resolve x := by
    intro x
    rcases Nat.lt_or_ge x g.size with hx | hx
    · obtain ⟨i, hi⟩ := hg.chain hx
      obtain ⟨i', hi'⟩ := hchain _ _ _ hi
      exact hi'.resolve
    · rw [resolve_of_size_le hx, resolve_of_size_le (hsize ▸ hx)]
  refine ⟨?_, hsize, funext hresolve, ?_⟩
  · intro x hx
    obtain ⟨i, hi⟩ := hg.chain (hsize ▸ hx)
    obtain ⟨i', hi'⟩ := hchain _ _ _ hi
    exact ⟨i', _, hi'⟩
  · funext x
    rcases Nat.lt_or_ge x g.size with hx | hx
    · have hheld := hholds _ _ (hg.holds_content hx)
      rw [Arena.content, hresolve x, hheld]
    · rw [content_of_size_le hx, content_of_size_le (hsize ▸ hx)]

/-- A node that leads to `t` may as well forward to it at once. -/
theorem set_forwards_view {j : Nat} {t : NodeId} (hg : g.Settled) (h : g.Chain j n t)
    (hne : n ≠ t) : SameView g (g.set n (.forwards t)) := by
  refine .of_chains hg (size_set ..) (fun i x m hx => h.set_forwards hne hx) ?_
  intro x c hc
  exact (getElem?_set_ne g _ (h.ne_of_holds hne hc)).trans hc

theorem shorten_view {j : Nat} {t : NodeId} (hg : g.Settled) (h : g.Chain j n t) (k : Nat) :
    SameView g (shorten t k n g) := by
  induction k generalizing n j g with
  | zero => exact .refl hg
  | succ k ih =>
    unfold shorten
    split
    · exact .refl hg
    · rename_i hne
      split
      · rename_i next hf
        have hview := set_forwards_view hg h hne
        cases h with
        | stop hc => exact absurd rfl hne
        | step hf' hrest =>
          cases Option.some.inj (hf.symm.trans hf')
          obtain ⟨i, hi⟩ := (Chain.step hf' hrest).set_forwards hne hrest
          exact hview.trans (ih hview.settled hi)
      · exact .refl hg

theorem dechain_view (hg : g.Settled) (n : NodeId) : SameView g (g.dechain n).2 := by
  rcases Nat.lt_or_ge n g.size with hn | hn
  · obtain ⟨k, hk⟩ := hg.chain hn
    exact shorten_view hg hk _
  · have hr : g.resolve n = n := resolve_of_size_le hn
    have hsame : shorten (g.resolve n) g.size n g = g := by
      rw [hr]
      cases g.size <;> simp [shorten]
    simp only [dechain, hsame]
    exact .refl hg

theorem dechain_spec {h : Arena} (hg : g.Settled) (hn : g.dechain n = (m, h)) :
    m = g.resolve n ∧ SameView g h := by
  have hv := dechain_view hg n
  rw [hn] at hv
  exact ⟨(congrArg Prod.fst hn).symm, hv⟩

theorem dechain_both {h i : Arena} {l' r' : NodeId} (hg : g.Settled) (hl : g.dechain l = (l', h))
    (hr : h.dechain r = (r', i)) : l' = g.resolve l ∧ r' = g.resolve r ∧ SameView g i := by
  obtain ⟨hl', hv⟩ := dechain_spec hg hl
  obtain ⟨hr', hv'⟩ := dechain_spec hv.settled hr
  exact ⟨hl', hv.resolve ▸ hr', hv.trans hv'⟩

theorem content_dechain {h : Arena} (hg : g.Settled) (hn : g.dechain n = (m, h)) :
    h.content m = g.content n := by
  obtain ⟨rfl, hv⟩ := dechain_spec hg hn
  rw [hv.content, hg.content_resolve]

theorem Chain.set_holds {c : Content} (hn : g.Chain 0 n n) (h : g.Chain k l m) :
    (g.set n (.holds c)).Chain k l m := by
  induction h with
  | @stop l d hd =>
    by_cases hl : n = l
    · exact .stop (c := c) (by rw [getElem?_set _ _ _ _ hn.lt, if_pos hl])
    · exact .stop (c := d) ((getElem?_set_ne g _ hl).trans hd)
  | @step k l next m hf _ ih =>
    have hl : n ≠ l := by
      rintro rfl
      have hlen := (hn.unique (.step hf ‹_›)).1
      omega
    exact .step ((getElem?_set_ne g _ hl).trans hf) ih

theorem Settled.chain_self (hg : g.Settled) (hn : n < g.size) (he : g.resolve n = n) :
    g.Chain 0 n n :=
  .stop (hg.holds_of_resolve_eq hn he)

section Holding
variable (hg : g.Settled) (hn : n < g.size) (he : g.resolve n = n) (c : Content)
include hg hn he

theorem settled_set_holds : (g.set n (.holds c)).Settled := by
  intro x hx
  rw [size_set] at hx
  obtain ⟨k, hk⟩ := hg.chain hx
  exact ⟨k, _, (hg.chain_self hn he).set_holds hk⟩

theorem resolve_set_holds (x : NodeId) : (g.set n (.holds c)).resolve x = g.resolve x := by
  rcases Nat.lt_or_ge x g.size with hx | hx
  · obtain ⟨k, hk⟩ := hg.chain hx
    exact ((hg.chain_self hn he).set_holds hk).resolve
  · rw [resolve_of_size_le hx, resolve_of_size_le (by rw [size_set]; exact hx)]

theorem content_set_holds (x : NodeId) :
    (g.set n (.holds c)).content x = if g.resolve x = n then c else g.content x := by
  simp only [content, resolve_set_holds hg hn he, getElem?_set _ _ _ _ hn]
  by_cases h : g.resolve x = n
  · simp [h]
  · rw [if_neg h, if_neg (Ne.symm h)]

end Holding

theorem Chain.redirect (hl : g.Chain 0 l l) (hr : g.Chain 0 r r) (hne : l ≠ r)
    (h : g.Chain k n m) : ∃ k', (g.redirect l r).Chain k' n (if m = l then r else m) := by
  induction h with
  | @stop n c hc =>
    by_cases hn : l = n
    · subst hn
      obtain ⟨d, hd⟩ := hr.holds
      rw [if_pos rfl]
      refine ⟨1, @Chain.step _ _ _ r _ ?_ (.stop (c := d) ?_)⟩
      · rw [Arena.redirect, getElem?_set _ _ _ _ hl.lt, if_pos rfl]
      · exact (getElem?_set_ne g _ hne).trans hd
    · rw [if_neg (Ne.symm hn)]
      exact ⟨0, .stop (c := c) ((getElem?_set_ne g _ hn).trans hc)⟩
  | @step k n next m hf hrest ih =>
    have hn : l ≠ n := by
      rintro rfl
      have hlen := (hl.unique (.step hf hrest)).1
      omega
    obtain ⟨k', hk'⟩ := ih
    exact ⟨k' + 1, .step ((getElem?_set_ne g _ hn).trans hf) hk'⟩

@[simp] theorem size_redirect (g : Arena) (l r : NodeId) : (g.redirect l r).size = g.size :=
  size_set ..

section Redirecting
variable (hg : g.Settled) (hl : l < g.size) (hr : r < g.size) (hel : g.resolve l = l)
  (her : g.resolve r = r) (hne : l ≠ r)
include hg hl hr hel her hne

theorem settled_redirect : (g.redirect l r).Settled := by
  intro x hx
  rw [size_redirect] at hx
  obtain ⟨k, hk⟩ := hg.chain hx
  obtain ⟨k', hk'⟩ := (hg.chain_self hl hel).redirect (hg.chain_self hr her) hne hk
  exact ⟨k', _, hk'⟩

theorem resolve_redirect (x : NodeId) :
    (g.redirect l r).resolve x = if g.resolve x = l then r else g.resolve x := by
  rcases Nat.lt_or_ge x g.size with hx | hx
  · obtain ⟨k, hk⟩ := hg.chain hx
    obtain ⟨k', hk'⟩ := (hg.chain_self hl hel).redirect (hg.chain_self hr her) hne hk
    exact hk'.resolve
  · have hxl : x ≠ l := by
      rintro rfl
      exact absurd hl (Nat.not_lt.2 hx)
    rw [resolve_of_size_le hx, if_neg hxl, resolve_of_size_le (by rw [size_redirect]; exact hx)]

theorem content_redirect (x : NodeId) :
    (g.redirect l r).content x = if g.resolve x = l then g.content r else g.content x := by
  have hcell : ∀ y, g.resolve y ≠ l → (g.redirect l r).cells[g.resolve y]? =
      g.cells[g.resolve y]? := by
    intro y hy
    exact getElem?_set_ne g _ (Ne.symm hy)
  simp only [content, resolve_redirect hg hl hr hel her hne x]
  by_cases h : g.resolve x = l
  · have hcr := hcell r (by rw [her]; exact Ne.symm hne)
    rw [her] at hcr
    simp only [if_pos h, her, hcr]
  · simp only [if_neg h, hcell x h]

end Redirecting

theorem getElem?_alloc (g : Arena) (c : Content) (x : NodeId) :
    (g.alloc c).2.cells[x]? = if x = g.size then some (.holds c) else g.cells[x]? := by
  simp only [alloc, size, Array.getElem?_push]
  rfl

theorem Chain.alloc {c : Content} (h : g.Chain k n m) : (g.alloc c).2.Chain k n m := by
  induction h with
  | stop hc =>
    have hlt := (Chain.stop hc).lt
    exact .stop (by rw [getElem?_alloc, if_neg (Nat.ne_of_lt hlt)]; exact hc)
  | step hf hrest ih =>
    have hlt := (Chain.step hf hrest).lt
    exact .step (by rw [getElem?_alloc, if_neg (Nat.ne_of_lt hlt)]; exact hf) ih

section Allocating
variable (hg : g.Settled) (c : Content)
include hg

theorem settled_alloc : (g.alloc c).2.Settled := by
  intro x hx
  rw [size_alloc] at hx
  rcases Nat.lt_succ_iff_lt_or_eq.1 hx with hx | rfl
  · obtain ⟨k, hk⟩ := hg.chain hx
    exact ⟨k, _, hk.alloc⟩
  · exact ⟨0, _, .stop (c := c) (by rw [getElem?_alloc, if_pos rfl])⟩

theorem resolve_alloc (x : NodeId) : (g.alloc c).2.resolve x = g.resolve x := by
  rcases Nat.lt_trichotomy x g.size with hx | rfl | hx
  · obtain ⟨k, hk⟩ := hg.chain hx
    exact hk.alloc.resolve
  · rw [resolve_of_size_le (Nat.le_refl _)]
    exact resolve_of_holds (c := c) (by rw [getElem?_alloc, if_pos rfl])
  · rw [resolve_of_size_le (Nat.le_of_lt hx), resolve_of_size_le (by rw [size_alloc]; exact hx)]

theorem content_alloc (x : NodeId) :
    (g.alloc c).2.content x = if x = g.size then c else g.content x := by
  simp only [content, resolve_alloc hg]
  by_cases hx : x = g.size
  · subst hx
    rw [resolve_of_size_le (Nat.le_refl _), getElem?_alloc]
    simp
  · have hne : g.resolve x ≠ g.size := by
      rcases Nat.lt_or_ge x g.size with hlt | hge
      · exact Nat.ne_of_lt (hg.resolve_lt hlt)
      · rwa [resolve_of_size_le hge]
    rw [getElem?_alloc, if_neg hne, if_neg hx]

end Allocating

end FeatureLogic.Arena
