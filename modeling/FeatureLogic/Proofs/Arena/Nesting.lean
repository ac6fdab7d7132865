import FeatureLogic.Proofs.Arena.Congruence
/-!
How deep merges nest. Every complex pair on the way down is two nodes of one class, and each class
is met only once, although it depends on the merges before which of its nodes are met.
-/
set_option autoImplicit false

namespace FeatureLogic.Arena

open FeatureAlgebra

variable {given : Content → Prop} {g h : Arena} {l r l' r' c d : Nat} {f : Feature} {b : Bool}

section Bound
variable {A : FeatureAlgebra} {den : NodeId → A.Point → Prop} {x : A.Point}

/-- All that a call works on stands for `x`, or for what comes below `x`. -/
def Call.At (A : FeatureAlgebra) (den : NodeId → A.Point → Prop) (x : A.Point) : Call → Prop
  | merge l r => den l x ∧ den r x
  | complex l r => den l x ∧ den r x ∧ l ≠ r
  | children r rest => (∃ l, den l x ∧ l ≠ r) ∧ den r x ∧
      ∀ e ∈ rest, ∃ y, A.edge x e.1 y ∧ den e.2 y

/-- How many calls are open at `x`. -/
def Call.frames : Call → Nat
  | merge .. => 0
  | complex .. => 1
  | children .. => 2

/-- A settled arena of the size of `g` in which the nodes stand for what they stand for in `g`. -/
structure Keeps (A : FeatureAlgebra) (den : NodeId → A.Point → Prop) (g h : Arena) : Prop where
  settled : h.Settled
  denotes : h.Denotes A den
  size : h.size = g.size

theorem Keeps.trans {i : Arena} (hgh : Keeps A den g h) (hhi : Keeps A den h i) :
    Keeps A den g i :=
  ⟨hhi.settled, hhi.denotes, hhi.size.trans hgh.size⟩

theorem Keeps.of_view (hd : g.Denotes A den) (hv : SameView g h) : Keeps A den g h :=
  ⟨hv.settled, hd.of_view hv, hv.size⟩

theorem Keeps.redirect (hg : g.Settled) (hd : g.Denotes A den) (hl : den l x) (hr : den r x)
    (hel : g.resolve l = l) (her : g.resolve r = r) (hne : l ≠ r) :
    Keeps A den g (g.redirect l r) :=
  ⟨settled_redirect hg (hd.lt hl) (hd.lt hr) hel her hne, hd.redirect hg hel her hne hl hr,
    size_redirect g l r⟩

/-- A chain followed to its end. -/
theorem Keeps.dechain {g₁ : Arena} (hg : g.Settled) (hd : g.Denotes A den) (hr : den r x)
    (hdr : g.dechain r = (r', g₁)) : Keeps A den g g₁ ∧ den r' x ∧ g₁.resolve r' = r' := by
  obtain ⟨rfl, hv⟩ := dechain_spec hg hdr
  rw [hv.resolve]
  exact ⟨.of_view hd hv, hd.resolve hr, hg.resolve_resolve r⟩

theorem Keeps.dechain_both {g₁ g₂ : Arena} (hg : g.Settled) (hd : g.Denotes A den) (hl : den l x)
    (hr : den r x) (hdl : g.dechain l = (l', g₁)) (hdr : g₁.dechain r = (r', g₂)) :
    Keeps A den g g₂ ∧ den l' x ∧ den r' x ∧ g₂.resolve l' = l' ∧ g₂.resolve r' = r' := by
  obtain ⟨rfl, rfl, hv⟩ := Arena.dechain_both hg hdl hdr
  rw [hv.resolve]
  exact ⟨.of_view hd hv, hd.resolve hl, hd.resolve hr, hg.resolve_resolve l, hg.resolve_resolve r⟩

theorem Keeps.mergeEnds (hg : g.Settled) (hd : g.Denotes A den) (hl : den l x) (hr : den r x)
    (hel : g.resolve l = l) (her : g.resolve r = r) (hends : g.mergeEnds l r = some (b, h)) :
    Keeps A den g h := by
  obtain ⟨-, -, rfl⟩ | ⟨-, rfl, -⟩ | ⟨hne, -, ⟨-, rfl⟩ | ⟨-, rfl⟩⟩ := mergeEnds_eq_some hends
  · exact .of_view hd (.refl hg)
  · exact .of_view hd (.refl hg)
  · exact .redirect hg hd hl hr hel her hne
  · exact .redirect hg hd hr hl her hel (Ne.symm hne)

theorem Denotes.children (hd : g.Denotes A den) (hl : den l x) :
    ∀ e ∈ (g.content l).children, ∃ y, A.edge x e.1 y ∧ den e.2 y :=
  fun _ he => hd.child hl (mem_children_iff.1 he)

theorem Denotes.pair (hd : g.Denotes A den) (hl : den l x) (hr : den r x) :
    ∀ n ∈ ({l, r} : Finset Nat), n < g.size ∧ den n x := by
  intro n hn
  rcases Finset.mem_insert.1 hn with rfl | hn
  · exact ⟨hd.lt hl, hl⟩
  · cases Finset.mem_singleton.1 hn
    exact ⟨hd.lt hr, hr⟩

/-- Two nodes that stand for `x` are no longer counted one step below. -/
theorem Denotes.card_add_two_le {y : A.Point} (hd : g.Denotes A den) (hA : A.Acyclic)
    (hl : den l x) (hr : den r x) (hne : l ≠ r) (hy : A.edge x f y) :
    (numbersUnder den g.size y).card + 2 ≤ (numbersUnder den g.size x).card := by
  rw [← Finset.card_pair hne]
  exact hA.card_numbersUnder (fun n x y => hd.unique (n := n)) hy (hd.pair hl hr)

theorem Denotes.two_le_card (hd : g.Denotes A den) (hl : den l x) (hr : den r x) (hne : l ≠ r) :
    2 ≤ (numbersUnder den g.size x).card := by
  rw [← Finset.card_pair hne]
  refine Finset.card_le_card fun n hn => mem_numbersUnder.2 ?_
  obtain ⟨hlt, hn⟩ := hd.pair hl hr n hn
  exact ⟨hlt, x, hn, .refl⟩

/-- A child stands for the same as the child that `r` has under that feature. -/
theorem Call.At.merge {own : NodeId} {y : A.Point} (hd : g.Denotes A den) (hr : den r x)
    (hy : A.edge x f y) (hc : den c y) (hown : g.child? r f = some own) :
    (Call.merge c own).At A den y := by
  obtain ⟨z, hz, hownz⟩ := hd.child hr hown
  cases A.edge_unique hy hz
  exact ⟨hc, hownz⟩

/-- Calls that are open at one point are at two nodes that stand for it, and these are no longer
counted where the next call is. -/
theorem Returns.nesting {call : Call} (hA : A.Acyclic) (hret : Returns d g call b h)
    (hg : g.Settled) (hd : g.Denotes A den) (hx : call.At A den x) :
    d + call.frames ≤ (numbersUnder den g.size x).card ∧ Keeps A den g h := by
  induction hret generalizing x with
  | @merge g g₁ g₂ h l r l' r' b hl hr hends =>
    obtain ⟨hk, hl', hr', hel, her⟩ := Keeps.dechain_both hg hd hx.1 hx.2 hl hr
    refine ⟨?_, hk.trans (.mergeEnds hk.settled hk.denotes hl' hr' hel her hends)⟩
    exact Finset.card_pos.2 ⟨l, mem_numbersUnder.2 ⟨hd.lt hx.1, x, hx.1, .refl⟩⟩
  | descend hl hr hends _ ih =>
    obtain ⟨hk, hl', hr', -, -⟩ := Keeps.dechain_both hg hd hx.1 hx.2 hl hr
    obtain ⟨hle, hk'⟩ := ih hk.settled hk.denotes ⟨hl', hr', (mergeEnds_eq_none hends).1⟩
    exact ⟨hk.size ▸ hle, hk.trans hk'⟩
  | complex _ hl hr ih =>
    obtain ⟨hxl, hxr, hne⟩ := hx
    obtain ⟨hle, hk⟩ := ih hg hd ⟨⟨_, hxl, hne⟩, hxr, hd.children hxl⟩
    obtain ⟨hk', hl', hr', hel, her⟩ := Keeps.dechain_both hk.settled hk.denotes hxl hxr hl hr
    refine ⟨hle, hk.trans (hk'.trans ?_)⟩
    split
    · exact .of_view hk'.denotes (.refl hk'.settled)
    · rename_i hne'
      exact .redirect hk'.settled hk'.denotes hl' hr' hel her hne'
  | clash _ ih =>
    obtain ⟨hxl, hxr, hne⟩ := hx
    exact ih hg hd ⟨⟨_, hxl, hne⟩, hxr, hd.children hxl⟩
  | done =>
    obtain ⟨⟨l, hxl, hne⟩, hxr, -⟩ := hx
    rw [Call.frames, Nat.zero_add]
    exact ⟨hd.two_le_card hxl hxr hne, .of_view hd (.refl hg)⟩
  | attach hr _ _ ih =>
    obtain ⟨hpair, hxr, hrest⟩ := hx
    obtain ⟨⟨y, hy, hc⟩, hrest⟩ := List.forall_mem_cons.1 hrest
    obtain ⟨hk, ht, het⟩ := Keeps.dechain hg hd hxr hr
    have htlt := hk.denotes.lt ht
    obtain ⟨hs, hsize, -, -⟩ := attach_view hk.settled htlt het _ _
    have hd' := hk.denotes.attach hk.settled htlt het ht hy hc
    obtain ⟨hle, hk'⟩ := ih hs hd' ⟨hpair, hxr, hrest⟩
    exact ⟨(hsize.trans hk.size) ▸ hle, hk.trans (.trans ⟨hs, hd', hsize⟩ hk')⟩
  | next hr hown _ _ ihcall ihrest =>
    obtain ⟨⟨l, hxl, hne⟩, hxr, hrest⟩ := hx
    obtain ⟨⟨y, hy, hc⟩, hrest⟩ := List.forall_mem_cons.1 hrest
    obtain ⟨hk, ht, -⟩ := Keeps.dechain hg hd hxr hr
    obtain ⟨hcall, hk'⟩ := ihcall hk.settled hk.denotes (.merge hk.denotes ht hy hc hown)
    obtain ⟨hle, hk''⟩ := ihrest hk'.settled hk'.denotes ⟨⟨l, hxl, hne⟩, hxr, hrest⟩
    refine ⟨?_, hk.trans (hk'.trans hk'')⟩
    have hroom := hd.card_add_two_le hA hxl hxr hne hy
    rw [hk.size] at hcall
    rw [hk'.size, hk.size] at hle
    simp only [Call.frames] at hcall hle ⊢
    omega
  | stop hr hown _ ih =>
    obtain ⟨⟨l, hxl, hne⟩, hxr, hrest⟩ := hx
    obtain ⟨⟨y, hy, hc⟩, -⟩ := List.forall_mem_cons.1 hrest
    obtain ⟨hk, ht, -⟩ := Keeps.dechain hg hd hxr hr
    obtain ⟨hcall, hk'⟩ := ih hk.settled hk.denotes (.merge hk.denotes ht hy hc hown)
    refine ⟨?_, hk.trans hk'⟩
    have hroom := hd.card_add_two_le hA hxl hxr hne hy
    rw [hk.size] at hcall
    simp only [Call.frames] at hcall ⊢
    omega

end Bound

/-- Without cycles among the classes a merge returns, and its calls nest no deeper than there are
nodes, whether it succeeds or fails. -/
theorem unify_returns {l r : NodeId} (hg : g.Sound given) (hl : l < g.size) (hr : r < g.size)
    (hA : g.AcyclicModulo l r) :
    (∃ d b h, Returns d g (.merge l r) b h) ∧
    ∀ d b h, Returns d g (.merge l r) b h → d ≤ g.size ∧ g.unify l r = (b, h) := by
  have hm := hg.models_classes l r
  have hxl : l < g.size ∧ g.Congruent l r l = g.Congruent l r l := ⟨hl, rfl⟩
  have hxr : r < g.size ∧ g.Congruent l r l = g.Congruent l r r :=
    ⟨hr, Congruent.class_eq_iff.2 .pair⟩
  obtain ⟨b, h, hrun, -⟩ := unifyWithin_size_mergesInto hm hA.classes hxl hxr
  obtain ⟨d, hret⟩ := exists_returns hrun
  refine ⟨⟨d, b, h, hret⟩, fun d b h hret => ?_⟩
  obtain ⟨hle, -⟩ := hret.nesting hA.classes hg.settled hm.denotes ⟨hxl, hxr⟩
  have hd : d ≤ g.size := Nat.le_trans hle (card_numbersUnder_le _)
  have hrun : unifyWithin g.size g l r = some (b, h) := hret.within hd
  exact ⟨hd, by rw [unify, hrun, Option.getD_some]⟩

theorem unify_returns_forked : (∃ d b h, Returns d forked (.merge 0 4) b h) ∧
    ∀ d b h, Returns d forked (.merge 0 4) b h → d ≤ 5 ∧ forked.unify 0 4 = (b, h) :=
  unify_returns (forked_sound : forked.Sound fun _ => False) (by decide) (by decide)
    (acyclicModulo_of_level (fun n => if n = 2 ∨ n = 3 then 0 else 1) (by decide) (by decide)
      (by decide))

end FeatureLogic.Arena
