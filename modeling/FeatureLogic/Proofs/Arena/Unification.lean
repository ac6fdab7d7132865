import FeatureLogic.Arena.Unification
import FeatureLogic.Proofs.Arena.Invariant
/-!
Unification read through denotations. If two nodes stand for one point of an acyclic algebra, then
merging them ends, keeps the denotation, loses nothing, and leaves alone what does not lie below
the point. It succeeds if no point stands for two atoms, or for an atom and a complex node.
-/
set_option autoImplicit false

namespace FeatureLogic.Arena

variable {given : Content → Prop} {g h i : Arena} {A : FeatureAlgebra} {inner : A.Point → Prop}
  {den : NodeId → A.Point → Prop} {n l r : NodeId} {x y : A.Point} {f : Feature}

/-- A sound arena with a denotation in which complex nodes stand for inner points. An inner point
need not have an edge: a node may be complex without children. -/
structure Models (given : Content → Prop) (A : FeatureAlgebra) (inner : A.Point → Prop)
    (den : NodeId → A.Point → Prop) (g : Arena) : Prop where
  sound : g.Sound given
  denotes : g.Denotes A den
  inner_of_complex {n : NodeId} {x : A.Point} :
    den n x → (g.content n).isComplex = true → inner x

/-- `h` is `g` with some nodes merged, all of them in the region `R`. -/
structure Merges (given : Content → Prop) (A : FeatureAlgebra) (inner : A.Point → Prop)
    (den : NodeId → A.Point → Prop) (R : NodeId → Prop) (g h : Arena) : Prop where
  models : Models given A inner den h
  size : h.size = g.size
  grows : g.Grows h
  complex {n : NodeId} : (g.content n).isComplex = true → (h.content n).isComplex = true
  outside {n : NodeId} : ¬ R (g.resolve n) → h.resolve n = g.resolve n ∧ h.content n = g.content n

/-- What is read at a node stays as it is, unless the node has become one with another. Nodes that
end in `E` are left aside. -/
def Absorbs (E : NodeId → Prop) (g h : Arena) : Prop :=
  ∀ n, ¬ E (g.resolve n) → (h.resolve n = g.resolve n ∧ h.content n = g.content n) ∨
    ∃ m, g.resolve m ≠ g.resolve n ∧ h.resolve m = h.resolve n

namespace Absorbs
variable {E : NodeId → Prop}

theorem of_view (hv : SameView g h) : Absorbs E g h :=
  fun _ _ => .inl ⟨by rw [hv.resolve], by rw [hv.content]⟩

theorem mono (hgh : Absorbs (fun _ => False) g h) : Absorbs E g h := fun n _ => hgh n id

theorem trans (hgh : Absorbs E g h) (hhi : Absorbs E h i) (hg : g.Grows h) (hh : h.Grows i) :
    Absorbs E g i := by
  intro n hn
  rcases hgh n hn with ⟨hr, hc⟩ | ⟨m, hm, he⟩
  · rcases hhi n (hr.symm ▸ hn) with ⟨hr', hc'⟩ | ⟨m, hm, he⟩
    · exact .inl ⟨hr'.trans hr, hc'.trans hc⟩
    · exact .inr ⟨m, fun he' => hm (hg.resolve_eq he'), he⟩
  · exact .inr ⟨m, hm, hh.resolve_eq he⟩

theorem redirect (hg : g.Settled) (hl : l < g.size) (hr : r < g.size) (hel : g.resolve l = l)
    (her : g.resolve r = r) (hne : l ≠ r) : Absorbs E g (g.redirect l r) := by
  have hres := resolve_redirect hg hl hr hel her hne
  intro n _
  by_cases hn : g.resolve n = l
  · exact .inr ⟨r, by rw [her, hn]; exact Ne.symm hne, by rw [hres, hres, if_pos hn, her,
      if_neg (Ne.symm hne)]⟩
  · exact .inl ⟨by rw [hres, if_neg hn], by
      rw [content_redirect hg hl hr hel her hne, if_neg hn]⟩

end Absorbs

namespace Models

theorem settled (hg : Models given A inner den g) : g.Settled := hg.sound.settled

theorem of_view (hg : Models given A inner den g) (hv : SameView g h) :
    Models given A inner den h where
  sound := (Builds.of_view hg.sound hv).sound
  denotes := hg.denotes.of_view hv
  inner_of_complex hx hc := hg.inner_of_complex hx (hv.content ▸ hc)

end Models

namespace Merges
variable {R S : NodeId → Prop}

theorem denotes (hgh : Merges given A inner den R g h) : h.Denotes A den := hgh.models.denotes

theorem settled (hgh : Merges given A inner den R g h) : h.Settled := hgh.models.settled

theorem wellFormed (hgh : Merges given A inner den R g h) (hgiven : ¬ given (.complex .empty)) :
    h.WellFormed :=
  hgh.models.sound.wellFormed hgiven

theorem of_view (hg : Models given A inner den g) (hv : SameView g h) :
    Merges given A inner den R g h :=
  ⟨hg.of_view hv, hv.size, hv.grows hg.settled, fun hc => hv.content ▸ hc,
    fun _ => ⟨by rw [hv.resolve], by rw [hv.content]⟩⟩

theorem trans (hgh : Merges given A inner den R g h) (hhi : Merges given A inner den R h i) :
    Merges given A inner den R g i where
  models := hhi.models
  size := hhi.size.trans hgh.size
  grows := hgh.grows.trans hhi.grows
  complex hc := hhi.complex (hgh.complex hc)
  outside hn := by
    obtain ⟨hr, hc⟩ := hgh.outside hn
    obtain ⟨hr', hc'⟩ := hhi.outside (hr.symm ▸ hn)
    exact ⟨hr'.trans hr, hc'.trans hc⟩

theorem mono (hRS : ∀ m, R m → S m) (hgh : Merges given A inner den R g h) :
    Merges given A inner den S g h :=
  ⟨hgh.models, hgh.size, hgh.grows, hgh.complex, fun hn => hgh.outside (mt (hRS _) hn)⟩

theorem redirect (hg : Models given A inner den g) (hl : den l x) (hr : den r x)
    (hel : g.resolve l = l) (her : g.resolve r = r) (hne : l ≠ r) (hR : R l)
    (hatom : ∀ a, g.content l = .atom a → g.content r = .atom a)
    (hcomplex : (g.content l).isComplex = true → (g.content r).isComplex = true)
    (hchild : ∀ f c, g.child? l f = some c →
      ∃ d, g.child? r f = some d ∧ g.resolve d = g.resolve c) :
    Merges given A inner den R g (g.redirect l r) ∧
      (g.redirect l r).resolve l = (g.redirect l r).resolve r := by
  have hs := hg.settled
  have hd := hg.denotes
  have hres := resolve_redirect hs (hd.lt hl) (hd.lt hr) hel her hne
  have hcon := content_redirect hs (hd.lt hl) (hd.lt hr) hel her hne
  refine ⟨⟨⟨?_, ?_, ?_⟩, size_redirect g l r, ?_, ?_, ?_⟩, ?_⟩
  · exact (Follows.redirect hg.sound (hd.lt hl) (hd.lt hr) hel her hne).sound
  · exact hd.redirect hs hel her hne hl hr
  · intro n z hz hc
    rw [hcon] at hc
    split at hc
    · rename_i hn
      exact hd.unique hl (hn ▸ hd.resolve hz) ▸ hg.inner_of_complex hr hc
    · exact hg.inner_of_complex hz hc
  · exact .redirect hs (hd.lt hl) (hd.lt hr) hel her hne hatom hchild
  · intro n hc
    rw [hcon]
    split
    · rename_i hn
      refine hcomplex ?_
      rwa [← hn, hs.content_resolve]
    · exact hc
  · intro n hn
    have hnl : g.resolve n ≠ l := fun he => hn (he ▸ hR)
    exact ⟨by rw [hres, if_neg hnl], by rw [hcon, if_neg hnl]⟩
  · rw [hres, hres, if_pos hel, her, if_neg (Ne.symm hne)]

end Merges

/-- The nodes that stand for points below `x`. -/
def Under (A : FeatureAlgebra) (den : NodeId → A.Point → Prop) (x : A.Point) (n : NodeId) : Prop :=
  ∃ z, den n z ∧ A.Below x z

/-- No point has two atoms, and no inner point has one. -/
structure NoClash (A : FeatureAlgebra) (inner : A.Point → Prop) : Prop where
  label_unique {x : A.Point} {a b : Atom} : A.label x a → A.label x b → a = b
  not_inner {x : A.Point} {a : Atom} : A.label x a → ¬ inner x

/-- `h` is `g` after a merge of `l` and `r`, which stand for `x`; `b` tells whether it succeeded. -/
structure MergesInto (given : Content → Prop) (A : FeatureAlgebra) (inner : A.Point → Prop)
    (den : NodeId → A.Point → Prop) (x : A.Point) (g : Arena) (l r : NodeId) (b : Bool)
    (h : Arena) : Prop where
  merges : Merges given A inner den (Under A den x) g h
  resolve_eq : b = true → h.resolve l = h.resolve r
  absorbs : b = true → Absorbs (fun _ => False) g h
  succeeds : NoClash A inner → b = true

/-- What is asked of a merge of two nodes that stand for `x`. -/
def MergesAt (given : Content → Prop)
    (merge : Arena → NodeId → NodeId → Option (Bool × Arena)) (A : FeatureAlgebra)
    (inner : A.Point → Prop) (den : NodeId → A.Point → Prop) (x : A.Point) : Prop :=
  ∀ g l r, Models given A inner den g → den l x → den r x →
    ∃ b h, merge g l r = some (b, h) ∧ MergesInto given A inner den x g l r b h

/-! ## Children -/

/-- `r` and the nodes that stand for points strictly below `x`. -/
def Around (A : FeatureAlgebra) (den : NodeId → A.Point → Prop) (x : A.Point) (r m : NodeId) :
    Prop :=
  m = r ∨ ∃ z, den m z ∧ Relation.TransGen A.Step x z

theorem Around.of_under (hy : A.edge x f y) (hn : Under A den y n) : Around A den x r n := by
  obtain ⟨z, hz, hyz⟩ := hn
  exact .inr ⟨z, hz, Relation.TransGen.head' ⟨f, hy⟩ hyz⟩

theorem Around.under (hr : den r x) (hn : Around A den x r n) : Under A den x n := by
  rcases hn with rfl | ⟨z, hz, hxz⟩
  · exact ⟨x, hr, .refl⟩
  · exact ⟨z, hz, hxz.to_reflTransGen⟩

/-- A child that `r` has not got yet. -/
theorem Merges.attach (hg : Models given A inner den g) (hr : den r x) (her : g.resolve r = r)
    (hinner : inner x) (hatom : ∀ a, g.content r ≠ .atom a) (hfree : g.child? r f = none)
    (hy : A.edge x f y) {c : NodeId} (hc : den c y) :
    Merges given A inner den (Around A den x r) g (g.attach r f c) ∧
      (g.attach r f c).resolve r = r ∧ (∀ a, (g.attach r f c).content r ≠ .atom a) ∧
      (g.attach r f c).child? r f = some c := by
  have hs := hg.settled
  have hd := hg.denotes
  obtain ⟨-, hsize, hres, hcon⟩ := attach_view hs (hd.lt hr) her f c
  refine ⟨⟨⟨(Builds.attach hg.sound (hd.lt hr) her f (hd.lt hc)).sound,
    hd.attach hs (hd.lt hr) her hr hy hc, ?_⟩, hsize, .attach hs (hd.lt hr) her hfree hatom, ?_,
    fun {n} hn => ⟨hres n, ?_⟩⟩, ?_, fun a => ?_, ?_⟩
  · intro n z hz hn
    rw [hcon] at hn
    split at hn
    · rename_i hnr
      exact hd.unique hr (hnr ▸ hd.resolve hz) ▸ hinner
    · exact hg.inner_of_complex hz hn
  · intro n hn
    rw [hcon]
    split
    · exact Content.isComplex_adjoin _ _ _
    · exact hn
  · rw [hcon, if_neg fun he => hn (.inl he)]
  · rw [hres, her]
  · rw [hcon, if_pos her]
    exact Content.adjoin_ne_atom _ _ _ _
  · rw [child?_attach hs (hd.lt hr) her, if_pos ⟨her, rfl⟩]

theorem Absorbs.attach (hg : g.Settled) (hr : r < g.size) (her : g.resolve r = r) (c : NodeId) :
    Absorbs (· = r) g (g.attach r f c) := by
  obtain ⟨-, -, hres, hcon⟩ := attach_view hg hr her f c
  exact fun n hn => .inl ⟨hres n, by rw [hcon, if_neg hn]⟩

/-- While the children of a node at `x` go into `r`, the nodes touched are `r` and those strictly
below `x`, so the children that are still to come stay as they are. -/
theorem mergeChildren_merges {merge : Arena → NodeId → NodeId → Option (Bool × Arena)}
    (hmerge : ∀ f y, A.edge x f y → MergesAt given merge A inner den y)
    (hx : ¬ Relation.TransGen A.Step x x) (hinner : inner x) (hr : den r x)
    (rest : List (Feature × NodeId)) (hg : Models given A inner den g) (her : g.resolve r = r)
    (hatom : ∀ a, g.content r ≠ .atom a)
    (hrest : ∀ e ∈ rest, ∃ y, A.edge x e.1 y ∧ den e.2 y) :
    ∃ b h, mergeChildren merge r rest g = some (b, h) ∧
      Merges given A inner den (Around A den x r) g h ∧ h.resolve r = r ∧
      (b = true → Absorbs (· = r) g h ∧
        ∀ e ∈ rest, ∃ d, h.child? r e.1 = some d ∧ h.resolve d = h.resolve e.2) ∧
      (NoClash A inner → b = true) := by
  induction rest generalizing g with
  | nil =>
    have hv := SameView.refl hg.settled
    exact ⟨true, g, rfl, .of_view hg hv, her, fun _ => ⟨.of_view hv, by simp⟩, fun _ => rfl⟩
  | cons e rest ih =>
    obtain ⟨f, c⟩ := e
    obtain ⟨⟨y, hy, hc⟩, hrest⟩ := List.forall_mem_cons.1 hrest
    rcases hdc : g.dechain r with ⟨t, g₁⟩
    obtain ⟨rfl, hv⟩ := dechain_spec hg.settled hdc
    rw [her] at hdc
    have hg₁ := hg.of_view hv
    have hd₁ := hg₁.denotes
    have her₁ : g₁.resolve r = r := by rw [hv.resolve, her]
    have hatom₁ : ∀ a, g₁.content r ≠ .atom a := by rwa [hv.content]
    have hm₁ : Merges given A inner den (Around A den x r) g g₁ := .of_view hg hv
    have ha₁ : Absorbs (· = r) g g₁ := .of_view hv
    simp only [mergeChildren, hdc, List.forall_mem_cons]
    cases hown : g₁.child? r f with
    | none =>
      obtain ⟨hm₂, her₂, hatom₂, hnew⟩ :=
        Merges.attach hg₁ hr her₁ hinner hatom₁ hown hy hc
      have ha₂ : Absorbs (· = r) g₁ (g₁.attach r f c) :=
        .attach hg₁.settled (hd₁.lt hr) her₁ c
      obtain ⟨b, h, hrun, hm₃, hr₃, hall, hcons⟩ := ih hm₂.models her₂ hatom₂ hrest
      refine ⟨b, h, hrun, hm₁.trans (hm₂.trans hm₃), hr₃, fun hb => ?_, hcons⟩
      obtain ⟨ha₃, hrest₃⟩ := hall hb
      exact ⟨ha₁.trans (ha₂.trans ha₃ hm₂.grows hm₃.grows) hm₁.grows (hm₂.grows.trans hm₃.grows),
        hm₃.grows.child hnew, hrest₃⟩
    | some own =>
      obtain ⟨y', hy', hown'⟩ := hd₁.child hr hown
      cases A.edge_unique hy hy'
      obtain ⟨b, g₂, hrun, hm₂, heq, ha₂, hcons⟩ := hmerge f y hy g₁ c own hg₁ hc hown'
      have hm₁₂ := hm₁.trans (hm₂.mono fun _ => Around.of_under hy)
      have hfar : ¬ Under A den y (g₁.resolve r) := by
        rintro ⟨z, hz, hyz⟩
        rw [her₁] at hz
        cases hd₁.unique hr hz
        exact hx (Relation.TransGen.head' ⟨f, hy⟩ hyz)
      obtain ⟨hres₂, hcon₂⟩ := hm₂.outside hfar
      rw [her₁] at hres₂
      cases b with
      | false => exact ⟨false, g₂, by simp [hrun], hm₁₂, hres₂, by simp, hcons⟩
      | true =>
        have hatom₂ : ∀ a, g₂.content r ≠ .atom a := by rwa [hcon₂]
        obtain ⟨b, h, hrun', hm₃, hr₃, hall, hcons'⟩ := ih hm₂.models hres₂ hatom₂ hrest
        refine ⟨b, h, by simp [hrun, hrun'], hm₁₂.trans hm₃, hr₃, fun hb => ?_, hcons'⟩
        obtain ⟨ha₃, hrest₃⟩ := hall hb
        obtain ⟨d, hd, hde⟩ := (hm₂.grows.trans hm₃.grows).child hown
        exact ⟨ha₁.trans ((ha₂ rfl).mono.trans ha₃ hm₂.grows hm₃.grows) hm₁.grows
          (hm₂.grows.trans hm₃.grows), ⟨d, hd, hde.trans (hm₃.grows.resolve_eq (heq rfl).symm)⟩,
          hrest₃⟩

/-! ## Ends of chains -/

theorem MergesInto.symm {b : Bool} (h' : MergesInto given A inner den x g l r b h) :
    MergesInto given A inner den x g r l b h :=
  ⟨h'.merges, fun hb => (h'.resolve_eq hb).symm, h'.absorbs, h'.succeeds⟩

/-- Two ends of chains that stand for `x`. -/
structure Ends (given : Content → Prop) (A : FeatureAlgebra) (inner : A.Point → Prop)
    (den : NodeId → A.Point → Prop) (x : A.Point) (g : Arena) (l r : NodeId) : Prop where
  models : Models given A inner den g
  left : den l x
  right : den r x
  resolve_left : g.resolve l = l
  resolve_right : g.resolve r = r

namespace Ends
variable (he : Ends given A inner den x g l r)
include he

theorem symm : Ends given A inner den x g r l :=
  ⟨he.models, he.right, he.left, he.resolve_right, he.resolve_left⟩

theorem unchanged : Merges given A inner den (Under A den x) g g :=
  .of_view he.models (.refl he.models.settled)

/-- One end made to forward to the other, which has all that it has. -/
theorem redirect (hne : l ≠ r) (hatom : ∀ a, g.content l = .atom a → g.content r = .atom a)
    (hcomplex : (g.content l).isComplex = true → (g.content r).isComplex = true)
    (hchild : ∀ f c, g.child? l f = some c →
      ∃ d, g.child? r f = some d ∧ g.resolve d = g.resolve c) :
    MergesInto given A inner den x g l r true (g.redirect l r) := by
  obtain ⟨hm, heq⟩ := Merges.redirect he.models he.left he.right he.resolve_left
    he.resolve_right hne (R := Under A den x) ⟨x, he.left, .refl⟩ hatom hcomplex hchild
  have hd := he.models.denotes
  exact ⟨hm, fun _ => heq, fun _ => .redirect he.models.settled (hd.lt he.left) (hd.lt he.right)
    he.resolve_left he.resolve_right hne, fun _ => rfl⟩

theorem redirect_leaf (hne : l ≠ r) (hy : g.Yields l r) :
    MergesInto given A inner den x g l r true (g.redirect l r) :=
  he.redirect hne (fun _ => hy.atom) (fun hc => absurd hc hy.not_complex)
    fun f c hc => absurd (hc.symm.trans (hy.child?_eq_none f)) (by simp)

theorem not_noClash (hc : Clash (g.content l) (g.content r)) : ¬ NoClash A inner := by
  intro hA
  have hm := he.models
  have hd := hm.denotes
  generalize hl : g.content l = content at hc
  generalize hr : g.content r = content' at hc
  cases hc with
  | atoms hne => exact hne (hA.label_unique (hd.atom he.left hl) (hd.atom he.right hr))
  | atom_complex a children =>
    exact hA.not_inner (hd.atom he.left hl) (hm.inner_of_complex he.right (by rw [hr]; rfl))
  | complex_atom children a =>
    exact hA.not_inner (hd.atom he.right hr) (hm.inner_of_complex he.left (by rw [hl]; rfl))

theorem mergeEnds {b : Bool} (hends : g.mergeEnds l r = some (b, h)) :
    MergesInto given A inner den x g l r b h := by
  obtain ⟨rfl, rfl, rfl⟩ | ⟨rfl, rfl, hc⟩ | ⟨hne, rfl, ⟨hy, rfl⟩ | ⟨hy, rfl⟩⟩ :=
    mergeEnds_eq_some hends
  · exact ⟨he.unchanged, fun _ => rfl, fun _ => .of_view (.refl he.models.settled), fun _ => rfl⟩
  · exact ⟨he.unchanged, fun hb => (by cases hb), fun hb => (by cases hb),
      fun hA => absurd hA (he.not_noClash hc)⟩
  · exact he.redirect_leaf hne hy
  · exact (he.symm.redirect_leaf (Ne.symm hne) hy).symm

/-- Both ends are looked up anew after their children have been merged. They still are ends, since
merges below `x` leave them alone. -/
theorem complex {k : Nat} (hx : A.Height (k + 1) x)
    (ih : ∀ {y}, A.Height k y → MergesAt given (unifyWithin k) A inner den y) (hne : l ≠ r)
    (hl : (g.content l).isComplex = true) (hr : (g.content r).isComplex = true) :
    ∃ b h, mergeComplex (unifyWithin k) g l r = some (b, h) ∧
      MergesInto given A inner den x g l r b h := by
  obtain ⟨b, h, hrun, hm, hresr, hall, hcons⟩ := mergeChildren_merges
    (fun f y hy => ih (hx f y hy)) hx.not_strictlyBelow (he.models.inner_of_complex he.right hr)
    he.right (g.content l).children he.models he.resolve_right (Content.ne_atom_of_isComplex hr)
    (fun e hmem => he.models.denotes.child he.left (mem_children_iff.1 hmem))
  have hm' := hm.mono fun _ => Around.under he.right
  cases b with
  | false =>
    exact ⟨false, h, by rw [mergeComplex, hrun], hm', fun hb => (by cases hb),
      fun hb => (by cases hb), hcons⟩
  | true =>
    have hfar : ¬ Around A den x r (g.resolve l) := by
      rw [he.resolve_left]
      rintro (rfl | ⟨z, hz, hxz⟩)
      · exact hne rfl
      · cases he.models.denotes.unique he.left hz
        exact hx.not_strictlyBelow hxz
    obtain ⟨hresl, hconl⟩ := hm.outside hfar
    rw [he.resolve_left] at hresl
    rcases hdl : h.dechain l with ⟨l', i⟩
    rcases hdr : i.dechain r with ⟨r', j⟩
    obtain ⟨rfl, rfl, hv⟩ := dechain_both hm.settled hdl hdr
    have hends : Ends given A inner den x j l r :=
      ⟨hm.models.of_view hv, he.left, he.right,
        by rw [hv.resolve, hresl], by rw [hv.resolve, hresr]⟩
    obtain ⟨habsorbs, hchildren⟩ := hall rfl
    have hinto := hends.redirect hne (fun a ha => ?_) (fun _ => ?_) fun f c hc => ?_
    · have hmv : Merges given A inner den (Under A den x) g j :=
        hm'.trans (.of_view hm.models hv)
      have habsorbs' : Absorbs (· = r) g (j.redirect l r) :=
        (habsorbs.trans (.of_view hv) hm.grows (hv.grows hm.settled)).trans
          (hinto.absorbs rfl).mono hmv.grows hinto.merges.grows
      refine ⟨true, j.redirect l r, ?_, hmv.trans hinto.merges, hinto.resolve_eq,
        fun _ n _ => ?_, hinto.succeeds⟩
      · simp only [mergeComplex, hrun, hdl, hdr, hresl, hresr, if_neg hne]
      · by_cases hn : g.resolve n = r
        · -- what `r` has been given comes with `l`
          have hnr := (hmv.trans hinto.merges).grows.resolve n
          rw [hn] at hnr
          exact .inr ⟨l, by rwa [he.resolve_left, hn], (hinto.resolve_eq rfl).trans hnr⟩
        · exact habsorbs' n hn
    · rw [hv.content, hconl] at ha
      exact absurd ha (Content.ne_atom_of_isComplex hl a)
    · rw [hv.content]
      exact hm.complex hr
    · rw [hv.child?, child?_eq, hconl, ← child?_eq] at hc
      simpa only [hv.child?, hv.resolve] using hchildren (f, c) (mem_children_iff.2 hc)

end Ends

/-- A merge of the ends of two chains merges the nodes that these start from. -/
theorem MergesInto.of_ends {b : Bool} (hg : Models given A inner den g) (hv : SameView g h)
    (hm : MergesInto given A inner den x h (g.resolve l) (g.resolve r) b i) :
    MergesInto given A inner den x g l r b i := by
  have hm₁ : Merges given A inner den (Under A den x) g h := .of_view hg hv
  have hm' := hm₁.trans hm.merges
  refine ⟨hm', fun hb => ?_, fun hb => ?_, hm.succeeds⟩
  · rw [← hm'.grows.resolve l, ← hm'.grows.resolve r, hm.resolve_eq hb]
  · exact (Absorbs.of_view hv).trans (hm.absorbs hb) hm₁.grows hm.merges.grows

theorem unifyWithin_merges (k : Nat) (hx : A.Height k x) :
    MergesAt given (unifyWithin k) A inner den x := by
  induction k generalizing x with
  | zero => exact hx.elim
  | succ k ih =>
    intro g l r hg hl hr
    rcases hdl : g.dechain l with ⟨l', g₁⟩
    rcases hdr : g₁.dechain r with ⟨r', g₂⟩
    obtain ⟨rfl, rfl, hv⟩ := dechain_both hg.settled hdl hdr
    have he : Ends given A inner den x g₂ (g.resolve l) (g.resolve r) :=
      ⟨hg.of_view hv, hg.denotes.resolve hl, hg.denotes.resolve hr,
        by rw [hv.resolve, hg.settled.resolve_resolve],
        by rw [hv.resolve, hg.settled.resolve_resolve]⟩
    have hinto : ∀ {b h}, MergesInto given A inner den x g₂ (g.resolve l) (g.resolve r) b h →
        MergesInto given A inner den x g l r b h := .of_ends hg hv
    rw [unifyWithin_succ hdl hdr]
    cases hends : g₂.mergeEnds (g.resolve l) (g.resolve r) with
    | some outcome =>
      obtain ⟨b, h⟩ := outcome
      exact ⟨b, h, rfl, hinto (he.mergeEnds hends)⟩
    | none =>
      obtain ⟨hne, hcl, hcr⟩ := mergeEnds_eq_none hends
      obtain ⟨b, h, hrun, hm⟩ := he.complex hx ih hne hcl hcr
      exact ⟨b, h, hrun, hinto hm⟩

/-- The nodes on the way down stand for different points, so the size of the arena is depth
enough. -/
theorem unifyWithin_size_mergesInto (hg : Models given A inner den g) (hA : A.Acyclic)
    (hl : den l x) (hr : den r x) : ∃ b h, unifyWithin g.size g l r = some (b, h) ∧
      MergesInto given A inner den x g l r b h := by
  let covered (y : A.Point) : Prop := ∃ n, den n y
  have hd := hg.denotes
  have hheight : (A.restrict covered).Height g.size x := by
    refine (hA.restrict covered).height den (fun n x y => hd.unique) ?_
      ⟨l, hd.lt hl, hl⟩
    rintro x f y ⟨-, n, hn⟩
    exact ⟨n, hd.lt hn, hn⟩
  obtain ⟨b, h, hrun, hm, heq, habsorbs, hcons⟩ := unifyWithin_merges g.size hheight g l r
    ⟨hg.sound, hd.restrict, hg.inner_of_complex⟩ hl hr
  refine ⟨b, h, hrun, ⟨⟨hm.models.sound, hm.denotes.of_restrict, hm.models.inner_of_complex⟩,
    hm.size, hm.grows, hm.complex, ?_⟩, heq, habsorbs,
    fun hA => hcons ⟨hA.label_unique, hA.not_inner⟩⟩
  intro n hn
  refine hm.outside (mt ?_ hn)
  rintro ⟨z, hz, hxz⟩
  exact ⟨z, hz, FeatureAlgebra.Below.of_restrict hxz⟩

theorem unify_mergesInto (hg : Models given A inner den g) (hA : A.Acyclic) (hl : den l x)
    (hr : den r x) :
    MergesInto given A inner den x g l r (g.unify l r).1 (g.unify l r).2 := by
  obtain ⟨b, h, hrun, hm⟩ := unifyWithin_size_mergesInto hg hA hl hr
  simpa only [unify, hrun, Option.getD_some] using hm

/-- In a well-formed arena the inner points are those with edges. -/
theorem WellFormed.models (hg : g.WellFormed) (hd : g.Denotes A den) :
    Models (· = .atom .null) A (fun x => ∃ f y, A.edge x f y) den g where
  sound := .of_wellFormed hg
  denotes := hd
  inner_of_complex {n x} hx hc := by
    cases hcon : g.content n with
    | complex children =>
      obtain ⟨f, c, hfc⟩ := hg.child_of_complex hcon
      obtain ⟨y, hy, -⟩ := hd.child hx hfc
      exact ⟨f, y, hy⟩
    | empty =>
      rw [hcon] at hc
      cases hc
    | atom a =>
      rw [hcon] at hc
      cases hc

theorem unify_merges (hg : g.WellFormed) (hd : g.Denotes A den) (hA : A.Acyclic)
    (hl : den l x) (hr : den r x) :
    (g.unify l r).2.WellFormed ∧ (g.unify l r).2.Denotes A den ∧ g.Grows (g.unify l r).2 ∧
      (g.unify l r).2.size = g.size ∧
      ((g.unify l r).1 = true → (g.unify l r).2.resolve l = (g.unify l r).2.resolve r) ∧
      (A.Consistent → (g.unify l r).1 = true) := by
  obtain ⟨hm, heq, -, hcons⟩ := unify_mergesInto (hg.models hd) hA hl hr
  refine ⟨hm.wellFormed (by simp), hm.denotes, hm.grows, hm.size, heq, fun hA => hcons ?_⟩
  exact ⟨hA.label_unique, fun ha ⟨_, _, hy⟩ => hA.no_edge ha hy⟩

end FeatureLogic.Arena
