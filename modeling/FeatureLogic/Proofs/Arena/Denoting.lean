import FeatureLogic.Proofs.Arena.Lookup
import FeatureLogic.Proofs.FeatureAlgebra
/-!
What the nodes of an arena stand for. A denotation sends nodes to points of a feature algebra so
that chains, children and atoms are respected; it may leave nodes out, but no node below one it
takes in. Every step of the engine keeps the denotations that agree on what it merges.
-/
set_option autoImplicit false

namespace FeatureLogic.Arena

structure Denotes (g : Arena) (A : FeatureAlgebra) (den : NodeId → A.Point → Prop) : Prop where
  lt {n : NodeId} {x : A.Point} : den n x → n < g.size
  unique {n : NodeId} {x y : A.Point} : den n x → den n y → x = y
  resolve {n : NodeId} {x : A.Point} : den n x → den (g.resolve n) x
  child {n c : NodeId} {x : A.Point} {f : Feature} :
    den n x → g.child? n f = some c → ∃ y, A.edge x f y ∧ den c y
  atom {n : NodeId} {x : A.Point} {a : Atom} : den n x → g.content n = .atom a → A.label x a

variable {g h : Arena} {A : FeatureAlgebra} {den : NodeId → A.Point → Prop}
  {n m l r c : NodeId} {x y : A.Point} {f : Feature} {p : Path} {a : Atom}

theorem attach_view (hg : g.Settled) (hn : n < g.size) (he : g.resolve n = n) (f : Feature)
    (c : NodeId) : (g.attach n f c).Settled ∧ (g.attach n f c).size = g.size ∧
      (∀ m, (g.attach n f c).resolve m = g.resolve m) ∧
      ∀ m, (g.attach n f c).content m =
        if g.resolve m = n then (g.content n).adjoin f c else g.content m := by
  rw [attach_eq hg hn he]
  exact ⟨settled_set_holds hg hn he _, size_set .., resolve_set_holds hg hn he _,
    content_set_holds hg hn he _⟩

theorem child?_attach (hg : g.Settled) (hn : n < g.size) (he : g.resolve n = n) (f f' : Feature)
    (c m : NodeId) : (g.attach n f c).child? m f' =
      if g.resolve m = n ∧ f = f' then some c else g.child? m f' := by
  rw [child?_eq, (attach_view hg hn he f c).2.2.2, child?_eq]
  by_cases hm : g.resolve m = n
  · have hcontent : g.content n = g.content m := by rw [← hm, hg.content_resolve]
    simp only [hm, if_true, true_and, Content.child?_adjoin, hcontent]
  · simp [hm]

namespace Bounded
variable (hg : g.Bounded)
include hg

theorem attach (hn : n < g.size) (he : g.resolve n = n) (f : Feature) (hc : c < g.size) :
    (g.attach n f c).Bounded := by
  obtain ⟨hs, hsize, -, -⟩ := attach_view hg.settled hn he f c
  refine ⟨hs, fun {m f' d} hd => ?_⟩
  rw [child?_attach hg.settled hn he] at hd
  rw [hsize]
  split at hd
  · cases hd
    exact hc
  · exact hg.child_lt hd

theorem alloc (c : Content) (hlt : ∀ f d, c.child? f = some d → d < g.size) :
    (g.alloc c).2.Bounded := by
  refine ⟨settled_alloc hg.settled c, fun {m f d} hd => ?_⟩
  rw [child?_alloc hg.settled] at hd
  rw [size_alloc]
  split at hd
  · exact Nat.lt_succ_of_lt (hlt f d hd)
  · exact Nat.lt_succ_of_lt (hg.child_lt hd)

theorem alloc_leaf (a : Atom) : (g.alloc (.leaf a)).2.Bounded := by
  refine hg.alloc _ fun f d hd => ?_
  simp [Content.child?_leaf] at hd

end Bounded

namespace WellFormed
variable (hg : g.WellFormed)
include hg

theorem attach (hn : n < g.size) (he : g.resolve n = n) (f : Feature) (hc : c < g.size) :
    (g.attach n f c).WellFormed := by
  obtain ⟨hs, -, -, hcon⟩ := attach_view hg.settled hn he f c
  refine ⟨hs, (hg.bounded.attach hn he f hc).child_lt, ?_⟩
  intro m children hm
  by_cases hmn : g.resolve m = n
  · exact ⟨f, c, by rw [child?_attach hg.settled hn he, if_pos ⟨hmn, rfl⟩]⟩
  · rw [hcon, if_neg hmn] at hm
    obtain ⟨f', d, hd⟩ := hg.child_of_complex hm
    exact ⟨f', d, by rw [child?_attach hg.settled hn he, if_neg (by simp [hmn]), hd]⟩

theorem alloc (c : Content) (hlt : ∀ f d, c.child? f = some d → d < g.size)
    (hne : ∀ children, c = .complex children → ∃ f d, c.child? f = some d) :
    (g.alloc c).2.WellFormed := by
  refine ⟨settled_alloc hg.settled c, (hg.bounded.alloc c hlt).child_lt, ?_⟩
  · intro m children hm
    simp only [child?_alloc hg.settled, content_alloc hg.settled] at hm ⊢
    split at hm
    · rename_i h
      simpa only [h, if_true] using hne children hm
    · rename_i h
      simpa only [h, if_false] using hg.child_of_complex hm

theorem alloc_leaf (a : Atom) : (g.alloc (.leaf a)).2.WellFormed := by
  refine hg.alloc _ ?_ ?_
  · intro f d hd
    simp [Content.child?_leaf] at hd
  · intro children hc
    unfold Content.leaf at hc
    split at hc <;> cases hc

end WellFormed

namespace Denotes
variable (hd : g.Denotes A den)
include hd

theorem entry {children : SortedMap Feature NodeId} (hx : den n x)
    (hcon : g.content n = .complex children) :
    ∀ e ∈ children.entries, ∃ y, A.edge x e.1 y ∧ den e.2 y := by
  intro e he
  refine hd.child hx ?_
  rw [child?_eq, hcon]
  exact (SortedMap.get?_eq_some_iff children).2 he

theorem of_view (hv : SameView g h) : h.Denotes A den where
  lt hx := hv.size ▸ hd.lt hx
  unique := hd.unique
  resolve hx := hv.resolve ▸ hd.resolve hx
  child hx hc := hd.child hx (hv.child? .. ▸ hc)
  atom hx ha := hd.atom hx (hv.content ▸ ha)

theorem attach (hg : g.Settled) (hn : n < g.size) (he : g.resolve n = n) (hx : den n x)
    (hy : A.edge x f y) (hc : den c y) : (g.attach n f c).Denotes A den := by
  obtain ⟨hs, hsize, hres, hcon⟩ := attach_view hg hn he f c
  refine ⟨fun hz => hsize ▸ hd.lt hz, hd.unique, fun hz => hres _ ▸ hd.resolve hz, ?_, ?_⟩
  · intro m c' z f' hz hc'
    rw [child?_attach hg hn he] at hc'
    split at hc'
    · rename_i hm
      cases hc'
      have hzx : z = x := hd.unique (hm.1 ▸ hd.resolve hz) hx
      exact ⟨y, by rw [hzx, ← hm.2]; exact hy, hc⟩
    · exact hd.child hz hc'
  · intro m z a hz ha
    rw [hcon] at ha
    split at ha
    · exact absurd ha (Content.adjoin_ne_atom _ _ _ _)
    · exact hd.atom hz ha

theorem redirect (hg : g.Settled) (hel : g.resolve l = l) (her : g.resolve r = r) (hne : l ≠ r)
    (hl : den l x) (hr : den r x) : (g.redirect l r).Denotes A den := by
  have hres := resolve_redirect hg (hd.lt hl) (hd.lt hr) hel her hne
  have hcon := content_redirect hg (hd.lt hl) (hd.lt hr) hel her hne
  have hpoint : ∀ {m z}, den m z → g.resolve m = l → z = x := fun hz hm =>
    hd.unique (hm ▸ hd.resolve hz) hl
  refine ⟨fun hz => size_redirect g l r ▸ hd.lt hz, hd.unique, ?_, ?_, ?_⟩
  · intro m z hz
    rw [hres]
    split
    · rename_i hm
      exact hpoint hz hm ▸ hr
    · exact hd.resolve hz
  · intro m c z f hz hc
    rw [child?_eq, hcon] at hc
    split at hc
    · rename_i hm
      exact hpoint hz hm ▸ hd.child hr (by rw [child?_eq, hc])
    · exact hd.child hz (by rw [child?_eq, hc])
  · intro m z a hz ha
    rw [hcon] at ha
    split at ha
    · rename_i hm
      exact hpoint hz hm ▸ hd.atom hr ha
    · exact hd.atom hz ha

/-- The new node may stand for any point that has what it holds. -/
theorem alloc (hg : g.Settled) (c : Content)
    (hchild : ∀ f d, c.child? f = some d → ∃ z, A.edge y f z ∧ den d z)
    (hatom : ∀ a, c = .atom a → A.label y a) :
    (g.alloc c).2.Denotes A (fun n x => den n x ∨ n = g.size ∧ x = y) := by
  have hold : ∀ {m z}, den m z → m ≠ g.size := fun hz => Nat.ne_of_lt (hd.lt hz)
  refine ⟨?_, ?_, ?_, ?_, ?_⟩
  · rintro m z (hz | ⟨rfl, -⟩)
    · exact size_alloc g c ▸ Nat.lt_succ_of_lt (hd.lt hz)
    · exact size_alloc g c ▸ Nat.lt_succ_self _
  · rintro m z w (hz | ⟨rfl, rfl⟩) (hw | ⟨hm, rfl⟩)
    · exact hd.unique hz hw
    · exact absurd hm (hold hz)
    · exact absurd rfl (hold hw)
    · rfl
  · rintro m z (hz | ⟨rfl, rfl⟩)
    · exact .inl (resolve_alloc hg c m ▸ hd.resolve hz)
    · exact .inr ⟨by rw [resolve_alloc hg, resolve_of_size_le (Nat.le_refl _)], rfl⟩
  · rintro m d z f (hz | ⟨rfl, rfl⟩) hc
    · rw [child?_alloc hg, if_neg (hold hz)] at hc
      obtain ⟨w, hw, hden⟩ := hd.child hz hc
      exact ⟨w, hw, .inl hden⟩
    · rw [child?_alloc hg, if_pos rfl] at hc
      obtain ⟨w, hw, hden⟩ := hchild f d hc
      exact ⟨w, hw, .inl hden⟩
  · rintro m z a (hz | ⟨rfl, rfl⟩) ha
    · rw [content_alloc hg, if_neg (hold hz)] at ha
      exact hd.atom hz ha
    · rw [content_alloc hg, if_pos rfl] at ha
      exact hatom a ha

theorem walk (hx : den n x) (hl : g.lookup n p = .found m) : ∃ y, A.Walk x p y ∧ den m y := by
  induction p generalizing n x with
  | nil =>
    cases hl
    exact ⟨x, rfl, hd.resolve hx⟩
  | cons f p ih =>
    obtain ⟨c, hc, hrest⟩ := lookup_cons_eq_found.1 hl
    obtain ⟨z, hz, hden⟩ := hd.child hx hc
    obtain ⟨y, hy, hm⟩ := ih hden hrest
    exact ⟨y, ⟨z, hz, hy⟩, hm⟩

/-- Points that no node stands for can be left out of the algebra. -/
theorem restrict : g.Denotes (A.restrict fun y => ∃ n, den n y) den where
  lt := hd.lt
  unique := hd.unique
  resolve := hd.resolve
  child hx hc := by
    obtain ⟨y, hy, hden⟩ := hd.child hx hc
    exact ⟨y, ⟨hy, _, hden⟩, hden⟩
  atom := hd.atom

end Denotes

theorem Denotes.of_restrict {P : A.Point → Prop} (hd : g.Denotes (A.restrict P) den) :
    g.Denotes A den where
  lt := hd.lt
  unique := hd.unique
  resolve := hd.resolve
  child hx hc := by
    obtain ⟨y, hy, hden⟩ := hd.child hx hc
    exact ⟨y, hy.1, hden⟩
  atom := hd.atom

end FeatureLogic.Arena
