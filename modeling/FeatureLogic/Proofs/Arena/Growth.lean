import FeatureLogic.Proofs.Arena.Denoting
/-!
Growth. An arena grows into another when nodes that were one stay one, atoms stay where they are,
and children stay children. Every path that was found is then still found, and every path that was
blocked is still blocked.
-/
set_option autoImplicit false

namespace FeatureLogic.Arena

structure Grows (g h : Arena) : Prop where
  size_le : g.size ≤ h.size
  resolve (n : NodeId) : h.resolve (g.resolve n) = h.resolve n
  atom {n : NodeId} {a : Atom} : g.content n = .atom a → h.content n = .atom a
  child {n c : NodeId} {f : Feature} :
    g.child? n f = some c → ∃ d, h.child? n f = some d ∧ h.resolve d = h.resolve c

variable {g h i : Arena} {n m l r c : NodeId} {f : Feature} {p : Path} {a : Atom}

theorem SameView.grows (hg : g.Settled) (hv : SameView g h) : g.Grows h where
  size_le := Nat.le_of_eq hv.size.symm
  resolve n := by rw [hv.resolve, hg.resolve_resolve]
  atom ha := by rw [hv.content, ha]
  child hc := ⟨_, (hv.child? ..).trans hc, rfl⟩

namespace Grows

theorem resolve_eq (hgh : g.Grows h) (he : g.resolve n = g.resolve m) :
    h.resolve n = h.resolve m := by
  rw [← hgh.resolve n, ← hgh.resolve m, he]

theorem trans (hgh : g.Grows h) (hhi : h.Grows i) : g.Grows i where
  size_le := Nat.le_trans hgh.size_le hhi.size_le
  resolve n := hhi.resolve_eq (hgh.resolve n)
  atom ha := hhi.atom (hgh.atom ha)
  child hc := by
    obtain ⟨d, hd, hdc⟩ := hgh.child hc
    obtain ⟨e, he, hed⟩ := hhi.child hd
    exact ⟨e, he, hed.trans (hhi.resolve_eq hdc)⟩

theorem lookup (hh : h.Settled) (hgh : g.Grows h) (hl : g.lookup n p = .found m) :
    h.lookup n p = .found (h.resolve m) := by
  induction p generalizing n with
  | nil =>
    cases hl
    simp only [Arena.lookup, hgh.resolve]
  | cons f p ih =>
    obtain ⟨c, hc, hrest⟩ := lookup_cons_eq_found.1 hl
    obtain ⟨d, hd, hdc⟩ := hgh.child hc
    rw [lookup_cons_of_child hd, hh.lookup_congr hdc]
    exact ih hrest

/-- To add a child under a feature that is absent. -/
theorem attach (hg : g.Settled) (hn : n < g.size) (he : g.resolve n = n)
    (hfree : g.child? n f = none) (ha : ∀ a, g.content n ≠ .atom a) :
    g.Grows (g.attach n f c) := by
  obtain ⟨hs, hsize, hres, hcon⟩ := attach_view hg hn he f c
  refine ⟨Nat.le_of_eq hsize.symm, ?_, ?_, ?_⟩
  · intro m
    rw [hres, hres, hg.resolve_resolve]
  · intro m a hm
    have hmn : g.resolve m ≠ n := by
      rintro rfl
      exact ha a (hg.content_resolve m ▸ hm)
    rw [hcon, if_neg hmn, hm]
  · intro m d f' hd
    have hmn : ¬ (g.resolve m = n ∧ f = f') := by
      rintro ⟨rfl, rfl⟩
      rw [hg.child?_congr (hg.resolve_resolve m), hd] at hfree
      cases hfree
    exact ⟨d, by rw [child?_attach hg hn he, if_neg hmn, hd], rfl⟩

/-- To forward a node to one that has all that it holds. -/
theorem redirect (hg : g.Settled) (hl : l < g.size) (hr : r < g.size) (hel : g.resolve l = l)
    (her : g.resolve r = r) (hne : l ≠ r)
    (hatom : ∀ a, g.content l = .atom a → g.content r = .atom a)
    (hchild : ∀ f c, g.child? l f = some c →
      ∃ d, g.child? r f = some d ∧ g.resolve d = g.resolve c) :
    g.Grows (g.redirect l r) := by
  have hres := resolve_redirect hg hl hr hel her hne
  have hcon := content_redirect hg hl hr hel her hne
  have hl' : ∀ {m}, g.resolve m = l → g.content m = g.content l := fun hm => by
    rw [← hm, hg.content_resolve]
  refine ⟨Nat.le_of_eq (size_redirect g l r).symm, ?_, ?_, ?_⟩
  · intro m
    rw [hres, hres, hg.resolve_resolve]
  · intro m a hm
    rw [hcon]
    split
    · rename_i h
      exact hatom a (hl' h ▸ hm)
    · exact hm
  · intro m c f hc
    rw [child?_eq, hcon]
    split
    · rename_i h
      rw [child?_eq, hl' h, ← child?_eq] at hc
      obtain ⟨d, hd, hdc⟩ := hchild f c hc
      exact ⟨d, by rw [← child?_eq, hd], by rw [hres, hres, hdc]⟩
    · exact ⟨c, by rw [← child?_eq, hc], rfl⟩

theorem alloc (hg : g.Settled) (c : Content) : g.Grows (g.alloc c).2 := by
  have hold : ∀ {m}, g.content m ≠ .empty → m ≠ g.size := by
    rintro m hm rfl
    exact hm (content_of_size_le (Nat.le_refl _))
  refine ⟨by simp, ?_, ?_, ?_⟩
  · intro m
    rw [resolve_alloc hg, resolve_alloc hg, hg.resolve_resolve]
  · intro m a hm
    rw [content_alloc hg, if_neg (hold (by simp [hm])), hm]
  · intro m d f hd
    have hm : g.content m ≠ .empty := by
      intro he
      rw [child?_eq, he] at hd
      cases hd
    exact ⟨d, by rw [child?_alloc hg, if_neg (hold hm), hd], rfl⟩

end Grows

end FeatureLogic.Arena
