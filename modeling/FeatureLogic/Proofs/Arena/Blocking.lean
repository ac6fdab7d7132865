import FeatureLogic.Proofs.Structure.Building
/-!
Blocked paths. A path can be built unless it leads through an atom, and building one puts no atom in
the way of another. So where two paths are to be made one, it does not matter which is built first.
-/
set_option autoImplicit false

namespace FeatureLogic

/-- The path leads through an atom. -/
def Facts.Blocked (F : Facts) (t : PathTerm) : Prop :=
  ∃ u f q a, t = PathTerm.below u (f :: q) ∧ F.value u a

namespace Arena

variable {g h : Arena} {roots : Roots} {t u : PathTerm} {l r n : NodeId} {p : Path} {a : Atom}

theorem lookup_eq_blocked_iff (hg : g.Settled) (hr : roots t.slot = some r) :
    g.lookup r t.path = .blocked ↔ (g.facts roots).Blocked t := by
  refine ⟨exists_value_of_blocked hg hr, ?_⟩
  rintro ⟨u, f, q, a, rfl, ha⟩
  cases hl : g.lookup r (u.below (f :: q)).path with
  | blocked => rfl
  | missing =>
    have hadmits : (g.facts roots).Admits (u.below (f :: q)) fun _ => True :=
      admits_of_missing hg hr hl
    exact absurd ha (hadmits.not_value_above rfl)
  | found n =>
    have hn : g.Leads roots (u.below (f :: q)) n := (leads_iff hr).2 hl
    exact absurd hn.has
      ((hg.consistent_facts roots).not_has_of_value_above (hg.closed_facts roots) ha)

theorem materialize_of_blocked (hg : g.WellFormed) (hr : roots t.slot = some r) (hlt : r < g.size)
    (hb : (g.facts roots).Blocked t) : ∃ e h, g.materialize r t.path = (.error e, h) := by
  obtain ⟨h, hrun⟩ := Arena.materialize_of_lookup_blocked hg.bounded hlt
    ((lookup_eq_blocked_iff hg.settled hr).2 hb)
  exact ⟨.atomicNode, h, hrun⟩

section Paths
variable (hg : g.WellFormed) (hlt : ∀ i r, roots i = some r → r < g.size)
include hg hlt

/-- A path that is not blocked can be built, and no atom is added or moved. -/
theorem materialize_of_not_blocked (hr : roots t.slot = some r)
    (hb : ¬ (g.facts roots).Blocked t) : ∃ n h, g.materialize r t.path = (.ok n, h) ∧
      h.WellFormed ∧ g.Grows h ∧ (h.facts roots).value = (g.facts roots).value := by
  have hG := hg.settled.closed_facts roots
  have hroot : (g.facts roots).Has ⟨t.slot, []⟩ := by
    have hn : g.Leads roots ⟨t.slot, []⟩ (g.resolve r) := ⟨r, hr, rfl⟩
    exact hn.has
  -- the path alone hangs on the slot, so it makes no other paths one
  have hV : (Facts.leaf t .null).HangsOn (g.facts roots) := .leaf hroot
  have hle := Facts.le_closure (g.facts roots ⊔ Facts.leaf t .null)
  rcases materialize_facts hg hlt (Facts.closed_closure _) (le_sup_left.trans hle) hr
    (hle.1 _ _ (.inr ⟨rfl, rfl⟩)) with ⟨h, hrun, -⟩ | ⟨n, h, hrun, hext, -⟩
  · rcases materialize_spec hg.bounded (hlt _ r hr) t.path with ⟨-, -, hblocked, -⟩ | ⟨m, h', hrun', -⟩
    · exact absurd ((lookup_eq_blocked_iff hg.settled hr).1 hblocked) hb
    · cases hrun.symm.trans hrun'
  · refine ⟨n, h, hrun, hext.wellFormed, hext.grows, ?_⟩
    funext u a
    refine propext ⟨fun ha => ?_, hext.facts_le.2 u a⟩
    obtain ⟨w, hw, ha | ⟨-, hne⟩⟩ := hext.le.2 u a ha
    · exact hG.value_congr (hV.same_of_forces hG hw (hG.has_of_value ha)) ha
    · exact absurd rfl hne

/-- Two paths cannot both be built exactly if one of them is blocked, whichever comes first. -/
theorem equate_error_iff (hl : roots t.slot = some l) (hr : roots u.slot = some r) :
    (∃ e, (g.equate l t.path r u.path).1 = .error e) ↔
      (g.facts roots).Blocked t ∨ (g.facts roots).Blocked u := by
  unfold equate
  by_cases ht : (g.facts roots).Blocked t
  · obtain ⟨e, h, hrun⟩ := materialize_of_blocked hg hl (hlt _ l hl) ht
    rw [hrun]
    exact iff_of_true ⟨e, rfl⟩ (.inl ht)
  · obtain ⟨m, g₁, hrun₁, hg₁, hgrow, hvalue⟩ := materialize_of_not_blocked hg hlt hl ht
    have hlt₁ : ∀ i r, roots i = some r → r < g₁.size :=
      fun i r hr => Nat.lt_of_lt_of_le (hlt i r hr) hgrow.size_le
    have hblocked : (g₁.facts roots).Blocked u ↔ (g.facts roots).Blocked u := by
      unfold Facts.Blocked
      rw [hvalue]
    rw [hrun₁, or_iff_right ht, ← hblocked]
    dsimp only
    by_cases hu : (g₁.facts roots).Blocked u
    · obtain ⟨e, g₂, hrun₂⟩ := materialize_of_blocked hg₁ hr (hlt₁ _ r hr) hu
      rw [hrun₂]
      exact iff_of_true ⟨e, rfl⟩ hu
    · obtain ⟨n, g₂, hrun₂, -⟩ := materialize_of_not_blocked hg₁ hlt₁ hr hu
      rw [hrun₂]
      refine iff_of_false ?_ hu
      rintro ⟨e, he⟩
      cases he

end Paths

end Arena

end FeatureLogic
