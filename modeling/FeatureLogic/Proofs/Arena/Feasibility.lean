import FeatureLogic.Arena.Feasibility
import FeatureLogic.Proofs.Arena.Acyclicity
import FeatureLogic.Proofs.Arena.Facts
/-!
The test for clashes. It fails exactly if some path that both nodes have leads to a clash, as long
as it may go as deep as that path is long; and that it may, where there are no cycles.
-/
set_option autoImplicit false

namespace FeatureLogic.Arena

variable {given given' : Content → Prop} {g h : Arena} {l r m n c d : NodeId}
  {known known' : NodeId → NodeId → Bool} {roots roots' : Roots} {t u : PathTerm} {F : Facts}
  {p : Path} {f : Feature} {depth : Nat}

theorem not_clash_self (c : Content) : ¬ Clash c c := by
  intro hc
  cases hc
  contradiction

/-- Both nodes have the path `p`, and it leads to a clash. -/
def ClashesAt (g : Arena) (l : NodeId) (h : Arena) (r : NodeId) (p : Path) : Prop :=
  ∃ m n, g.lookup l p = .found m ∧ h.lookup r p = .found n ∧ Clash (g.content m) (h.content n)

theorem ClashesAt.symm (hc : g.ClashesAt l h r p) : h.ClashesAt r g l p := by
  obtain ⟨m, n, hm, hn, hc⟩ := hc
  exact ⟨n, m, hn, hm, hc.symm⟩

theorem clashesAt_nil (hg : g.Settled) (hh : h.Settled) :
    g.ClashesAt l h r [] ↔ Clash (g.content l) (h.content r) := by
  rw [← hg.content_resolve l, ← hh.content_resolve r]
  constructor
  · rintro ⟨m, n, hm, hn, hc⟩
    cases hm
    cases hn
    exact hc
  · exact fun hc => ⟨_, _, rfl, rfl, hc⟩

theorem clashesAt_cons : g.ClashesAt l h r (f :: p) ↔
    ∃ c d, g.child? l f = some c ∧ h.child? r f = some d ∧ g.ClashesAt c h d p := by
  constructor
  · rintro ⟨m, n, hm, hn, hclash⟩
    obtain ⟨c, hc, hm⟩ := lookup_cons_eq_found.1 hm
    obtain ⟨d, hd, hn⟩ := lookup_cons_eq_found.1 hn
    exact ⟨c, d, hc, hd, m, n, hm, hn, hclash⟩
  · rintro ⟨c, d, hc, hd, m, n, hm, hn, hclash⟩
    exact ⟨m, n, by rw [lookup_cons_of_child hc, hm], by rw [lookup_cons_of_child hd, hn], hclash⟩

/-- A node has no clash with itself. -/
theorem not_clashesAt_of_resolve (hg : g.Settled) (he : g.resolve l = g.resolve r) :
    ¬ g.ClashesAt l g r p := by
  rintro ⟨m, n, hm, hn, hc⟩
  rw [hg.lookup_congr he, hn] at hm
  cases hm
  exact not_clash_self _ hc

theorem all_children_iff {left right : SortedMap Feature NodeId} {p : NodeId → NodeId → Bool} :
    (left.entries.all fun e =>
      match right.get? e.1 with
      | none => true
      | some other => p e.2 other) = true ↔
    ∀ f c d, left.get? f = some c → right.get? f = some d → p c d = true := by
  rw [List.all_eq_true]
  constructor
  · intro h f c d hc hd
    have hp := h (f, c) ((SortedMap.get?_eq_some_iff left).1 hc)
    dsimp only at hp
    rwa [hd] at hp
  · rintro h ⟨f, c⟩ hmem
    dsimp only
    cases hd : right.get? f with
    | none => rfl
    | some d => exact h f c d ((SortedMap.get?_eq_some_iff left).2 hmem) hd

theorem feasibleWithin_succ : feasibleWithin known g h (depth + 1) l r = true ↔
    known (g.resolve l) (h.resolve r) = true ∨ ¬ Clash (g.content l) (h.content r) ∧
      ∀ f c d, g.child? l f = some c → h.child? r f = some d →
        feasibleWithin known g h depth c d = true := by
  rw [feasibleWithin, Bool.or_eq_true]
  refine or_congr Iff.rfl ?_
  simp only [child?_eq]
  cases g.content l with
  | empty => exact ⟨fun _ => ⟨by rintro ⟨⟩, fun _ _ _ hc => by cases hc⟩, fun _ => by rfl⟩
  | atom a =>
    cases h.content r with
    | empty => exact ⟨fun _ => ⟨by rintro ⟨⟩, fun _ _ _ hc => by cases hc⟩, fun _ => by rfl⟩
    | atom b =>
      rw [decide_eq_true_iff]
      refine ⟨fun he => ⟨?_, fun _ _ _ hc => by cases hc⟩, fun hno => ?_⟩
      · rintro (hne | _)
        exact hne he
      · by_contra hne
        exact hno.1 (.atoms hne)
    | complex others =>
      exact ⟨fun he => (by cases he), fun hno => absurd (.atom_complex a others) hno.1⟩
  | complex children =>
    cases h.content r with
    | empty => exact ⟨fun _ => ⟨by rintro ⟨⟩, fun _ _ _ _ hd => by cases hd⟩, fun _ => by rfl⟩
    | atom b => exact ⟨fun he => (by cases he), fun hno => absurd (.complex_atom children b) hno.1⟩
    | complex others =>
      exact all_children_iff.trans ⟨fun hall => ⟨by rintro ⟨⟩, hall⟩, And.right⟩

/-- The test for clashes does not depend on which node comes first. -/
theorem feasibleWithin_comm (hknown : ∀ m n, known' n m = known m n) (depth : Nat) (l r : NodeId) :
    feasibleWithin known g h depth l r = feasibleWithin known' h g depth r l := by
  induction depth generalizing l r with
  | zero => rfl
  | succ depth ih =>
    rw [Bool.eq_iff_iff, feasibleWithin_succ, feasibleWithin_succ, hknown]
    simp only [ih]
    refine or_congr Iff.rfl (and_congr (not_congr ⟨.symm, .symm⟩) ?_)
    exact ⟨fun hall f c d hc hd => hall f d c hd hc, fun hall f c d hc hd => hall f d c hd hc⟩

theorem feasibleWithin_of_not_clashesAt (hg : g.Settled) (hh : h.Settled)
    (hno : ∀ p, p.length < depth → ¬ g.ClashesAt l h r p) :
    feasibleWithin known g h depth l r = true := by
  induction depth generalizing l r with
  | zero => rfl
  | succ depth ih =>
    refine feasibleWithin_succ.2 (.inr ⟨fun hc => ?_, fun f c d hc hd => ih fun p hp hclash => ?_⟩)
    · exact hno [] (Nat.zero_lt_succ _) ((clashesAt_nil hg hh).2 hc)
    · exact hno (f :: p) (Nat.succ_lt_succ hp) (clashesAt_cons.2 ⟨c, d, hc, hd, hclash⟩)

theorem feasibleWithin_iff (hg : g.Settled) (hh : h.Settled)
    (hknown : ∀ m n p, known (g.resolve m) (h.resolve n) = true → ¬ g.ClashesAt m h n p) :
    feasibleWithin known g h depth l r = true ↔
      ∀ p, p.length < depth → ¬ g.ClashesAt l h r p := by
  refine ⟨fun hf => ?_, feasibleWithin_of_not_clashesAt hg hh⟩
  induction depth generalizing l r with
  | zero => exact fun p hp => absurd hp (Nat.not_lt_zero _)
  | succ depth ih =>
    intro p hp hclash
    rcases feasibleWithin_succ.1 hf with hk | ⟨hno, hall⟩
    · exact hknown l r p hk hclash
    · cases p with
      | nil => exact hno ((clashesAt_nil hg hh).1 hclash)
      | cons f p =>
        obtain ⟨c, d, hc, hd, hclash⟩ := clashesAt_cons.1 hclash
        exact ih (hall f c d hc hd) p (Nat.lt_of_succ_lt_succ hp) hclash

/-- Paths down from a grounded node are short enough for the test to reach their ends. -/
theorem Grounded.forall_clashesAt_iff (hg : g.Sound given) (hl : l < g.size) (hgl : g.Grounded l) :
    (∀ p, p.length < g.size → ¬ g.ClashesAt l h r p) ↔ ∀ p, ¬ g.ClashesAt l h r p := by
  refine ⟨fun hno p hc => ?_, fun hno p _ => hno p⟩
  obtain ⟨m, -, hm, -⟩ := id hc
  exact hno p (hgl.length_lt hg hl hm) hc

theorem possiblyUnifiable_iff (hg : g.Sound given) (hh : h.Settled) (hl : l < g.size)
    (hgl : g.Grounded l) : g.possiblyUnifiable l h r = true ↔ ∀ p, ¬ g.ClashesAt l h r p :=
  (feasibleWithin_iff hg.settled hh fun _ _ _ hk => by cases hk).trans
    (hgl.forall_clashesAt_iff hg hl)

theorem possiblyUnifiableHere_iff (hg : g.Sound given) (hl : l < g.size) (hgl : g.Grounded l) :
    g.possiblyUnifiableHere l r = true ↔ ∀ p, ¬ g.ClashesAt l g r p :=
  (feasibleWithin_iff hg.settled hg.settled fun _ _ _ hk =>
    not_clashesAt_of_resolve hg.settled (of_decide_eq_true hk)).trans
    (hgl.forall_clashesAt_iff hg hl)

/-- Nodes that consistent facts make one have no clash. -/
theorem feasible_of_same (hg : g.WellFormed) (hh : h.WellFormed) (hF : F.Closed)
    (hc : F.Consistent) (hgF : g.facts roots ≤ F) (hhF : h.facts roots' ≤ F)
    (ht : g.Leads roots t (g.resolve l)) (hu : h.Leads roots' u (h.resolve r)) (hs : F.same t u)
    (depth : Nat) : feasibleWithin known g h depth l r = true := by
  refine feasibleWithin_of_not_clashesAt hg.settled hh.settled ?_
  rintro p - ⟨m, n, hm, hn, hclash⟩
  rw [← hg.settled.lookup_congr (hg.settled.resolve_resolve l), ← ht.below hg.settled] at hm
  rw [← hh.settled.lookup_congr (hh.settled.resolve_resolve r), ← hu.below hh.settled] at hn
  have hp : F.same (t.below p) (u.below p) := hF.congr hs (hgF.1 _ _ hm.has)
  have hvalue : ∀ {a}, g.content m = .atom a → F.value (u.below p) a := fun ha =>
    hF.value_congr hp (hgF.2 _ _ (hm.value_iff.2 ha))
  have hvalue' : ∀ {a}, h.content n = .atom a → F.value (t.below p) a := fun ha =>
    hF.value_congr (hF.symm hp) (hhF.2 _ _ (hn.value_iff.2 ha))
  generalize hl : g.content m = content at hclash
  generalize hr : h.content n = content' at hclash
  cases hclash with
  | atoms hne => exact hne (hc.value_unique (hvalue hl) (hhF.2 _ _ (hn.value_iff.2 hr)))
  | atom_complex a children =>
    obtain ⟨f, hf⟩ := hh.child_of_complex hr
    exact hc.not_has_below (hvalue hl) (hhF.1 _ _ ((hn.has_child hh.settled).2 hf))
  | complex_atom children a =>
    obtain ⟨f, hf⟩ := hg.child_of_complex hl
    exact hc.not_has_below (hvalue' hr) (hgF.1 _ _ ((hm.has_child hg.settled).2 hf))

end FeatureLogic.Arena
