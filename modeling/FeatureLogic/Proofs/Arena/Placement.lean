import FeatureLogic.Proofs.Amalgam
import FeatureLogic.Proofs.Arena.Congruence
import FeatureLogic.Proofs.Structure.Building
/-!
Leaves put in place. A leaf goes where nothing is, or nowhere: a path that is refused has been
followed, but nothing has been built on it. Where the leaf is put, it is seen along the path, and
along every other path that shares a node with the way there.
-/
set_option autoImplicit false

namespace FeatureLogic

namespace Facts

variable {G : Facts} {i : SlotIndex} {p q r s : Path} {t u v : PathTerm} {a b : Atom}

/-- `G` with a leaf at the path `p` of the slot, as it is seen through the nodes that are shared
with a prefix of `p`. -/
def planted (G : Facts) (i : SlotIndex) (p : Path) (a : Atom) : Facts where
  same t u := G.same t u ∨ ∃ s q r, p = s ++ (q ++ r) ∧ G.Via i s q t ∧ G.Via i s q u
  value t b := G.value t b ∨ (b = a ∧ a ≠ .null) ∧ ∃ s q, p = s ++ q ∧ G.Via i s q t

section
variable (hG : G.Closed)
include hG

theorem planted_le_spread (h : (G.planted i p a).same t u) : G.spread.same t u := by
  rcases h with h | ⟨s, q, r, -, ⟨t', ht, rfl⟩, u', hu, rfl⟩
  · exact ⟨t, u, [], h, by simp, by simp⟩
  · exact ⟨t', u', q, hG.trans ht (hG.symm hu), rfl, rfl⟩

theorem closed_planted : (G.planted i p a).Closed := by
  have hsymm : ∀ {t u}, (G.planted i p a).same t u → (G.planted i p a).same u t := by
    rintro t u (h | ⟨s, q, r, hp, ht, hu⟩)
    · exact .inl (hG.symm h)
    · exact .inr ⟨s, q, r, hp, hu, ht⟩
  -- a way on which one term is new takes along all that agrees with either end
  have hnew : ∀ {s q r t u v}, p = s ++ (q ++ r) → G.Via i s q t → G.Via i s q u →
      (G.planted i p a).same u v → (G.planted i p a).same t v := by
    intro s q r t u v hp ht hu huv
    obtain ⟨s', q', he, hv, hall⟩ := hu.spread hG (planted_le_spread hG huv)
    refine .inr ⟨s', q', r, ?_, hall t ht, hv⟩
    rw [hp, ← List.append_assoc, he, List.append_assoc]
  refine ⟨hsymm, ?_, ?_, ?_, ?_, ?_⟩
  · rintro t u v (htu | ⟨s, q, r, hp, ht, hu⟩) huv
    · rcases huv with huv | ⟨s, q, r, hp, hu, hv⟩
      · exact .inl (hG.trans htu huv)
      · exact hsymm (hnew hp hv hu (.inl (hG.symm htu)))
    · exact hnew hp ht hu huv
  · rintro t q (h | ⟨s, q', r, hp, ⟨t', ht, he⟩, -⟩)
    · exact .inl (hG.up h)
    · rcases PathTerm.below_eq_below.1 he with ⟨e, rfl, -⟩ | ⟨e, rfl, rfl⟩
      · exact .inl (hG.up (hG.has_left ht))
      · refine .inr ⟨s, e, q ++ r, by rw [hp, List.append_assoc], ?_, ?_⟩ <;>
          exact ⟨t', ht, rfl⟩
  · rintro t u q htu hq
    obtain ⟨t', u', q', h, rfl, rfl⟩ := planted_le_spread hG htu
    have hdown : G.spread.same ((t'.below q').below q) ((u'.below q').below q) :=
      ⟨t', u', q' ++ q, h, by simp, by simp⟩
    rcases hq with hq | ⟨s, q'', r, hp, ht, -⟩
    · rw [PathTerm.below_below] at hq
      rw [PathTerm.below_below, PathTerm.below_below]
      exact .inl (hG.congr h hq)
    · obtain ⟨s', r', he, hu, hall⟩ := ht.spread hG hdown
      refine .inr ⟨s', r', r, ?_, hall _ ht, hu⟩
      rw [hp, ← List.append_assoc, he, List.append_assoc]
  · rintro t b (h | ⟨-, s, q, hp, ht⟩)
    · exact .inl (hG.has_of_value h)
    · exact .inr ⟨s, q, [], by simpa using hp, ht, ht⟩
  · rintro t u b htu (h | ⟨hb, s, q, hp, ht⟩)
    · rcases htu with htu | ⟨s, q, r, -, ht, hu⟩
      · exact .inl (hG.value_congr htu h)
      · exact .inl (hG.value_congr (ht.same_of_has hG hu (hG.has_of_value h)) h)
    · obtain ⟨s', q', he, hu, -⟩ := ht.spread hG (planted_le_spread hG htu)
      exact .inr ⟨hb, s', q', hp.trans he, hu⟩

/-- The least structure above `G` with the leaf in place. -/
theorem closure_sup_leaf (hroot : G.Has ⟨i, []⟩) :
    (G ⊔ leaf ⟨i, p⟩ a).closure = G.planted i p a := by
  have hvia : G.Via i [] p ⟨i, p⟩ := ⟨⟨i, []⟩, hroot, by simp [PathTerm.below]⟩
  apply le_antisymm
  · refine closure_le (closed_planted hG) (sup_le ⟨fun _ _ => .inl, fun _ _ => .inl⟩ ?_)
    refine leaf_le.2 ⟨.inr ⟨[], p, [], by simp, hvia, hvia⟩, fun ha => ?_⟩
    exact .inr ⟨⟨rfl, ha⟩, [], p, rfl, hvia⟩
  · have hF := closed_closure (G ⊔ leaf ⟨i, p⟩ a)
    have hle := le_closure (G ⊔ leaf ⟨i, p⟩ a)
    obtain ⟨hhas, hvalue⟩ := leaf_le.1 (le_sup_right.trans hle)
    have hway : ∀ {s q r t}, p = s ++ (q ++ r) → G.Via i s q t →
        (G ⊔ leaf ⟨i, p⟩ a).closure.same ⟨i, s ++ q⟩ t := by
      rintro s q r _ rfl ⟨t', ht, rfl⟩
      have hsq : (G ⊔ leaf ⟨i, _⟩ a).closure.Has (PathTerm.below ⟨i, s⟩ q) :=
        hF.up (q := r) (by simpa [PathTerm.below] using hhas)
      exact hF.congr (hF.symm ((le_sup_left.trans hle).1 _ _ ht)) hsq
    refine ⟨?_, ?_⟩
    · rintro t u (h | ⟨s, q, r, hp, ht, hu⟩)
      · exact (le_sup_left.trans hle).1 _ _ h
      · exact hF.trans (hF.symm (hway hp ht)) (hway hp hu)
    · rintro t b (h | ⟨⟨rfl, hb⟩, s, q, hp, ht⟩)
      · exact (le_sup_left.trans hle).2 _ _ h
      · have hs := hway (r := []) (by simpa using hp) ht
        rw [← hp] at hs
        exact hF.value_congr hs (hvalue hb)

end

end Facts

namespace Arena

variable {given : Content → Prop} {g h : Arena} {n m c : NodeId} {p q : Path} {a : Atom}
  {e : StructureError}

theorem Sound.bounded (hg : g.Sound given) : g.Bounded := ⟨hg.settled, hg.child?_lt⟩

/-! ## Paths that are refused -/

theorem sameView_of_materialize_error (hg : g.Bounded) (hn : n < g.size)
    (hrun : g.materialize n p = (.error e, h)) : SameView g h := by
  rcases materialize_spec hg hn p with ⟨h', hrun', -, hv⟩ | ⟨m, h', hrun', -⟩
  · cases hrun.symm.trans hrun'
    exact hv
  · cases hrun.symm.trans hrun'

theorem sameView_of_linkPath_error (hg : g.Bounded) (hn : n < g.size) (hc : c < g.size)
    (hrun : g.linkPath n p c = (.error e, h)) : SameView g h := by
  rcases List.eq_nil_or_concat p with rfl | ⟨up, f, rfl⟩
  · cases hrun
    exact .refl hg.settled
  · rw [List.concat_eq_append] at hrun
    have hsplit : Path.splitLast? (up ++ [f]) = some (up, f) := Path.splitLast?_child up f
    cases hl : g.lookup n up with
    | missing =>
      obtain ⟨h', hrun', -⟩ := linkPath_spec hg hn hc (lookup_append_missing hl [f])
      cases hrun.symm.trans hrun'
    | blocked =>
      obtain ⟨h', hrun'⟩ := materialize_of_lookup_blocked hg hn hl
      unfold linkPath at hrun
      simp only [hsplit, hrun'] at hrun
      cases hrun
      exact sameView_of_materialize_error hg hn hrun'
    | found k =>
      obtain ⟨h', hrun', hv⟩ := materialize_of_found hg.settled hl
      unfold linkPath at hrun
      simp only [hsplit, hrun'] at hrun
      split at hrun
      · cases hrun
        exact hv
      · split at hrun <;> cases hrun
        exact hv

theorem sameView_of_createValue_error (hg : g.Bounded) (hn : n < g.size)
    (hrun : g.createValue n p a = (.error e, h)) : SameView (g.alloc (.leaf a)).2 h := by
  have hleaf : g.size < (g.alloc (.leaf a)).2.size := by simp
  rw [createValue_eq] at hrun
  rcases hlink : (g.alloc (.leaf a)).2.linkPath n p g.size with ⟨e' | _, h'⟩
  all_goals
    rw [hlink] at hrun
    cases hrun
  exact sameView_of_linkPath_error (hg.alloc_leaf a) (Nat.lt_trans hn hleaf) hleaf hlink

/-- What becomes of a request for a leaf is decided by what the path leads to. -/
theorem createValue_outcome (hg : g.Bounded) (hn : n < g.size) (hp : p ≠ []) (a : Atom) :
    (g.createValue n p a).1 = match g.lookup n p with
      | .missing => .ok g.size
      | .blocked => .error .atomicNode
      | .found _ => .error (.valueExists p) := by
  cases hl : g.lookup n p with
  | missing =>
    obtain ⟨h, hrun, -⟩ := createValue_spec hg hn a hl
    rw [hrun]
  | blocked =>
    obtain ⟨h, hrun⟩ := createValue_of_blocked hg hn hl a
    rw [hrun]
  | found m =>
    obtain ⟨h, hrun⟩ := createValue_of_found hg hn hp hl a
    rw [hrun]

/-! ## Leaves in place -/

theorem createValue_closure {roots : Roots} {i : SlotIndex} (hg : g.Bounded)
    (hlt : ∀ j r, roots j = some r → r < g.size) (hr : roots i = some n)
    (hl : g.lookup n p = .missing) (hrun : g.createValue n p a = (.ok m, h)) :
    h.facts roots = (g.facts roots ⊔ Facts.leaf ⟨i, p⟩ a).closure := by
  have hle := Facts.le_closure (g.facts roots ⊔ Facts.leaf ⟨i, p⟩ a)
  obtain ⟨hhas, hvalue⟩ := Facts.leaf_le.1 (le_sup_right.trans hle)
  obtain ⟨h', hrun', -, hb, hgrow, hleF, hleads, hleaf⟩ :=
    hg.createValue_facts (t := ⟨i, p⟩) hlt (Facts.closed_closure _) (le_sup_left.trans hle) hr hl
      hhas hvalue
  cases hrun.symm.trans hrun'
  refine le_antisymm hleF (Facts.closure_le (hb.settled.closed_facts roots) (sup_le ?_ ?_))
  · exact facts_mono hb.settled hgrow roots
  · exact Facts.leaf_le.2 ⟨hleads.has, hleads.value_of_leaf hleaf⟩

/-- A leaf is put exactly where the path leads to nothing, and the error says what else it leads to.
If it is refused, there is one more node, to which nothing leads, and all that is read is what it
was; paths that are refused for another purpose allocate nothing. Otherwise all structures of the
arena, taken together as slots, come to hold the leaf and what it forces: at the end of the path, and
at the end of all others that share a node with the way there. -/
theorem createValue_exact (hg : g.Sound given) (hn : n < g.size) (p : Path) (a : Atom) :
    (∀ m, (g.createValue n p a).1 = .ok m ↔
      p ≠ [] ∧ g.lookup n p = .missing ∧ m = g.size) ∧
    (∀ e, (g.createValue n p a).1 = .error e ↔ p = [] ∧ e = .emptyPath ∨
      g.lookup n p = .blocked ∧ e = .atomicNode ∨
      p ≠ [] ∧ (∃ m, g.lookup n p = .found m) ∧ e = .valueExists p) ∧
    (∀ e h, g.createValue n p a = (.error e, h) →
      h.size = g.size + 1 ∧ h.content g.size = .leaf a ∧ ∀ m, m < g.size →
        h.content m = g.content m ∧
          ∀ q, h.lookup m q = g.lookup m q ∧ h.lookup m q ≠ .found g.size) ∧
    (∀ e h, g.materialize n p = (.error e, h) → SameView g h) ∧
    (∀ c e h, c < g.size → g.linkPath n p c = (.error e, h) → SameView g h) ∧
    ∀ m h, g.createValue n p a = (.ok m, h) → h.Sound given ∧ h.lookup n p = .found m ∧
      h.content m = .leaf a ∧
      ∀ (roots : Roots) i, (∀ j r, roots j = some r → r < g.size) → roots i = some n →
        h.facts roots = (g.facts roots ⊔ Facts.leaf ⟨i, p⟩ a).closure ∧
        h.facts roots = (g.facts roots).planted i p a := by
  have hb := hg.bounded
  have hok : ∀ m, (g.createValue n p a).1 = .ok m ↔
      p ≠ [] ∧ g.lookup n p = .missing ∧ m = g.size := by
    intro m
    rcases eq_or_ne p [] with rfl | hp
    · exact iff_of_false nofun fun h => h.1 rfl
    · rw [createValue_outcome hb hn hp]
      cases g.lookup n p <;> simp [hp, eq_comm]
  refine ⟨hok, fun e => ?_, fun e h hrun => ?_, fun e h hrun => ?_, fun c e h hc hrun => ?_,
    fun m h hrun => ?_⟩
  · rcases eq_or_ne p [] with rfl | hp
    · have hrun : (g.createValue n [] a).1 = .error .emptyPath := rfl
      rw [hrun]
      simp [lookup, eq_comm]
    · rw [createValue_outcome hb hn hp]
      cases g.lookup n p <;> simp [hp, eq_comm]
  · have hv := sameView_of_createValue_error hb hn hrun
    refine ⟨hv.size.trans (size_alloc ..), ?_, fun m hm => ⟨?_, fun q => ⟨?_, ?_⟩⟩⟩
    · rw [hv.content, content_alloc hg.settled, if_pos rfl]
    · rw [hv.content, content_alloc hg.settled, if_neg (Nat.ne_of_lt hm)]
    · rw [hv.lookup, hb.lookup_alloc hm]
    · rw [hv.lookup]
      exact hb.lookup_alloc_ne hm _ q
  · exact sameView_of_materialize_error hb hn hrun
  · exact sameView_of_linkPath_error hb hn hc hrun
  · obtain ⟨-, hl, rfl⟩ := (hok m).1 (by rw [hrun])
    obtain ⟨h', hrun', -, -, -, hfound, hleaf, -⟩ := createValue_spec hb hn a hl
    cases hrun.symm.trans hrun'
    refine ⟨(Adds.createValue hg hn a hrun).sound, hfound, hleaf, fun roots i hlt hr => ?_⟩
    have hfacts := createValue_closure hb hlt hr hl hrun
    have hroot : g.Leads roots ⟨i, []⟩ (g.resolve n) := ⟨n, hr, rfl⟩
    exact ⟨hfacts, hfacts.trans
      (Facts.closure_sup_leaf (hg.settled.closed_facts roots) hroot.has)⟩

/-- The empty node of `forked` becomes complex, and is seen to be so from both nodes above it. -/
theorem createValue_exact_forked : (forked.createValue 4 [⟨1⟩, ⟨2⟩] ⟨5⟩).1 = .ok 5 ∧
    (forked.createValue 4 [⟨1⟩] ⟨5⟩).1 = .error (.valueExists [⟨1⟩]) ∧
    ((forked.createValue 4 [⟨1⟩, ⟨2⟩] ⟨5⟩).2.facts fun i => if i = 0 then some 1 else
      if i = 1 then some 4 else none).value ⟨0, [⟨1⟩, ⟨2⟩]⟩ ⟨5⟩ := by
  have hg : forked.Sound fun _ => False := forked_sound
  obtain ⟨hok, -, -, -, -, hplaced⟩ :=
    createValue_exact (n := 4) hg (by decide) [⟨1⟩, ⟨2⟩] ⟨5⟩
  obtain ⟨-, herror, -⟩ := createValue_exact (n := 4) hg (by decide) [⟨1⟩] ⟨5⟩
  have h5 : (forked.createValue 4 [⟨1⟩, ⟨2⟩] ⟨5⟩).1 = .ok 5 := (hok 5).2 (by decide)
  refine ⟨h5, (herror _).2 (.inr (.inr ⟨by decide, ⟨3, by decide⟩, rfl⟩)), ?_⟩
  obtain ⟨-, -, -, hfacts⟩ := hplaced 5 (forked.createValue 4 [⟨1⟩, ⟨2⟩] ⟨5⟩).2 (Prod.ext h5 rfl)
  rw [(hfacts _ 1 ?_ rfl).2]
  · refine .inr ⟨⟨rfl, by decide⟩, [], _, rfl, ⟨0, []⟩, ⟨1, ⟨1, rfl, ?_⟩, 4, rfl, ?_⟩, rfl⟩
    · decide
    · decide
  · intro j r hr
    split at hr
    · cases hr
      decide
    · split at hr <;> cases hr
      decide

end Arena

end FeatureLogic
