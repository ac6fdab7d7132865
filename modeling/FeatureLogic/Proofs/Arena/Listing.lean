import FeatureLogic.Proofs.Arena.Acyclicity
import FeatureLogic.Proofs.Arena.Congruence
import FeatureLogic.Proofs.Arena.Leaves
import FeatureLogic.Proofs.Path
/-!
What the leaves below a node say about it. They are listed in the order of paths, however the nodes
on the way are shared, and nothing that can be found is left out. So they tell whether the node is
effectively empty, and whether it contains an empty value.

All that is about nodes from which no path goes on for ever. From the others the leaves cannot be
listed: with no bound on the depth, listing ends exactly where paths do.
-/
set_option autoImplicit false

namespace FeatureLogic.Arena

variable {given : Content → Prop} {g : Arena} {n m : NodeId} {p : Path} {a : Atom}

theorem inOrder_leaves (g : Arena) (n : NodeId) : Path.InOrder ((g.leaves n).map (·.1)) := by
  have h : ∀ depth n, Path.InOrder ((g.leavesWithin depth n).map (·.1)) := by
    intro depth
    induction depth with
    | zero => exact fun n => .nil
    | succ depth ih =>
      intro n
      rw [leavesWithin]
      split
      · rename_i children _
        simpa [List.map_flatMap, Function.comp_def] using
          Path.inOrder_flatMap children.ascending ih
      · exact List.pairwise_singleton ..
  exact h g.size n

/-! ## Predicates -/

section Predicates
variable (hnull : ∀ n, g.content n ≠ .atom .null)
include hnull

theorem isEffectivelyEmpty_iff :
    g.isEffectivelyEmpty n = true ↔ ∀ e ∈ g.leaves n, e.2 = .null := by
  have h : ∀ depth n, g.effectivelyEmptyWithin depth n = true ↔
      ∀ e ∈ g.leavesWithin depth n, e.2 = .null := by
    intro depth
    induction depth with
    | zero => simp [effectivelyEmptyWithin, leavesWithin]
    | succ depth ih =>
      intro n
      rw [effectivelyEmptyWithin, leavesWithin]
      cases hcon : g.content n with
      | empty => simp [Content.atom?]
      | atom a =>
        have hne : a ≠ .null := fun h => hnull n (h ▸ hcon)
        simp [Content.atom?, hne]
      | complex children =>
        simp only [List.all_eq_true, ih, List.forall_mem_flatMap, List.forall_mem_map]
  exact h g.size n

theorem containsEmptyValue_iff :
    g.containsEmptyValue n = true ↔ ∃ e ∈ g.leaves n, e.2 = .null := by
  have h : ∀ depth n, g.containsEmptyWithin depth n = true ↔
      ∃ e ∈ g.leavesWithin depth n, e.2 = .null := by
    intro depth
    induction depth with
    | zero => simp [containsEmptyWithin, leavesWithin]
    | succ depth ih =>
      intro n
      rw [containsEmptyWithin, leavesWithin]
      cases hcon : g.content n with
      | empty => simp [Content.atom?]
      | atom a =>
        have hne : a ≠ .null := fun h => hnull n (h ▸ hcon)
        simp [Content.atom?, hne]
      | complex children =>
        simp only [List.any_eq_true, ih, List.mem_flatMap, List.mem_map]
        constructor
        · rintro ⟨c, hc, e, he, hempty⟩
          exact ⟨(c.1 :: e.1, e.2), ⟨c, hc, e, he, rfl⟩, hempty⟩
        · rintro ⟨_, ⟨c, hc, e, he, rfl⟩, hempty⟩
          exact ⟨c, hc, e, he, hempty⟩
  exact h g.size n

end Predicates

/-! ## Completeness -/

/-- The nodes below `n` stand for the ends of their chains. -/
theorem Sound.denotes_below (hg : g.Sound given) (n : NodeId) :
    g.Denotes (g.below n) fun c x => c < g.size ∧ g.resolve c = x ∧ g.Reaches n x where
  lt h := h.1
  unique h h' := h.2.1.symm.trans h'.2.1
  resolve h := ⟨hg.settled.resolve_lt h.1, h.2.1 ▸ hg.settled.resolve_resolve _, h.2.2⟩
  child {c d x f} h hd := by
    obtain ⟨-, rfl, hx⟩ := h
    rw [← hg.settled.child?_congr (hg.settled.resolve_resolve c)] at hd
    obtain ⟨hedge, hreach⟩ := hx.edge hg.settled hd
    exact ⟨_, hedge, hg.child?_lt hd, rfl, hreach⟩
  atom {c x a} h ha := by
    obtain ⟨-, rfl, -⟩ := h
    exact (hg.settled.content_resolve c).trans ha

section Grounded
variable (hg : g.Sound given) (hn : n < g.size) (hA : g.Grounded n)
include hg hn hA

theorem mem_leaves : (p, a) ∈ g.leaves n ↔ ∃ m, g.lookup n p = .found m ∧
    (g.content m).isComplex = false ∧ a = (g.content m).atom? :=
  mem_leavesWithin hg.settled (hg.denotes_below n)
    (hg.height hn fun _ _ _ => hA.eq_nil_below hg.settled) ⟨hn, rfl, .self hg.settled n⟩

/-- Below every node that is found there is a leaf. -/
theorem exists_leaf (hgiven : ¬ given (.complex .empty)) (hl : g.lookup n p = .found m) :
    ∃ e ∈ g.leaves n, p <+: e.1 := by
  have hs := hg.settled
  have hm := hA.of_lookup hs hl
  have hlt := hg.lookup_lt hn hl
  obtain ⟨q, k, hk, hend⟩ := exists_end (hg.wellFormed hgiven) (hg.denotes_below m)
    (hg.height hlt fun _ _ _ => hm.eq_nil_below hs) ⟨hlt, rfl, .self hs m⟩
  refine ⟨(p ++ q, _), (mem_leaves hg hn hA).2 ⟨k, ?_, hend, rfl⟩, List.prefix_append p q⟩
  rw [hs.lookup_append hl, hk]

end Grounded

/-- The leaves below a node from which no path goes on for ever, in an arena without null atoms and
complex nodes without children. -/
theorem leaves_complete (hg : g.Sound fun _ => False) (hn : n < g.size) (hA : g.Grounded n) :
    Path.InOrder ((g.leaves n).map (·.1)) ∧ PrefixFree (g.leaves n) ∧
    (∀ p a, (p, a) ∈ g.leaves n ↔ ∃ m, g.lookup n p = .found m ∧
      (g.content m = .empty ∧ a = .null ∨ g.content m = .atom a)) ∧
    (∀ p m, g.lookup n p = .found m → ∃ e ∈ g.leaves n, p <+: e.1) ∧
    (g.isEffectivelyEmpty n = true ↔ ∀ e ∈ g.leaves n, e.2 = .null) ∧
    (g.containsEmptyValue n = true ↔ ∃ e ∈ g.leaves n, e.2 = .null) := by
  have hnull : ∀ n, g.content n ≠ .atom .null := fun n h => (hg.allowed n).given (.inr h)
  refine ⟨inOrder_leaves g n, prefixFree_leaves g n, fun p a => ?_,
    fun p m => exists_leaf hg hn hA id, isEffectivelyEmpty_iff hnull,
    containsEmptyValue_iff hnull⟩
  rw [mem_leaves hg hn hA]
  refine exists_congr fun m => and_congr_right fun _ => ?_
  cases g.content m <;> simp [Content.isComplex, Content.atom?, eq_comm]

/-- Three paths down from node 0, two of them by way of a node that forwards. -/
def woven : Arena := ((forked.linkPath 0 [⟨2⟩] 4).2.linkPath 0 [⟨3⟩] 4).2

theorem woven_sound : woven.Sound given :=
  have h := (Adds.linkPath (n := 0) (t := 4) (p := [⟨2⟩]) forked_sound (by decide) (by decide)
    rfl).sound
  (Adds.linkPath (n := 0) (t := 4) (p := [⟨3⟩]) h (by decide) (by decide) rfl).sound

theorem leaves_complete_woven :
    woven.leaves 0 = [([⟨1⟩], ⟨1⟩), ([⟨2⟩, ⟨1⟩], .null), ([⟨3⟩, ⟨1⟩], .null)] ∧
    (∃ m, woven.lookup 0 [⟨3⟩, ⟨1⟩] = .found m ∧ woven.content m = .empty) ∧
    woven.isEffectivelyEmpty 0 = false ∧ woven.containsEmptyValue 0 = true := by
  have hg : woven.Sound fun _ => False := woven_sound
  have hA : woven.Acyclic := acyclic_of_level
    (fun n => if n = 0 then 2 else if n = 1 ∨ n = 4 then 1 else 0) (by decide) (by decide)
  have hleaves : woven.leaves 0 =
    [([⟨1⟩], ⟨1⟩), ([⟨2⟩, ⟨1⟩], .null), ([⟨3⟩, ⟨1⟩], .null)] := by decide
  obtain ⟨-, -, hmem, -, hall, hany⟩ := leaves_complete hg (n := 0) (by decide) (hA.grounded hg 0)
  obtain ⟨m, hm, ⟨hempty, -⟩ | hatom⟩ := (hmem [⟨3⟩, ⟨1⟩] .null).1 (by simp [hleaves])
  · refine ⟨hleaves, ⟨m, hm, hempty⟩, ?_, hany.2 (by simp [hleaves])⟩
    rw [Bool.eq_false_iff, Ne, hall, hleaves]
    decide
  · exact absurd hatom fun h => (hg.allowed m).given (.inr h)

/-! ## Without a bound -/

/-- Listing the leaves below a node ends, with these. Nothing bounds how deep they are. -/
inductive Lists (g : Arena) : NodeId → List (Path × Atom) → Prop
  | leaf {n : NodeId} (hend : (g.content n).isComplex = false) :
    Lists g n [([], (g.content n).atom?)]
  | complex {n : NodeId} {children : SortedMap Feature NodeId}
    {below : Feature × NodeId → List (Path × Atom)} (hcon : g.content n = .complex children)
    (hbelow : ∀ e ∈ children.entries, Lists g e.2 (below e)) :
    Lists g n (children.entries.flatMap fun e => (below e).map fun (p, a) => (e.1 :: p, a))

theorem Lists.grounded {ls : List (Path × Atom)} (hs : g.Settled) (h : g.Lists n ls) :
    g.Grounded n := by
  induction h with
  | @leaf n hend =>
    refine .of_children (fun f c hc => ?_) hs
    cases hcon : g.content n <;> simp_all [child?, Content.isComplex]
  | complex hcon _ ih =>
    refine .of_children (fun f c hc => ?_) hs
    rw [child?, hcon] at hc
    exact ih (f, c) ((SortedMap.get?_eq_some_iff _).1 hc)

theorem leavesWithin_of_end {depth : Nat} (hend : (g.content n).isComplex = false) :
    g.leavesWithin (depth + 1) n = [([], (g.content n).atom?)] := by
  rw [leavesWithin]
  cases hcon : g.content n with
  | complex children => simp [hcon, Content.isComplex] at hend
  | empty | atom a => rfl

theorem lists_iff_leavesWithin {A : FeatureAlgebra} {den : NodeId → A.Point → Prop} {x : A.Point}
    {depth : Nat} {ls : List (Path × Atom)} (hd : g.Denotes A den) (hx : A.Height depth x)
    (hn : den n x) : g.Lists n ls ↔ ls = g.leavesWithin depth n := by
  induction depth generalizing n x ls with
  | zero => exact hx.elim
  | succ depth ih =>
    have hbelow {children} (hcon : g.content n = .complex children) : ∀ e ∈ children.entries,
        ∀ ls, g.Lists e.2 ls ↔ ls = g.leavesWithin depth e.2 := by
      intro e he ls
      obtain ⟨y, hy, hden⟩ := hd.entry hn hcon e he
      exact ih (hx e.1 y hy) hden
    constructor
    · intro h
      cases h with
      | leaf hend => exact (leavesWithin_of_end hend).symm
      | complex hcon h =>
        rw [leavesWithin, hcon]
        refine List.flatMap_congr fun e he => ?_
        rw [(hbelow hcon e he _).1 (h e he)]
    · rintro rfl
      cases hcon : g.content n with
      | complex children =>
        rw [leavesWithin, hcon]
        exact .complex hcon fun e he => (hbelow hcon e he _).2 rfl
      | empty | atom a =>
        have hend : (g.content n).isComplex = false := by rw [hcon]; rfl
        exact leavesWithin_of_end hend ▸ .leaf hend

/-- Listing ends exactly if paths do, and then with all the leaves. -/
theorem lists_iff (hg : g.Sound given) (hn : n < g.size) {ls : List (Path × Atom)} :
    g.Lists n ls ↔ g.Grounded n ∧ ls = g.leaves n := by
  have hs := hg.settled
  have hlist (hA : g.Grounded n) : g.Lists n ls ↔ ls = g.leaves n :=
    lists_iff_leavesWithin (hg.denotes_below n)
      (hg.height hn fun _ _ _ => hA.eq_nil_below hs) ⟨hn, rfl, .self hs n⟩
  constructor
  · intro h
    have hA := h.grounded hs
    exact ⟨hA, (hlist hA).1 h⟩
  · rintro ⟨hA, h⟩
    exact (hlist hA).2 h

end FeatureLogic.Arena
