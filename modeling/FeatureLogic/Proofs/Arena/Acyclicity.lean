import FeatureLogic.Proofs.Arena.Invariant
/-!
Arenas without cycles. Below a node from which no path goes on for ever, no path leads back to where
it starts, and there are fewer steps to go than the arena has nodes.
-/
set_option autoImplicit false

namespace FeatureLogic.Arena

variable {given : Content → Prop} {g : Arena} {n m c d : NodeId} {f : Feature} {p q : Path}

/-- `c` is a child of `n`, or has become one with a child of `n`. -/
def HasChild (g : Arena) (n c : NodeId) : Prop :=
  ∃ f d, g.child? n f = some d ∧ g.resolve d = g.resolve c

/-- No path down from `n` goes on for ever. -/
def Grounded (g : Arena) (n : NodeId) : Prop := Acc (fun c n => g.HasChild n c) n

/-- No path leads from a node back to it. -/
def Acyclic (g : Arena) : Prop := ∀ n p, g.lookup n p = .found (g.resolve n) → p = []

/-- Some path leads from `n` to `m`. -/
def Reaches (g : Arena) (n m : NodeId) : Prop := ∃ p, g.lookup n p = .found (g.resolve m)

namespace Reaches

theorem of_resolve (h : g.resolve n = g.resolve m) : g.Reaches n m := ⟨[], by rw [lookup, h]⟩

theorem of_child (hc : g.child? n f = some c) (h : g.Reaches c m) : g.Reaches n m := by
  obtain ⟨p, hp⟩ := h
  exact ⟨f :: p, by rw [lookup_cons_of_child hc, hp]⟩

theorem congr_left (hg : g.Settled) (he : g.resolve n = g.resolve c) (h : g.Reaches n m) :
    g.Reaches c m := by
  obtain ⟨p, hp⟩ := h
  exact ⟨p, by rw [← hg.lookup_congr he, hp]⟩

theorem child (hg : g.Settled) (h : g.Reaches n m) (hc : g.child? m f = some c) :
    g.Reaches n c := by
  obtain ⟨p, hp⟩ := h
  refine ⟨p ++ [f], ?_⟩
  rw [hg.lookup_append hp, hg.lookup_congr (hg.resolve_resolve m), lookup_cons_of_child hc, lookup]

end Reaches

namespace Grounded

theorem congr (hg : g.Settled) (he : g.resolve n = g.resolve m) (hn : g.Grounded n) :
    g.Grounded m := by
  refine .intro m fun c hc => hn.inv ?_
  obtain ⟨f, d, hd, hdc⟩ := hc
  exact ⟨f, d, by rw [hg.child?_congr he, hd], hdc⟩

theorem child (hn : g.Grounded n) (hc : g.child? n f = some c) : g.Grounded c :=
  hn.inv ⟨f, c, hc, rfl⟩

theorem of_children (h : ∀ f c, g.child? n f = some c → g.Grounded c) (hg : g.Settled) :
    g.Grounded n := by
  refine .intro n fun c hc => ?_
  obtain ⟨f, d, hd, hdc⟩ := hc
  exact (h f d hd).congr hg hdc

theorem of_lookup (hg : g.Settled) (hn : g.Grounded n) (hl : g.lookup n p = .found m) :
    g.Grounded m := by
  induction p generalizing n with
  | nil =>
    cases hl
    exact hn.congr hg (hg.resolve_resolve n).symm
  | cons f p ih =>
    obtain ⟨c, hc, hrest⟩ := lookup_cons_eq_found.1 hl
    exact ih (hn.child hc) hrest

/-- To come back to `n` by a path is to come back to its first node below `n`. -/
theorem eq_nil (hg : g.Settled) (hn : g.Grounded n) (hl : g.lookup n p = .found (g.resolve n)) :
    p = [] := by
  induction hn generalizing p with
  | intro n _ ih =>
    cases p with
    | nil => rfl
    | cons f p =>
      obtain ⟨c, hc, hrest⟩ := lookup_cons_eq_found.1 hl
      have hback : g.lookup c (p ++ [f]) = .found (g.resolve c) := by
        rw [hg.lookup_append hrest, hg.lookup_congr (hg.resolve_resolve n),
          lookup_cons_of_child hc, lookup]
      simpa using ih c ⟨f, c, hc, rfl⟩ hback

end Grounded

/-! ## Arenas that are read alike -/

section
variable {h : Arena} (hv : SameView g h)
include hv

theorem SameView.reaches_iff : h.Reaches n m ↔ g.Reaches n m := by
  simp only [Reaches, hv.lookup, hv.resolve]

theorem SameView.grounded_iff : h.Grounded n ↔ g.Grounded n := by
  have hchild : h.HasChild = g.HasChild := by
    funext n c
    simp only [HasChild, hv.child?, hv.resolve]
  rw [Grounded, Grounded, hchild]

end

/-! ## Bounds -/

/-- Nodes as points, of which those below `n` are entered by edges. -/
def below (g : Arena) (n : NodeId) : FeatureAlgebra where
  Point := NodeId
  edge x f y := ∃ c, g.child? x f = some c ∧ g.resolve c = y ∧ g.Reaches n y
  label x a := g.content x = .atom a
  edge_unique := by
    rintro x y z f ⟨c, hc, rfl, -⟩ ⟨d, hd, rfl, -⟩
    rw [Option.some.inj (hc.symm.trans hd)]

theorem exists_lookup_of_below (hg : g.Settled)
    (h : Relation.TransGen (g.below n).Step c d) :
    ∃ p, p ≠ [] ∧ g.lookup c p = .found d ∧ g.Reaches n d := by
  induction h with
  | single h =>
    obtain ⟨f, e, he, rfl, hreach⟩ := h
    exact ⟨[f], by simp, by rw [lookup_cons_of_child he, lookup], hreach⟩
  | tail _ h ih =>
    obtain ⟨p, hp, hl, -⟩ := ih
    obtain ⟨f, e, he, rfl, hreach⟩ := h
    refine ⟨p ++ [f], by simp, ?_, hreach⟩
    rw [hg.lookup_append hl, lookup_cons_of_child he, lookup]

/-- If no node that can be reached leads back to itself, the arena has room for every path. -/
theorem Sound.height (hg : g.Sound given) (hn : n < g.size)
    (h : ∀ p q m, g.lookup n p = .found m → g.lookup m q = .found m → q = []) :
    (g.below n).Height g.size (g.resolve n) := by
  have hs := hg.settled
  have hA : (g.below n).Acyclic := by
    intro m hm
    obtain ⟨q, hq, hl, p, hp⟩ := exists_lookup_of_below hs hm
    rw [hs.resolve_of_lookup hl] at hp
    exact hq (h p q m hp hl)
  refine hA.height (fun c x => g.resolve c = x) ?_ ?_ ⟨n, hn, rfl⟩
  · rintro c x y rfl rfl
    rfl
  · rintro x f y ⟨c, hc, rfl, -⟩
    exact ⟨c, hg.child?_lt hc, rfl⟩

theorem Reaches.edge (hg : g.Settled) (hc : g.Reaches n c) (hd : g.child? c f = some d) :
    (g.below n).edge c f (g.resolve d) ∧ g.Reaches n (g.resolve d) := by
  obtain ⟨p, hp⟩ := hc.child hg hd
  have hreach : g.Reaches n (g.resolve d) := ⟨p, by rw [hp, hg.resolve_resolve]⟩
  exact ⟨⟨d, hd, rfl, hreach⟩, hreach⟩

theorem grounded_of_height (hg : g.Settled) {k : Nat} (hk : (g.below n).Height k c)
    (hc : g.Reaches n c) : g.Grounded c := by
  induction k generalizing c with
  | zero => exact hk.elim
  | succ k ih =>
    refine .of_children (fun f d hd => ?_) hg
    obtain ⟨hedge, hreach⟩ := hc.edge hg hd
    exact (ih (hk f _ hedge) hreach).congr hg (hg.resolve_resolve d)

theorem length_lt_of_height (hg : g.Settled) {k : Nat} (hk : (g.below n).Height k c)
    (hc : g.Reaches n c) (hl : g.lookup c p = .found m) : p.length < k := by
  induction k generalizing c p with
  | zero => exact hk.elim
  | succ k ih =>
    cases p with
    | nil => exact Nat.zero_lt_succ k
    | cons f p =>
      obtain ⟨d, hd, hrest⟩ := lookup_cons_eq_found.1 hl
      obtain ⟨hedge, hreach⟩ := hc.edge hg hd
      rw [← hg.lookup_congr (hg.resolve_resolve d)] at hrest
      exact Nat.succ_lt_succ (ih (hk f _ hedge) hreach hrest)

theorem Reaches.self (hg : g.Settled) (n : NodeId) : g.Reaches n (g.resolve n) :=
  .of_resolve (hg.resolve_resolve n).symm

/-- In an arena of finite size, a node is grounded if none below it leads back to itself. -/
theorem Sound.grounded (hg : g.Sound given) (hn : n < g.size)
    (h : ∀ p q m, g.lookup n p = .found m → g.lookup m q = .found m → q = []) : g.Grounded n :=
  (grounded_of_height hg.settled (hg.height hn h) (.self hg.settled n)).congr hg.settled
    (hg.settled.resolve_resolve n)

theorem Grounded.eq_nil_below (hg : g.Settled) (hn : g.Grounded n) (hp : g.lookup n p = .found m)
    (hq : g.lookup m q = .found m) : q = [] := by
  refine (hn.of_lookup hg hp).eq_nil hg ?_
  rw [hq, hg.resolve_of_lookup hp]

/-- No path down from a grounded node is as long as the arena is large. -/
theorem Grounded.length_lt (hg : g.Sound given) (hn : n < g.size) (h : g.Grounded n)
    (hl : g.lookup n p = .found m) : p.length < g.size := by
  rw [← hg.settled.lookup_congr (hg.settled.resolve_resolve n)] at hl
  exact length_lt_of_height hg.settled
    (hg.height hn fun _ _ _ => h.eq_nil_below hg.settled) (.self hg.settled n) hl

theorem Acyclic.grounded (hg : g.Sound given) (hA : g.Acyclic) (n : NodeId) : g.Grounded n := by
  have hs := hg.settled
  rcases Nat.lt_or_ge n g.size with hn | hn
  · refine hg.grounded hn fun p q m hp hq => hA m q ?_
    rw [hq, hs.resolve_of_lookup hp]
  · exact .of_children (fun f c hc => absurd (lt_of_child hc) (Nat.not_lt_of_le hn)) hs

theorem acyclic_of_grounded (hg : g.Settled) (h : ∀ n, g.Grounded n) : g.Acyclic :=
  fun n _ hl => (h n).eq_nil hg hl

/-- If children are always on a lower level there is no cycle. -/
theorem acyclic_of_level (level : NodeId → Nat)
    (hres : ∀ n < g.size, level (g.resolve n) = level n)
    (hchild : ∀ n < g.size, ∀ e ∈ (g.content n).children, level e.2 < level n) : g.Acyclic := by
  have hdown : ∀ {n f c}, g.child? n f = some c → level c < level n :=
    fun hc => hchild _ (lt_of_child hc) (_, _) (mem_children_iff.2 hc)
  have hlevel : ∀ {n p m}, g.lookup n p = .found m → level m + p.length ≤ level n := by
    intro n p m hl
    induction p generalizing n with
    | nil =>
      cases hl
      exact Nat.le_of_eq (map_resolve hres n)
    | cons f p ih =>
      obtain ⟨c, hc, hrest⟩ := lookup_cons_eq_found.1 hl
      exact Nat.succ_le_of_lt (Nat.lt_of_le_of_lt (ih hrest) (hdown hc))
  intro n p hl
  have hle := hlevel hl
  rw [map_resolve hres] at hle
  exact List.length_eq_zero_iff.1 (by omega)

end FeatureLogic.Arena
