import FeatureLogic.Arena.Leaves
import FeatureLogic.Proofs.Arena.Denoting
import FeatureLogic.Proofs.SortedMap
/-!
The leaves below a node: the paths that lead to nodes without features, each with what is there. No
leaf path leads through another one, and every path leads on to a leaf.
-/
set_option autoImplicit false

namespace FeatureLogic

/-- No path is the beginning of a later one, or goes on from it. -/
def PrefixFree (values : List (Path × Atom)) : Prop :=
  values.Pairwise fun d e => ¬ d.1 <+: e.1 ∧ ¬ e.1 <+: d.1

theorem PrefixFree.perm {values values' : List (Path × Atom)} (h : PrefixFree values)
    (hperm : values.Perm values') : PrefixFree values' :=
  (hperm.pairwise_iff fun hde => hde.symm).1 h

namespace Arena

variable {g : Arena} {A : FeatureAlgebra} {den : NodeId → A.Point → Prop} {x : A.Point}
  {n m : NodeId} {depth : Nat} {p : Path} {a : Atom}

theorem prefixFree_leaves (g : Arena) (n : NodeId) : PrefixFree (g.leaves n) := by
  have h : ∀ depth n, PrefixFree (g.leavesWithin depth n) := by
    intro depth
    induction depth with
    | zero => exact fun n => .nil
    | succ depth ih =>
      intro n
      rw [leavesWithin]
      split
      · rename_i children _
        refine List.pairwise_flatMap.2 ⟨fun e _ => ?_, ?_⟩
        · refine List.pairwise_map.2 ((ih e.2).imp fun {d e'} hde => ?_)
          simpa [List.cons_prefix_cons] using hde
        · refine List.Pairwise.imp (fun {e e'} hlt d hd d' hd' => ?_) children.ascending
          obtain ⟨⟨p, a⟩, -, rfl⟩ := List.mem_map.1 hd
          obtain ⟨⟨p', a'⟩, -, rfl⟩ := List.mem_map.1 hd'
          have hne : e.1 ≠ e'.1 := by
            intro he
            simp [he] at hlt
          simp [List.cons_prefix_cons, hne, hne.symm]
      · exact List.pairwise_singleton ..
  exact h g.size n

theorem mem_leavesWithin_cons {children : SortedMap Feature NodeId} {f : Feature}
    (hcon : g.content n = .complex children) : (f :: p, a) ∈ g.leavesWithin (depth + 1) n ↔
      ∃ c, children.get? f = some c ∧ (p, a) ∈ g.leavesWithin depth c := by
  simp only [leavesWithin, hcon, List.mem_flatMap, List.mem_map, SortedMap.get?_eq_some_iff]
  constructor
  · rintro ⟨⟨f, c⟩, hc, ⟨p, a⟩, hp, he⟩
    cases he
    exact ⟨c, hc, hp⟩
  · rintro ⟨c, hc, hp⟩
    exact ⟨(f, c), hc, (p, a), hp, rfl⟩

/-- A leaf is at the end of its path, cycles or not. -/
theorem lookup_of_mem_leavesWithin (hs : g.Settled) (h : (p, a) ∈ g.leavesWithin depth n) :
    ∃ m, g.lookup n p = .found m ∧ (g.content m).isComplex = false ∧ a = (g.content m).atom? := by
  induction depth generalizing n p with
  | zero => cases h
  | succ depth ih =>
    cases hcon : g.content n with
    | complex children =>
      cases p with
      | nil =>
        rw [leavesWithin, hcon] at h
        simp at h
      | cons f p =>
        obtain ⟨c, hc, h⟩ := (mem_leavesWithin_cons hcon).1 h
        obtain ⟨m, hm, hend⟩ := ih h
        exact ⟨m, by simp only [lookup, hcon, hc, hm], hend⟩
    | empty =>
      rw [leavesWithin, hcon] at h
      obtain ⟨rfl, rfl⟩ := Prod.mk.inj (List.mem_singleton.1 h)
      exact ⟨g.resolve n, rfl, by rw [hs.content_resolve, hcon]; exact ⟨rfl, rfl⟩⟩
    | atom b =>
      rw [leavesWithin, hcon] at h
      obtain ⟨rfl, rfl⟩ := Prod.mk.inj (List.mem_singleton.1 h)
      exact ⟨g.resolve n, rfl, by rw [hs.content_resolve, hcon]; exact ⟨rfl, rfl⟩⟩

/-- The leaves are the ends of the paths that go no further. -/
theorem mem_leavesWithin (hs : g.Settled) (hd : g.Denotes A den) (hx : A.Height depth x)
    (hn : den n x) : (p, a) ∈ g.leavesWithin depth n ↔
      ∃ m, g.lookup n p = .found m ∧ (g.content m).isComplex = false ∧
        a = (g.content m).atom? := by
  induction depth generalizing n x p with
  | zero => exact hx.elim
  | succ depth ih =>
    cases p with
    | nil =>
      simp only [lookup, Lookup.found.injEq, exists_eq_left', hs.content_resolve, leavesWithin]
      cases g.content n <;> simp [Content.isComplex]
    | cons f p =>
      cases hcon : g.content n with
      | empty => simp [leavesWithin, hcon, lookup]
      | atom b => simp [leavesWithin, hcon, lookup]
      | complex children =>
        rw [mem_leavesWithin_cons hcon]
        simp only [lookup, hcon]
        cases hc : children.get? f with
        | none => simp
        | some c =>
          obtain ⟨y, hy, hden⟩ := hd.entry hn hcon (f, c) ((SortedMap.get?_eq_some_iff _).1 hc)
          simp [ih (hx f y hy) hden]

/-- From every node a path leads on to a leaf. -/
theorem exists_end (hg : g.WellFormed) (hd : g.Denotes A den) (hx : A.Height depth x)
    (hn : den n x) : ∃ p m, g.lookup n p = .found m ∧ (g.content m).isComplex = false := by
  induction depth generalizing n x with
  | zero => exact hx.elim
  | succ depth ih =>
    cases hcon : g.content n with
    | empty => exact ⟨[], _, rfl, by rw [hg.settled.content_resolve, hcon]; rfl⟩
    | atom a => exact ⟨[], _, rfl, by rw [hg.settled.content_resolve, hcon]; rfl⟩
    | complex children =>
      obtain ⟨f, c, hc⟩ := hg.child_of_complex hcon
      obtain ⟨y, hy, hden⟩ := hd.child hn hc
      obtain ⟨p, m, hm, hend⟩ := ih (hx f y hy) hden
      exact ⟨f :: p, m, lookup_cons_eq_found.2 ⟨c, hc, hm⟩, hend⟩

end Arena

end FeatureLogic
