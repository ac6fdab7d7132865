import FeatureLogic.Proofs.FeatureTree
import FeatureLogic.Proofs.Path
/-!
The maximal paths of a feature tree. They come in order, every path of the tree lies on the way to
one of them, and the tree can be made from them again: trees that have the same paths are equal.
-/
set_option autoImplicit false

namespace FeatureLogic.FeatureTree

variable {t u : FeatureTree} {f g : Feature} {p q : Path} {below siblings : FeatureTree}

theorem branchLeaves_branch (f : Feature) (below siblings : FeatureTree) :
    (branch f below siblings).branchLeaves =
      below.leaves.map (f :: ·) ++ siblings.branchLeaves := by
  rw [branchLeaves, leaves]
  cases below <;> rfl

theorem nil_notMem_branchLeaves (t : FeatureTree) : [] ∉ t.branchLeaves := by
  induction t with
  | leaf => simp [branchLeaves]
  | branch f below siblings _ ih => simp [branchLeaves_branch, ih]

/-- The first feature does not come back. -/
theorem Ordered.child?_siblings (ht : (branch f below siblings).Ordered) :
    siblings.child? f = none := by
  refine Option.eq_none_iff_forall_ne_some.2 fun u hu => ?_
  have hlt := ht.1 f u hu
  simp at hlt

theorem mem_branchLeaves (ht : t.Ordered) :
    f :: p ∈ t.branchLeaves ↔ ∃ u, t.child? f = some u ∧ p ∈ u.leaves := by
  induction t with
  | leaf => simp [branchLeaves, child?]
  | branch g below siblings _ ih =>
    rw [branchLeaves_branch, List.mem_append, ih ht.2.2, child?]
    by_cases hf : f = g
    · subst hf
      simp [ht.child?_siblings]
    · simp [hf, Ne.symm hf]

/-- A leaf is a path below which the tree has nothing. -/
theorem mem_leaves (ht : t.Ordered) : p ∈ t.leaves ↔ t.subtree? p = some leaf := by
  induction p generalizing t with
  | nil =>
    rw [subtree?_nil]
    cases t with
    | leaf => simp [leaves, isLeaf]
    | branch f below siblings => simp [leaves, isLeaf, nil_notMem_branchLeaves]
  | cons f p ih =>
    have hstep : f :: p ∈ t.leaves ↔ ∃ u, t.child? f = some u ∧ p ∈ u.leaves := by
      cases t with
      | leaf => simp [leaves, isLeaf, child?]
      | branch g below siblings => exact mem_branchLeaves ht
    rw [hstep, subtree?_cons, Option.bind_eq_some_iff]
    exact exists_congr fun u => and_congr_right fun hu => ih (ht.child hu)

theorem inOrder_branchLeaves (ht : t.Ordered) : Path.InOrder t.branchLeaves := by
  induction t with
  | leaf => exact .nil
  | branch f below siblings ihb ihs =>
    obtain ⟨hlt, hbelow, hsiblings⟩ := ht
    rw [branchLeaves_branch]
    refine Path.InOrder.append ?_ (ihs hsiblings) fun q hq => ?_
    · cases below with
      | leaf => exact List.pairwise_singleton ..
      | branch g below siblings => exact ihb hbelow
    · cases q with
      | nil => exact absurd hq (nil_notMem_branchLeaves siblings)
      | cons g q =>
        obtain ⟨u, hu, -⟩ := (mem_branchLeaves hsiblings).1 hq
        exact ⟨g, q, rfl, hlt g u hu⟩

theorem inOrder_leaves (ht : t.Ordered) : Path.InOrder t.leaves := by
  cases t with
  | leaf => exact List.pairwise_singleton ..
  | branch f below siblings => exact inOrder_branchLeaves ht

/-! ## Maximal paths -/

/-- The tree has the path, and none that goes on from it. -/
def Maximal (t : FeatureTree) (p : Path) : Prop :=
  t.contains p = true ∧ ∀ q, t.contains q = true → p <+: q → q = p

theorem maximal_iff : t.Maximal p ↔ t.subtree? p = some leaf := by
  constructor
  · rintro ⟨hp, hmax⟩
    rw [contains_eq] at hp
    obtain ⟨u, hu⟩ := Option.isSome_iff_exists.1 hp
    cases u with
    | leaf => exact hu
    | branch f below siblings =>
      have hlonger : t.contains (p ++ [f]) = true := by simp [contains_child hu, child?]
      simpa using hmax _ hlonger (List.prefix_append p [f])
  · intro hp
    refine ⟨by rw [contains_eq, hp]; rfl, ?_⟩
    rintro _ hq ⟨r, rfl⟩
    rw [contains_append hp, contains_leaf] at hq
    rw [hq, List.append_nil]

theorem exists_subtree?_eq_leaf (t : FeatureTree) : ∃ p, t.subtree? p = some leaf := by
  induction t with
  | leaf => exact ⟨[], subtree?_nil leaf⟩
  | branch f below siblings ih _ =>
    obtain ⟨p, hp⟩ := ih
    exact ⟨f :: p, by rw [subtree?_cons, child?, if_pos rfl]; exact hp⟩

/-- A path of the tree lies on the way to one of its leaves. -/
theorem exists_leaf_of_contains (ht : t.Ordered) (hp : t.contains p = true) :
    ∃ q ∈ t.leaves, p <+: q := by
  rw [contains_eq] at hp
  obtain ⟨u, hu⟩ := Option.isSome_iff_exists.1 hp
  obtain ⟨r, hr⟩ := u.exists_subtree?_eq_leaf
  exact ⟨p ++ r, (mem_leaves ht).2 ((subtree?_append hu r).trans hr), List.prefix_append p r⟩

/-! ## Trees with the same paths -/

/-- The branches of a tree start with its least feature. -/
theorem Ordered.isLE_of_contains (ht : (branch f below siblings).Ordered)
    (hg : (branch f below siblings).contains [g] = true) : (compare f g).isLE = true := by
  by_cases he : g = f
  · simp [he]
  · rw [contains_cons, child?, if_neg he] at hg
    cases hu : siblings.child? g with
    | none => simp [hu] at hg
    | some u => simp [ht.1 g u hu]

theorem eq_of_contains (ht : t.Ordered) (hu : u.Ordered)
    (h : ∀ p, t.contains p = u.contains p) : t = u := by
  induction t generalizing u with
  | leaf =>
    cases u with
    | leaf => rfl
    | branch g below siblings => simpa [contains_cons, child?] using h [g]
  | branch f below siblings ihb ihs =>
    cases u with
    | leaf => simpa [contains_cons, child?] using h [f]
    | branch g below' siblings' =>
      have hfg : (compare f g).isLE = true :=
        ht.isLE_of_contains (by rw [h]; simp [contains_cons, child?])
      have hgf : (compare g f).isLE = true :=
        hu.isLE_of_contains (by rw [← h]; simp [contains_cons, child?])
      obtain rfl := Std.LawfulEqOrd.eq_of_compare (Std.OrientedCmp.isLE_antisymm hfg hgf)
      have hbelow : below = below' :=
        ihb ht.2.1 hu.2.1 fun p => by simpa [contains_cons, child?] using h (f :: p)
      have hsiblings : siblings = siblings' := by
        refine ihs ht.2.2 hu.2.2 fun p => ?_
        cases p with
        | nil => simp
        | cons g p =>
          by_cases hg : g = f
          · subst hg
            rw [contains_cons, contains_cons, ht.child?_siblings, hu.child?_siblings]
          · simpa [contains_cons, child?, hg] using h (g :: p)
      rw [hbelow, hsiblings]

theorem ofPaths_leaves (ht : t.Ordered) : ofPaths t.leaves = t := by
  refine eq_of_contains (ordered_ofPaths _) ht fun p => ?_
  rw [Bool.eq_iff_iff, contains_ofPaths]
  constructor
  · rintro (rfl | ⟨q, hq, r, rfl⟩)
    · exact contains_nil t
    · exact contains_of_append (maximal_iff.2 ((mem_leaves ht).1 hq)).1
  · exact fun hp => .inr (exists_leaf_of_contains ht hp)

/-- The tree made from some paths is the set of all that lies on the way to them. Its leaves are its
maximal paths, in order, and they make it again; trees with the same paths are equal, however they
came to be; and what the tree has below a feature are the paths that go on from there. -/
theorem ofPaths_pathSet (ps : List Path) :
    (∀ p, (ofPaths ps).contains p = true ↔ p = [] ∨ ∃ q ∈ ps, p <+: q) ∧
    Path.InOrder (ofPaths ps).leaves ∧
    (∀ p, p ∈ (ofPaths ps).leaves ↔ (ofPaths ps).Maximal p) ∧
    ofPaths (ofPaths ps).leaves = ofPaths ps ∧
    (∀ qs, ofPaths ps = ofPaths qs ↔ ∀ p, (ofPaths ps).contains p = (ofPaths qs).contains p) ∧
    (∀ qs, (∀ p, p ∈ ps ↔ p ∈ qs) → ofPaths ps = ofPaths qs) ∧
    ∀ f q, (∃ u, (ofPaths ps).child? f = some u ∧ u.contains q = true) ↔
      (ofPaths ps).contains (f :: q) = true := by
  have hps := ordered_ofPaths ps
  have hext : ∀ qs, (∀ p, (ofPaths ps).contains p = (ofPaths qs).contains p) →
      ofPaths ps = ofPaths qs := fun qs => eq_of_contains hps (ordered_ofPaths qs)
  refine ⟨contains_ofPaths ps, inOrder_leaves hps, fun p => (mem_leaves hps).trans maximal_iff.symm,
    ofPaths_leaves hps, fun qs => ⟨fun h p => by rw [h], hext qs⟩, fun qs h => ?_, fun f q => ?_⟩
  · refine hext qs fun p => ?_
    rw [Bool.eq_iff_iff, contains_ofPaths, contains_ofPaths]
    simp only [h]
  · rw [contains_cons]
    cases (ofPaths ps).child? f <;> simp

example : (ofPaths [[⟨1⟩, ⟨2⟩], [⟨1⟩], [⟨3⟩]]).leaves = [[⟨1⟩, ⟨2⟩], [⟨3⟩]] := by decide

end FeatureLogic.FeatureTree
