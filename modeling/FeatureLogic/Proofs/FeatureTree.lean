import FeatureLogic.FeatureTree
import Mathlib.Data.List.Infix
/-!
Feature trees as sets of paths. A tree has what lies on the way to one of the paths it is made from,
and what it has below a path is a tree again.
-/
set_option autoImplicit false

namespace FeatureLogic.FeatureTree

variable {t u : FeatureTree} {f g : Feature} {p q : Path}

/-- What the tree has below a path. -/
def subtree? : FeatureTree → Path → Option FeatureTree
  | t, [] => some t
  | t, f :: p => (t.child? f).bind fun u => u.subtree? p

theorem subtree?_nil (t : FeatureTree) : t.subtree? [] = some t := by cases t <;> rfl

theorem subtree?_cons (t : FeatureTree) (f : Feature) (p : Path) :
    t.subtree? (f :: p) = (t.child? f).bind fun u => u.subtree? p := by cases t <;> rfl

theorem subtree?_append (h : t.subtree? p = some u) (q : Path) :
    t.subtree? (p ++ q) = u.subtree? q := by
  induction p generalizing t with
  | nil =>
    rw [subtree?_nil] at h
    obtain rfl := Option.some.inj h
    rfl
  | cons g p ih =>
    rw [subtree?_cons] at h
    obtain ⟨v, hv, hu⟩ := Option.bind_eq_some_iff.1 h
    rw [List.cons_append, subtree?_cons, hv]
    exact ih hu

theorem subtree?_child (h : t.subtree? p = some u) (f : Feature) :
    t.subtree? (p ++ [f]) = u.child? f := by
  rw [subtree?_append h, subtree?_cons]
  simp only [subtree?_nil, Option.bind_fun_some]

theorem contains_eq (t : FeatureTree) (p : Path) : t.contains p = (t.subtree? p).isSome := by
  induction p generalizing t with
  | nil => rw [contains_nil, subtree?_nil]; rfl
  | cons f p ih =>
    rw [contains_cons, subtree?_cons]
    cases t.child? f with
    | none => rfl
    | some u => exact ih u

theorem contains_leaf : leaf.contains q = true ↔ q = [] := by
  cases q with
  | nil => simp
  | cons f q => simp [contains_cons, child?]

theorem contains_append (h : t.subtree? p = some u) (q : Path) :
    t.contains (p ++ q) = u.contains q := by
  rw [contains_eq, subtree?_append h, contains_eq]

theorem contains_child (h : t.subtree? p = some u) (f : Feature) :
    t.contains (p ++ [f]) = (u.child? f).isSome := by
  rw [contains_eq, subtree?_child h]

/-- A tree has what lies on the way to a path it has. -/
theorem contains_of_append (h : t.contains (p ++ q) = true) : t.contains p = true := by
  induction p generalizing t with
  | nil => exact contains_nil t
  | cons f p ih =>
    rw [List.cons_append, contains_cons] at h
    rw [contains_cons]
    cases hc : t.child? f with
    | none => simp [hc] at h
    | some u =>
      rw [hc] at h
      exact ih h

/-! ## Insertion -/

/-- Branches stand in ascending feature order. -/
def Ordered : FeatureTree → Prop
  | leaf => True
  | branch f below siblings =>
    (∀ g u, siblings.child? g = some u → compare f g = .lt) ∧ below.Ordered ∧ siblings.Ordered

theorem ordered_ofPath (p : Path) : (ofPath p).Ordered := by
  induction p with
  | nil => trivial
  | cons f p ih => exact ⟨fun g u hu => (by cases hu), ih, trivial⟩

theorem Ordered.child (ht : t.Ordered) (hu : t.child? f = some u) : u.Ordered := by
  induction t with
  | leaf => cases hu
  | branch g below siblings _ ih =>
    obtain ⟨-, hbelow, hsiblings⟩ := ht
    rw [child?] at hu
    split at hu
    · cases hu
      exact hbelow
    · exact ih hsiblings hu

theorem leaf_insert (p : Path) : leaf.insert p = ofPath p := by cases p <;> rfl

theorem insert_nil (t : FeatureTree) : t.insert [] = t := by cases t <;> rfl

theorem child?_insert (ht : t.Ordered) (f : Feature) (p : Path) (g : Feature) :
    (t.insert (f :: p)).child? g =
      if g = f then some (((t.child? f).getD leaf).insert p) else t.child? g := by
  induction t with
  | leaf =>
    rw [leaf_insert, ofPath, child?, Option.getD_none, leaf_insert]
    rfl
  | branch h below siblings _ ih =>
    obtain ⟨hlt, -, hsiblings⟩ := ht
    rw [insert]
    cases hcmp : compare f h with
    | lt =>
      have hnone : (branch h below siblings).child? f = none := by
        rw [child?, if_neg]
        · refine Option.eq_none_iff_forall_ne_some.2 fun u hu => ?_
          have hgt := Std.OrientedCmp.gt_of_lt (hlt f u hu)
          rw [hcmp] at hgt
          cases hgt
        · rintro rfl
          simp at hcmp
      rw [child?, hnone, Option.getD_none, leaf_insert]
    | eq =>
      obtain rfl := Std.LawfulEqOrd.eq_of_compare hcmp
      rw [child?, child?, if_pos rfl, Option.getD_some, child?]
      split <;> rfl
    | gt =>
      have hne : f ≠ h := by
        rintro rfl
        simp at hcmp
      rw [child?, ih hsiblings, child?, if_neg hne, child?]
      by_cases hg : g = h
      · rw [if_pos hg, if_pos hg, if_neg fun he => hne (he.symm.trans hg)]
      · rw [if_neg hg, if_neg hg]

theorem Ordered.insert (ht : t.Ordered) (p : Path) : (t.insert p).Ordered := by
  induction t generalizing p with
  | leaf => exact leaf_insert p ▸ ordered_ofPath p
  | branch h below siblings ihb ihs =>
    cases p with
    | nil => exact ht
    | cons f p =>
      obtain ⟨hlt, hbelow, hsiblings⟩ := ht
      rw [FeatureTree.insert]
      cases hcmp : compare f h with
      | lt =>
        refine ⟨fun g u hu => ?_, ordered_ofPath p, hlt, hbelow, hsiblings⟩
        rw [child?] at hu
        split at hu
        · subst g
          exact hcmp
        · exact Std.TransCmp.lt_trans hcmp (hlt g u hu)
      | eq => exact ⟨hlt, ihb hbelow p, hsiblings⟩
      | gt =>
        refine ⟨fun g u hu => ?_, hbelow, ihs hsiblings (f :: p)⟩
        rw [child?_insert hsiblings] at hu
        split at hu
        · subst g
          exact Std.OrientedCmp.lt_of_gt hcmp
        · exact hlt g u hu

theorem Ordered.foldl_insert (ht : t.Ordered) (ps : List Path) :
    (ps.foldl FeatureTree.insert t).Ordered := by
  induction ps generalizing t with
  | nil => exact ht
  | cons p ps ih => exact ih (ht.insert p)

theorem ordered_ofPaths (ps : List Path) : (ofPaths ps).Ordered :=
  Ordered.foldl_insert (t := leaf) trivial ps

theorem contains_insert (ht : t.Ordered) (p q : Path) :
    (t.insert p).contains q = true ↔ t.contains q = true ∨ q <+: p := by
  induction q generalizing t p with
  | nil => simp
  | cons g q ih =>
    cases p with
    | nil => simp [insert_nil]
    | cons f p =>
      rw [contains_cons, child?_insert ht, contains_cons, List.cons_prefix_cons]
      by_cases hg : g = f
      · subst hg
        cases hu : t.child? g with
        | none =>
          have hleaf : leaf.contains q = true → q <+: p := by
            intro hq
            rw [contains_leaf.1 hq]
            exact List.nil_prefix
          simpa [or_iff_right_of_imp hleaf] using ih (t := leaf) trivial p
        | some u => simpa using ih (ht.child hu) p
      · simp [hg]

theorem contains_foldl_insert (ht : t.Ordered) (ps : List Path) (q : Path) :
    (ps.foldl FeatureTree.insert t).contains q = true ↔
      t.contains q = true ∨ ∃ p ∈ ps, q <+: p := by
  induction ps generalizing t with
  | nil => simp
  | cons p ps ih => simp [ih (ht.insert p), contains_insert ht, or_assoc]

/-- A tree has just what lies on the way to the paths it is made from. -/
theorem contains_ofPaths (ps : List Path) (q : Path) :
    (ofPaths ps).contains q = true ↔ q = [] ∨ ∃ p ∈ ps, q <+: p := by
  rw [ofPaths, contains_foldl_insert (t := leaf) trivial, contains_leaf]

theorem mem_inits_of_contains {ps : List Path} (h : (ofPaths ps).contains p = true) :
    p ∈ [] :: ps.flatMap List.inits := by
  rcases (contains_ofPaths ps p).1 h with rfl | ⟨q, hq, hpre⟩
  · exact List.mem_cons_self
  · exact List.mem_cons_of_mem _ (List.mem_flatMap.2 ⟨q, hq, (List.mem_inits p q).2 hpre⟩)

end FeatureLogic.FeatureTree
