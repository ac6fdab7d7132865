import FeatureLogic.SortedSet
import Mathlib.Data.List.Forall2
/-!
Sorted sets: some of the elements, the elements mapped, and membership where elements compare as
equal only if they are.
-/
set_option autoImplicit false

namespace FeatureLogic

variable {α : Type} [Ord α]

/-- The elements that pass a test. -/
def SortedSet.filter (p : α → Bool) (s : SortedSet α) : SortedSet α :=
  ⟨s.toList.filter p, s.ascending.filter p⟩

theorem SortedSet.nodup [Std.TransOrd α] (s : SortedSet α) : s.toList.Nodup := by
  refine s.ascending.imp fun hab he => ?_
  subst he
  simp at hab

theorem SortedSet.filter_eq_self {p : α → Bool} {s : SortedSet α} (h : ∀ a ∈ s.toList, p a = true) :
    s.filter p = s :=
  SortedSet.ext (List.filter_eq_self.2 h)

/-- An element that does not pass the test makes no difference. -/
theorem SortedSet.filter_insert [Std.TransOrd α] {p : α → Bool} {a : α} (h : p a = false)
    (s : SortedSet α) : (s.insert a).filter p = s.filter p := by
  refine SortedSet.ext (?_ : (insertElement a s.toList).filter p = s.toList.filter p)
  induction s.toList with
  | nil => simp [insertElement, h]
  | cons b bs ih =>
    rw [insertElement]
    split
    · rw [List.filter_cons, h, if_neg Bool.false_ne_true]
    · rfl
    · rw [List.filter_cons, List.filter_cons, ih]

theorem insertElement_perm {a : α} {bs : List α} (h : ∀ b ∈ bs, compare a b ≠ .eq) :
    (insertElement a bs).Perm (a :: bs) := by
  induction bs with
  | nil => exact .refl _
  | cons b bs ih =>
    obtain ⟨hb, hbs⟩ := List.forall_mem_cons.1 h
    rw [insertElement]
    split
    · exact .refl _
    · contradiction
    · exact ((ih hbs).cons b).trans (.swap a b bs)

section Map
variable [Std.TransOrd α]

/-- A set keeps all elements it is made from if no two of them compare as equal. -/
theorem SortedSet.ofList_perm {as : List α} (h : as.Pairwise fun a b => compare a b ≠ .eq) :
    (ofList as).toList.Perm as := by
  have key : ∀ (as : List α) (s : SortedSet α), as.Pairwise (fun a b => compare a b ≠ .eq) →
      (∀ a ∈ as, ∀ b ∈ s.toList, compare a b ≠ .eq) →
      (as.foldl insert s).toList.Perm (as ++ s.toList) := by
    intro as
    induction as with
    | nil => exact fun s _ _ => .refl _
    | cons a as ih =>
      intro s has hs
      obtain ⟨ha, has⟩ := List.pairwise_cons.1 has
      obtain ⟨hsa, hs⟩ := List.forall_mem_cons.1 hs
      refine (ih (s.insert a) has fun c hc b hb => ?_).trans ?_
      · rcases mem_insertElement hb with rfl | hb
        · exact fun he => ha c hc (Std.OrientedCmp.eq_symm he)
        · exact hs c hc b hb
      · exact ((insertElement_perm hsa).append_left as).trans List.perm_middle
  exact (key as empty h fun _ _ _ hb => absurd hb List.not_mem_nil).trans
    (.of_eq (List.append_nil as))

/-- The images of the elements. -/
def SortedSet.map (f : α → α) (s : SortedSet α) : SortedSet α := ofList (s.toList.map f)

theorem SortedSet.toList_map_perm {f : α → α} {s : SortedSet α}
    (hf : ∀ a b, compare (f a) (f b) = .eq → compare a b = .eq) :
    (s.map f).toList.Perm (s.toList.map f) := by
  refine ofList_perm (List.pairwise_map.2 (s.ascending.imp fun {a b} hab he => ?_))
  rw [hf a b he] at hab
  cases hab

end Map

/-! ## Sets that compare as equal -/

theorem compare_list_eq_iff {as bs : List α} :
    compare as bs = .eq ↔ List.Forall₂ (fun a b => compare a b = .eq) as bs := by
  change List.compareLex compare as bs = .eq ↔ _
  induction as generalizing bs with
  | nil => cases bs <;> simp [List.compareLex_nil_left_eq_eq, List.forall₂_nil_left_iff]
  | cons a as ih =>
    cases bs with
    | nil => simp [List.compareLex_nil_right_eq_eq, List.forall₂_nil_right_iff]
    | cons b bs =>
      rw [List.compareLex_cons_cons, Ordering.then_eq_eq, ih, List.forall₂_cons]

section Contents
variable [Std.TransOrd α]

theorem hasElement_insertElement (a b : α) (bs : List α) :
    hasElement b (insertElement a bs) = (compare b a == .eq || hasElement b bs) := by
  induction bs with
  | nil => simp [insertElement, hasElement]
  | cons c bs ih =>
    simp only [insertElement]
    split
    · rfl
    · rename_i hac
      have hbac : compare b a = compare b c := Std.TransCmp.congr_right hac
      simp [hasElement, hbac]
    · simp only [hasElement, List.any_cons] at ih ⊢
      rw [ih, Bool.or_left_comm]

theorem isLE_of_hasElement {a b : α} {bs : List α} (hb : ∀ c ∈ bs, compare b c = .lt)
    (ha : hasElement a (b :: bs) = true) : (compare b a).isLE = true := by
  obtain ⟨c, hc, hac⟩ := List.any_eq_true.1 ha
  rw [Std.TransCmp.congr_right (beq_iff_eq.1 hac)]
  rcases List.mem_cons.1 hc with rfl | hc
  · simp
  · simp [hb c hc]

theorem hasElement_eq_false {a b : α} {bs : List α} (hb : ∀ c ∈ bs, compare b c = .lt)
    (hab : compare a b = .eq) : hasElement a bs = false := by
  refine List.any_eq_false.2 fun c hc hac => ?_
  rw [Std.TransCmp.congr_left hab, hb c hc] at hac
  cases hac

/-- An element that is there already makes no difference. -/
theorem insertElement_of_hasElement {a : α} {bs : List α}
    (hbs : bs.Pairwise fun a b => compare a b = .lt) (h : hasElement a bs = true) :
    insertElement a bs = bs := by
  induction bs with
  | nil => simp [hasElement] at h
  | cons b bs ih =>
    obtain ⟨hb, hbs⟩ := List.pairwise_cons.1 hbs
    rw [insertElement]
    split
    · rename_i hab
      have hle := isLE_of_hasElement hb h
      rw [Std.OrientedCmp.gt_of_lt hab] at hle
      cases hle
    · rfl
    · rename_i hab
      rw [ih hbs (by simpa [hasElement, hab] using h)]

/-- Ascending lists with the same elements run side by side. -/
theorem forall₂_of_hasElement {as bs : List α} (has : as.Pairwise fun a b => compare a b = .lt)
    (hbs : bs.Pairwise fun a b => compare a b = .lt)
    (h : ∀ a, hasElement a as = hasElement a bs) :
    List.Forall₂ (fun a b => compare a b = .eq) as bs := by
  induction as generalizing bs with
  | nil =>
    cases bs with
    | nil => exact .nil
    | cons b bs => simpa [hasElement] using h b
  | cons a as ih =>
    cases bs with
    | nil => simpa [hasElement] using h a
    | cons b bs =>
      obtain ⟨ha, has⟩ := List.pairwise_cons.1 has
      obtain ⟨hb, hbs⟩ := List.pairwise_cons.1 hbs
      -- each head is among the elements of the other list, so neither is the smaller
      have hab : compare a b = .eq :=
        Std.OrientedCmp.isLE_antisymm
          (isLE_of_hasElement ha ((h b).trans (by simp [hasElement])))
          (isLE_of_hasElement hb ((h a).symm.trans (by simp [hasElement])))
      refine .cons hab (ih has hbs fun c => ?_)
      have hc := h c
      have hcab : compare c a = compare c b := Std.TransCmp.congr_right hab
      by_cases hcb : compare c b = .eq
      · rw [hasElement_eq_false ha (hcab.trans hcb), hasElement_eq_false hb hcb]
      · have hbeq : (compare c b == .eq) = false := beq_eq_false_iff_ne.2 hcb
        simpa [hasElement, hcab, hbeq] using hc

namespace SortedSet

theorem contains_insert (s : SortedSet α) (a b : α) :
    (s.insert a).contains b = (compare b a == .eq || s.contains b) :=
  hasElement_insertElement a b s.toList

omit [Std.TransOrd α] in
theorem contains_eq_true {s : SortedSet α} {a : α} :
    s.contains a = true ↔ ∃ b ∈ s.toList, compare a b = .eq := by
  simp [contains, hasElement]

theorem insert_of_contains {s : SortedSet α} {a : α} (h : s.contains a = true) : s.insert a = s :=
  SortedSet.ext (insertElement_of_hasElement s.ascending h)

theorem insert_perm {s : SortedSet α} {a : α} (h : s.contains a = false) :
    (s.insert a).toList.Perm (a :: s.toList) := by
  refine insertElement_perm fun b hb hab => ?_
  rw [contains_eq_true.2 ⟨b, hb, hab⟩] at h
  cases h

theorem compare_eq_of_contains {s t : SortedSet α} (h : ∀ a, s.contains a = t.contains a) :
    compare s t = .eq :=
  compare_list_eq_iff.2 (forall₂_of_hasElement s.ascending t.ascending h)

end SortedSet
end Contents

variable [Std.LawfulEqOrd α] {a b : α}

theorem SortedSet.eq_of_compare {s t : SortedSet α} (h : compare s t = .eq) : s = t :=
  SortedSet.ext (Std.LawfulEqOrd.eq_of_compare (α := List α) h)

theorem mem_insertElement_iff {bs : List α} : b ∈ insertElement a bs ↔ b = a ∨ b ∈ bs := by
  refine ⟨mem_insertElement, ?_⟩
  induction bs with
  | nil => simp [insertElement]
  | cons c bs ih =>
    simp only [insertElement]
    split
    · simp
    · rename_i hac
      rintro (rfl | h)
      · exact Std.LawfulEqOrd.eq_of_compare hac ▸ List.mem_cons_self
      · exact h
    · simp only [List.mem_cons]
      rintro (h | h | h)
      · exact .inr (ih (.inl h))
      · exact .inl h
      · exact .inr (ih (.inr h))

namespace SortedSet
variable [Std.TransOrd α]

theorem mem_ofList {as : List α} : a ∈ (ofList as).toList ↔ a ∈ as := by
  have key : ∀ (as : List α) (s : SortedSet α),
      a ∈ (as.foldl insert s).toList ↔ a ∈ as ∨ a ∈ s.toList := by
    intro as
    induction as with
    | nil => simp
    | cons b as ih =>
      intro s
      rw [List.foldl_cons, ih, insert, mem_insertElement_iff, List.mem_cons, ← or_assoc,
        or_comm (a := a ∈ as)]
  rw [ofList, key]
  simp [empty]

end SortedSet

end FeatureLogic
