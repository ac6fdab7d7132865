import FeatureLogic.Proofs.Renaming.Constraint
/-!
Relative constraints the other way round. A set keeps the orientation that came in first, and its
order does not tell the two apart. So what is collected from the same constraints compares as equal,
in whatever order, how often and which way round they come; and sets that compare as equal hold the
same values and choices and, place by place, the same pairs.
-/
set_option autoImplicit false

namespace FeatureLogic

variable {W : Type} [Weight W] {assigned : SlotIndex → Prop}

/-- Facts that closed facts hold or lack together force the same. -/
theorem Facts.closure_sup_congr {F G G' : Facts}
    (h : ∀ {H : Facts}, H.Closed → (G' ≤ H ↔ G ≤ H)) : (F ⊔ G').closure = (F ⊔ G).closure := by
  have hcl := Facts.closed_closure
  refine le_antisymm (Facts.closure_le (hcl _) (sup_le ?_ ((h (hcl _)).2 ?_)))
    (Facts.closure_le (hcl _) (sup_le ?_ ((h (hcl _)).1 ?_)))
  · exact le_sup_left.trans (Facts.le_closure _)
  · exact le_sup_right.trans (Facts.le_closure _)
  · exact le_sup_left.trans (Facts.le_closure _)
  · exact le_sup_right.trans (Facts.le_closure _)

namespace Relative
variable {c d : Relative}

/-- The same pair with its terms exchanged. -/
def flip (c : Relative) : Relative := ⟨c.rhs, c.lhs⟩

theorem compare_eq_iff_flip : compare c d = .eq ↔ d = c ∨ d = c.flip := by
  obtain ⟨l, r⟩ := c
  obtain ⟨l', r'⟩ := d
  rw [compare_eq_iff, flip, mk.injEq, mk.injEq]
  constructor
  · rintro (⟨rfl, rfl⟩ | ⟨rfl, rfl⟩)
    · exact .inl ⟨rfl, rfl⟩
    · exact .inr ⟨rfl, rfl⟩
  · rintro (⟨rfl, rfl⟩ | ⟨rfl, rfl⟩)
    · exact .inl ⟨rfl, rfl⟩
    · exact .inr ⟨rfl, rfl⟩

/-- Closed facts that make one pair of paths the same make the other so. -/
theorem factsOn_le_congr {G : Facts} (hG : G.Closed) (h : compare c d = .eq) :
    d.factsOn assigned ≤ G ↔ c.factsOn assigned ≤ G := by
  rcases compare_eq_iff_flip.1 h with rfl | rfl
  · exact Iff.rfl
  · rw [factsOn_le, factsOn_le]
    exact ⟨fun hs hl hr => hG.symm (hs hr hl), fun hs hr hl => hG.symm (hs hl hr)⟩

theorem closure_factsOn_congr (h : compare c d = .eq) (F : Facts) :
    (F ⊔ d.factsOn assigned).closure = (F ⊔ c.factsOn assigned).closure :=
  Facts.closure_sup_congr fun hH => factsOn_le_congr hH h

end Relative

namespace Constraint
variable {c d : Constraint W} {cs ds : List (Constraint W)}

/-- The constraint the other way round, if it has two sides. -/
def flip : Constraint W → Constraint W
  | relative c => relative c.flip
  | c => c

omit [Weight W] in
theorem flip_flip (c : Constraint W) : c.flip.flip = c := by
  cases c <;> rfl

@[simp] theorem compare_absolute (c d : Absolute) :
    compare (absolute c : Constraint W) (absolute d) = compare c d := rfl

@[simp] theorem compare_relative (c d : Relative) :
    compare (relative c : Constraint W) (relative d) = compare c d := rfl

@[simp] theorem compare_choice (c d : Choice W) : compare (choice c) (choice d) = compare c d := rfl

theorem compare_eq_iff : compare c d = .eq ↔ d = c ∨ d = c.flip := by
  cases c with
  | absolute c =>
    cases d with
    | absolute d =>
      rw [compare_absolute, Std.compare_eq_iff_eq]
      simp [flip, eq_comm]
    | relative d => simp [compare, flip]
    | choice d => simp [compare, flip]
  | relative c =>
    cases d with
    | absolute d => simp [compare, flip]
    | relative d => simp [flip, Relative.compare_eq_iff_flip]
    | choice d => simp [compare, flip]
  | choice c =>
    cases d with
    | absolute d => simp [compare, flip]
    | relative d => simp [compare, flip]
    | choice d =>
      rw [compare_choice, Std.compare_eq_iff_eq]
      simp [flip, eq_comm]

theorem mentions_congr (h : compare c d = .eq) (s : SlotIndex) : d.mentions s = c.mentions s := by
  rcases compare_eq_iff.1 h with rfl | rfl
  · rfl
  · cases c with
    | relative c => simp [flip, mentions, Relative.flip, Bool.or_comm]
    | absolute c => rfl
    | choice c => rfl

/-- The lists hold the same constraints, in whatever order, how often and which way round. -/
def Interchangeable (cs ds : List (Constraint W)) : Prop :=
  (∀ c ∈ cs, c ∈ ds ∨ c.flip ∈ ds) ∧ ∀ d ∈ ds, d ∈ cs ∨ d.flip ∈ cs

omit [Weight W] in
theorem Interchangeable.mem_or_flip_mem_iff (h : Interchangeable cs ds) :
    c ∈ cs ∨ c.flip ∈ cs ↔ c ∈ ds ∨ c.flip ∈ ds := by
  have key : ∀ {cs ds : List (Constraint W)}, (∀ c ∈ cs, c ∈ ds ∨ c.flip ∈ ds) →
      c ∈ cs ∨ c.flip ∈ cs → c ∈ ds ∨ c.flip ∈ ds := by
    rintro cs ds h (hc | hc)
    · exact h c hc
    · have hflip := h _ hc
      rw [flip_flip] at hflip
      exact hflip.symm
  exact ⟨key h.1, key h.2⟩

end Constraint

namespace ConstraintSet
variable {s cs ds : ConstraintSet W}

theorem contains_insert (s : ConstraintSet W) (c d : Constraint W) :
    (s.insert c).contains d = (compare d c == .eq || s.contains d) := by
  cases c with
  | absolute c =>
    cases d with
    | absolute d => exact SortedSet.contains_insert s.absolutes c d
    | relative d => rfl
    | choice d => rfl
  | relative c =>
    cases d with
    | absolute d => rfl
    | relative d => exact SortedSet.contains_insert s.relatives c d
    | choice d => rfl
  | choice c =>
    cases d with
    | absolute d => rfl
    | relative d => rfl
    | choice d => exact SortedSet.contains_insert s.choices c d

theorem contains_ofList {cs : List (Constraint W)} {c : Constraint W} :
    (ofList cs).contains c = true ↔ c ∈ cs ∨ c.flip ∈ cs := by
  have key : ∀ s : ConstraintSet W, (s.insertAll cs).contains c = true ↔
      (∃ d ∈ cs, compare c d = .eq) ∨ s.contains c = true := by
    induction cs with
    | nil => simp [insertAll]
    | cons d cs ih =>
      intro s
      change ((s.insert d).insertAll cs).contains c = true ↔ _
      rw [ih, contains_insert, Bool.or_eq_true, beq_iff_eq, List.exists_mem_cons_iff, or_left_comm,
        or_assoc]
  have hempty : (empty : ConstraintSet W).contains c = false := by cases c <;> rfl
  rw [ofList, key, hempty]
  simp only [Constraint.compare_eq_iff, and_or_left, exists_or, exists_eq_right,
    Bool.false_eq_true, or_false]

theorem compare_eq_of_contains (h : ∀ c, cs.contains c = ds.contains c) :
    compare cs ds = .eq := by
  refine Ordering.then_eq_eq.2 ⟨?_, Ordering.then_eq_eq.2 ⟨?_, ?_⟩⟩
  · exact SortedSet.compare_eq_of_contains fun c => h (.absolute c)
  · exact SortedSet.compare_eq_of_contains fun c => h (.relative c)
  · exact SortedSet.compare_eq_of_contains fun c => h (.choice c)

/-- Lists of the same constraints make sets that compare as equal. -/
theorem compare_ofList {cs ds : List (Constraint W)} (h : Constraint.Interchangeable cs ds) :
    compare (ofList cs) (ofList ds) = .eq := by
  refine compare_eq_of_contains fun c => ?_
  rw [Bool.eq_iff_iff, contains_ofList, contains_ofList]
  exact h.mem_or_flip_mem_iff

theorem of_compare_eq (h : compare cs ds = .eq) : ds.absolutes = cs.absolutes ∧
    List.Forall₂ (fun c d => compare c d = .eq) cs.relatives.toList ds.relatives.toList ∧
    ds.choices = cs.choices := by
  obtain ⟨ha, h⟩ := Ordering.then_eq_eq.1 h
  obtain ⟨hr, hc⟩ := Ordering.then_eq_eq.1 h
  exact ⟨(SortedSet.eq_of_compare ha).symm, compare_list_eq_iff.1 hr,
    (SortedSet.eq_of_compare hc).symm⟩

theorem toList_of_compare_eq (h : compare cs ds = .eq) :
    List.Forall₂ (fun c d => compare c d = .eq) cs.toList ds.toList := by
  obtain ⟨ha, hr, hc⟩ := of_compare_eq h
  have hrefl : ∀ cs : List (Constraint W), List.Forall₂ (fun c d => compare c d = .eq) cs cs :=
    fun cs => List.forall₂_same.2 fun c _ => Constraint.compare_eq_iff.2 (.inl rfl)
  unfold toList
  rw [ha, hc]
  refine (List.rel_append (List.rel_append ?_ (hrefl _)) (hrefl _))
  exact List.forall₂_map_left_iff.2 (List.forall₂_map_right_iff.2 hr)

theorem slots_of_compare_eq (h : compare cs ds = .eq) (s : SlotIndex) :
    s ∈ ds.slots ↔ s ∈ cs.slots := by
  rw [mem_slots_iff, mem_slots_iff]
  have hall := toList_of_compare_eq h
  generalize cs.toList = as at *
  generalize ds.toList = bs at *
  induction hall with
  | nil => rfl
  | cons hcd _ ih =>
    simp only [List.exists_mem_cons_iff, ih, Constraint.mentions_congr hcd]

/-- Either set asks for the same sharing. -/
theorem closure_sharing_congr (h : compare cs ds = .eq) (F : Facts) :
    (F ⊔ ds.sharing assigned).closure = (F ⊔ cs.sharing assigned).closure := by
  refine Facts.closure_sup_congr fun {G} hG => ?_
  obtain ⟨-, hr, -⟩ := of_compare_eq h
  unfold sharing
  generalize cs.relatives.toList = as at *
  generalize ds.relatives.toList = bs at *
  induction hr with
  | nil => rfl
  | cons hcd _ ih =>
    simp only [List.map_cons, Facts.all_cons, sup_le_iff, ih, Relative.factsOn_le_congr hG hcd]

end ConstraintSet

end FeatureLogic
