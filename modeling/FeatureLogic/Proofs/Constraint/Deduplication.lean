import FeatureLogic.Proofs.Bits
import FeatureLogic.Proofs.Constraint.Orientation
/-!
The order of constraints is total, and two of them are equal in it only if they say the same. So a
set keeps one of each class, the first that came in.
-/
set_option autoImplicit false

namespace FeatureLogic

variable {W : Type} [Weight W]

/-- The atoms and weights side by side, then the lengths. -/
theorem Distribution.compareEntries_eq_zip (es fs : List (Atom × W)) :
    compareEntries es fs = ((es.zip fs).foldr (fun p o =>
      ((compare p.1.1 p.2.1).then (compare p.1.2 p.2.2)).then o) .eq).then
        (compare es.length fs.length) := by
  change List.compareLex _ es fs = _
  induction es generalizing fs with
  | nil =>
    cases fs with
    | nil => rfl
    | cons f fs => exact (Nat.compare_eq_lt.2 fs.length.succ_pos).symm
  | cons e es ih =>
    cases fs with
    | nil => exact (Nat.compare_eq_gt.2 es.length.succ_pos).symm
    | cons f fs =>
      have hlength : compare (es.length + 1) (fs.length + 1) = compare es.length fs.length := by
        simp [Nat.compare_eq_ite_lt]
      rw [List.compareLex_cons_cons, ih, List.zip_cons_cons, List.foldr_cons, List.length_cons,
        List.length_cons, hlength, Ordering.then_assoc]
      rfl

namespace Relative

theorem first_isLE_second (c : Relative) : (compare c.first c.second).isLE := by
  unfold first second
  split
  · assumption
  · rename_i h
    have hlt : compare c.rhs c.lhs = .lt := Std.OrientedCmp.lt_of_not_isLE h
    simp [hlt]

theorem slot_lt_slot {c : Relative} (h : c.first.slot ≠ c.second.slot) :
    compare c.first.slot c.second.slot = .lt := by
  have hle : ((compare c.first.slot c.second.slot).then
    (compare c.first.path c.second.path)).isLE := c.first_isLE_second
  cases hslot : compare c.first.slot c.second.slot with
  | lt => rfl
  | eq => exact absurd (Std.LawfulEqOrd.eq_of_compare hslot) h
  | gt => simp [hslot] at hle

end Relative

namespace Constraint
variable {c d e : Constraint W}

theorem compare_swap (c d : Constraint W) : compare c d = (compare d c).swap := by
  cases c <;> cases d <;> try rfl
  · rw [compare_absolute, compare_absolute]
    exact Std.OrientedCmp.eq_swap
  · rw [compare_relative, compare_relative]
    exact Std.OrientedCmp.eq_swap
  · rw [compare_choice, compare_choice]
    exact Std.OrientedCmp.eq_swap

/-- Only constraints of one shape leave something to show: the others are in the order of the
shapes. -/
theorem compare_trans (h : (compare c d).isLE) (h' : (compare d e).isLE) : (compare c e).isLE := by
  cases c <;> cases d <;> cases e <;> try first | rfl | contradiction
  · rw [compare_absolute] at *
    exact Std.TransCmp.isLE_trans h h'
  · rw [compare_relative] at *
    exact Std.TransCmp.isLE_trans h h'
  · rw [compare_choice] at *
    exact Std.TransCmp.isLE_trans h h'

instance : Std.TransOrd (Constraint W) where
  eq_swap := compare_swap _ _
  isLE_trans := compare_trans

/-- The same shape and the same content. The terms of a pair may be exchanged. -/
def Same : Constraint W → Constraint W → Prop
  | absolute c, absolute d => c.term = d.term ∧ c.value = d.value
  | relative c, relative d => c.lhs = d.lhs ∧ c.rhs = d.rhs ∨ c.lhs = d.rhs ∧ c.rhs = d.lhs
  | choice c, choice d => c.term = d.term ∧ c.distribution.entries = d.distribution.entries
  | _, _ => False

theorem compare_eq_iff_same : compare c d = .eq ↔ c.Same d := by
  rw [compare_eq_iff]
  cases c with
  | absolute c =>
    obtain ⟨t, a⟩ := c
    obtain ⟨u, b⟩ | d | d := d <;> simp [flip, Same, eq_comm]
  | relative c =>
    obtain ⟨t, u⟩ := c
    obtain d | ⟨t', u'⟩ | d := d <;> simp [flip, Relative.flip, Same, eq_comm, and_comm]
  | choice c =>
    obtain ⟨t, p⟩ := c
    obtain d | d | ⟨u, q⟩ := d <;> simp [flip, Same, eq_comm]
    exact fun _ => ⟨congrArg _, SortedMap.ext⟩

omit [Weight W] in
/-- The slots of a constraint come in ascending order. -/
theorem slots_ascending (c : Constraint W) : c.slots.Pairwise fun i j => compare i j = .lt := by
  cases c with
  | absolute c => exact List.pairwise_singleton _ _
  | choice c => exact List.pairwise_singleton _ _
  | relative c =>
    rw [slots]
    split
    · exact List.pairwise_singleton _ _
    · rename_i hne
      exact List.pairwise_pair.2 (Relative.slot_lt_slot hne)

end Constraint

namespace ConstraintSet
variable {s t : ConstraintSet W} {c d : Constraint W} {ks : List (Constraint W)}

theorem contains_eq_any (s : ConstraintSet W) (c : Constraint W) :
    s.contains c = s.toList.any fun d => compare c d == .eq := by
  have hnone : ∀ {α : Type} (as : List α), as.any (fun _ => false) = false := by simp
  rw [toList, List.any_append, List.any_append, List.any_map, List.any_map, List.any_map]
  cases c with
  | absolute c =>
    change s.absolutes.contains c = (s.relatives.toList.any (fun _ => false) ||
      s.absolutes.contains c || s.choices.toList.any fun _ => false)
    rw [hnone, hnone, Bool.false_or, Bool.or_false]
  | relative c =>
    change s.relatives.contains c = (s.relatives.contains c ||
      s.absolutes.toList.any (fun _ => false) || s.choices.toList.any fun _ => false)
    rw [hnone, hnone, Bool.or_false, Bool.or_false]
  | choice c =>
    change s.choices.contains c = (s.relatives.toList.any (fun _ => false) ||
      s.absolutes.toList.any (fun _ => false) || s.choices.contains c)
    rw [hnone, hnone, Bool.or_false, Bool.false_or]

theorem contains_eq_true : s.contains c = true ↔ ∃ d ∈ s.toList, c.Same d := by
  simp [contains_eq_any, Constraint.compare_eq_iff_same]

theorem contains_congr (h : compare c d = .eq) : s.contains c = s.contains d := by
  have hcongr : ∀ e, compare c e = compare d e := fun _ => Std.TransCmp.congr_left h
  simp only [contains_eq_any, hcongr]

theorem insert_of_contains (h : s.contains c = true) : s.insert c = s := by
  cases c with
  | absolute c =>
    exact congrArg (fun a => { s with absolutes := a }) (SortedSet.insert_of_contains h)
  | relative c =>
    exact congrArg (fun a => { s with relatives := a }) (SortedSet.insert_of_contains h)
  | choice c => exact congrArg (fun a => { s with choices := a }) (SortedSet.insert_of_contains h)

theorem insert_perm (h : s.contains c = false) : (s.insert c).toList.Perm (c :: s.toList) := by
  cases c with
  | absolute c =>
    have hperm := (SortedSet.insert_perm h).map (Constraint.absolute (W := W))
    exact ((hperm.append_left _).trans List.perm_middle).append_right _
  | relative c =>
    have hperm := (SortedSet.insert_perm h).map (Constraint.relative (W := W))
    exact (hperm.append_right _).append_right _
  | choice c =>
    have hperm := (SortedSet.insert_perm h).map Constraint.choice
    exact (hperm.append_left _).trans List.perm_middle

/-- What a list adds to a set: the first of each class that the set has not. -/
theorem mem_insertAll : c ∈ (s.insertAll ks).toList ↔ c ∈ s.toList ∨
    s.contains c = false ∧ ks.find? (fun d => compare c d == .eq) = some c := by
  induction ks generalizing s with
  | nil => simp [insertAll]
  | cons k ks ih =>
    change c ∈ ((s.insert k).insertAll ks).toList ↔ _
    rw [ih, contains_insert, List.find?_cons]
    cases hk : s.contains k with
    | true =>
      rw [insert_of_contains hk]
      cases hck : compare c k == .eq with
      | true =>
        rw [contains_congr (beq_iff_eq.1 hck), hk]
        simp
      | false => simp
    | false =>
      rw [(insert_perm hk).mem_iff, List.mem_cons]
      cases hck : compare c k == .eq with
      | true =>
        rw [contains_congr (beq_iff_eq.1 hck), hk]
        simp [or_comm, eq_comm]
      | false =>
        have hne : c ≠ k := by
          rintro rfl
          simp [Std.ReflCmp.compare_self] at hck
        simp [hne]

/-- A set has the first constraint of each class in the list. -/
theorem mem_ofList : c ∈ (ofList ks).toList ↔
    ∃ before after, ks = before ++ c :: after ∧ ∀ d ∈ before, ¬ c.Same d := by
  have hempty : (empty : ConstraintSet W).contains c = false := by cases c <;> rfl
  have hnil : (empty : ConstraintSet W).toList = [] := rfl
  rw [ofList, mem_insertAll, List.find?_eq_some_iff_append, hempty, hnil]
  simp [← Constraint.compare_eq_iff_same, Std.ReflCmp.compare_self]

theorem exists_mem_ofList_iff : (∃ d ∈ (ofList ks).toList, c.Same d) ↔ ∃ d ∈ ks, c.Same d := by
  rw [← contains_eq_true, contains_ofList]
  simp only [← Constraint.compare_eq_iff_same, Constraint.compare_eq_iff]
  simp [and_or_left, exists_or]

/-- No two constraints of a set are in one class. -/
theorem pairwise_not_same (s : ConstraintSet W) : s.toList.Pairwise fun c d => ¬ c.Same d := by
  have hkind : ∀ {α : Type} [Ord α] (as : SortedSet α) (f : α → Constraint W),
      (∀ a b, compare (f a) (f b) = compare a b) →
      (as.toList.map f).Pairwise fun c d => ¬ c.Same d := by
    intro α _ as f hf
    refine List.pairwise_map.2 (as.ascending.imp fun hab => ?_)
    rw [← Constraint.compare_eq_iff_same, hf, hab]
    simp
  refine List.pairwise_append.2 ⟨List.pairwise_append.2 ⟨?_, ?_, ?_⟩, ?_, ?_⟩
  · exact hkind s.relatives .relative Constraint.compare_relative
  · exact hkind s.absolutes .absolute Constraint.compare_absolute
  · simp [Constraint.Same]
  · exact hkind s.choices .choice Constraint.compare_choice
  · simp [Constraint.Same, or_imp, forall_and]

theorem contains_eq_of_compare (h : compare s t = .eq) (c : Constraint W) :
    s.contains c = t.contains c := by
  have hall := toList_of_compare_eq h
  rw [contains_eq_any, contains_eq_any]
  generalize s.toList = as at *
  generalize t.toList = bs at *
  induction hall with
  | nil => rfl
  | cons hde _ ih =>
    have hcde : compare c _ = compare c _ := Std.TransCmp.congr_right hde
    rw [List.any_cons, List.any_cons, ih, hcde]

theorem compare_eq_iff : compare s t = .eq ↔
    ∀ c : Constraint W, (∃ d ∈ s.toList, c.Same d) ↔ ∃ d ∈ t.toList, c.Same d := by
  simp only [← contains_eq_true, ← Bool.eq_iff_iff]
  exact ⟨contains_eq_of_compare, compare_eq_of_contains⟩

theorem mem_slots_iff_mentions {i : SlotIndex} : i ∈ s.slots ↔ s.mentions i = true := by
  rw [mem_slots_iff]
  simp [mentions]

theorem insertNew_eq_false : (s.insertNew c).1 = false ↔ ∃ d ∈ s.toList, c.Same d := by
  rw [← contains_eq_true]
  simp [insertNew]

theorem insertNew_of_new (h : (s.insertNew c).1 = true) :
    (s.insertNew c).2.toList.Perm (c :: s.toList) :=
  insert_perm (by simpa [insertNew] using h)

theorem insertNew_of_repeated (h : (s.insertNew c).1 = false) : (s.insertNew c).2 = s :=
  insert_of_contains (by simpa [insertNew] using h)

end ConstraintSet

/-- A total order, in which the constraints that say the same are equal. -/
structure Constraint.TotallyOrdered (W : Type) [Weight W] : Prop where
  swap (c d : Constraint W) : compare c d = (compare d c).swap
  total (c d : Constraint W) : (compare c d).isLE ∨ (compare d c).isLE
  trans (c d e : Constraint W) : (compare c d).isLE → (compare d e).isLE → (compare c e).isLE
  antisymm (c d : Constraint W) : (compare c d).isLE → (compare d c).isLE → c.Same d
  equal (c d : Constraint W) : compare c d = .eq ↔ c.Same d

theorem Constraint.totallyOrdered (W : Type) [Weight W] : Constraint.TotallyOrdered W where
  swap := compare_swap
  total c d := by
    rw [compare_swap c d]
    cases compare d c <;> simp
  trans _ _ _ := compare_trans
  antisymm _ _ h h' := compare_eq_iff_same.1 (Std.OrientedCmp.isLE_antisymm h h')
  equal _ _ := compare_eq_iff_same

/-- Sets with one constraint of each class, which they list in order. -/
structure ConstraintSet.OneOfEach (W : Type) [Weight W] : Prop where
  /-- A class is represented by the first of the list. -/
  first (ks : List (Constraint W)) (c : Constraint W) : c ∈ (ofList ks).toList ↔
    ∃ before after, ks = before ++ c :: after ∧ ∀ d ∈ before, ¬ c.Same d
  /-- The classes are those of the list. -/
  classes (ks : List (Constraint W)) (c : Constraint W) :
    (∃ d ∈ (ofList ks).toList, c.Same d) ↔ ∃ d ∈ ks, c.Same d
  once (s : ConstraintSet W) : s.toList.Pairwise fun c d => ¬ c.Same d
  repeated (s : ConstraintSet W) (c : Constraint W) :
    (s.insertNew c).1 = false ↔ ∃ d ∈ s.toList, c.Same d
  unchanged (s : ConstraintSet W) (c : Constraint W) :
    (s.insertNew c).1 = false → (s.insertNew c).2 = s
  added (s : ConstraintSet W) (c : Constraint W) :
    (s.insertNew c).1 = true → (s.insertNew c).2.toList.Perm (c :: s.toList)
  /-- Relative constraints come first, choices last, and those of one kind in ascending order. -/
  ascending (s : ConstraintSet W) : ∃ (relatives : List Relative) (absolutes : List Absolute)
    (choices : List (Choice W)), s.toList =
      relatives.map .relative ++ absolutes.map .absolute ++ choices.map .choice ∧
    (relatives.Pairwise fun c d => compare c d = .lt) ∧
    (absolutes.Pairwise fun c d => compare c d = .lt) ∧
    choices.Pairwise fun c d => compare c d = .lt
  slots_of (c : Constraint W) : (∀ i, i ∈ c.slots ↔ c.mentions i = true) ∧
    c.slots.Pairwise fun i j => compare i j = .lt
  slots (s : ConstraintSet W) : (∀ i, i ∈ s.slots ↔ s.mentions i = true) ∧
    s.slots.Pairwise fun i j => compare i j = .lt
  equal (s t : ConstraintSet W) : compare s t = .eq ↔
    ∀ c : Constraint W, (∃ d ∈ s.toList, c.Same d) ↔ ∃ d ∈ t.toList, c.Same d

theorem ConstraintSet.oneOfEach (W : Type) [Weight W] : ConstraintSet.OneOfEach W where
  first _ _ := mem_ofList
  classes _ _ := exists_mem_ofList_iff
  once := pairwise_not_same
  repeated _ _ := insertNew_eq_false
  unchanged _ _ := insertNew_of_repeated
  added _ _ := insertNew_of_new
  ascending s := ⟨_, _, _, rfl, s.relatives.ascending, s.absolutes.ascending, s.choices.ascending⟩
  slots_of c := ⟨fun _ => Constraint.mem_slots, c.slots_ascending⟩
  slots _ := ⟨fun _ => mem_slots_iff_mentions, (SortedSet.ofList _).ascending⟩
  equal _ _ := compare_eq_iff

/-- Constraints are totally ordered and sets hold one of each class, whatever the weights are. These
may be all patterns of 64 bits under the order of integers, which is also the order of the weights
of the engine. -/
theorem constraints_deduplicate :
    (∀ (W : Type) [Weight W], Constraint.TotallyOrdered W ∧ ConstraintSet.OneOfEach W) ∧
    (∀ x y : Bits, compare x y = compare x.key.toInt y.key.toInt) ∧
    ∀ x y : Float, compare x y = compare (⟨x.toBits⟩ : Bits) ⟨y.toBits⟩ :=
  ⟨fun W _ => ⟨Constraint.totallyOrdered W, ConstraintSet.oneOfEach W⟩, Bits.compare_eq,
    Bits.compare_float⟩

/-- A pair of terms either way round, and two zeros. -/
example : (ConstraintSet.ofList
    [.relative ⟨⟨1, []⟩, ⟨2, []⟩⟩, .relative ⟨⟨2, []⟩, ⟨1, []⟩⟩,
      .choice ⟨⟨1, []⟩, .singleton ⟨1⟩ ⟨0⟩⟩,
      .choice ⟨⟨1, []⟩, .singleton ⟨1⟩ ⟨0x8000000000000000⟩⟩] : ConstraintSet Bits).size = 3 := by
  decide

end FeatureLogic
