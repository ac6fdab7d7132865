import FeatureLogic.Options
import FeatureLogic.Proofs.SortedSet
/-!
What is in a set of constraints, and which slots it speaks of.
-/
set_option autoImplicit false

namespace FeatureLogic

variable {W : Type} {s : SlotIndex} {t : OptionTable}

namespace Constraint
variable {c : Constraint W}

theorem mem_slots : s ∈ c.slots ↔ c.mentions s = true := by
  cases c with
  | absolute c => simp [slots, mentions, eq_comm]
  | choice c => simp [slots, mentions, eq_comm]
  | relative c =>
    have hterms : s ∈ (relative c : Constraint W).slots ↔
        s = c.first.slot ∨ s = c.second.slot := by
      rw [slots]
      split
      · rename_i he
        simp [he]
      · simp
    have hpair : (s = c.first.slot ∨ s = c.second.slot) ↔ (c.lhs.slot = s ∨ c.rhs.slot = s) := by
      unfold Relative.first Relative.second
      split
      · simp only [eq_comm]
      · rw [or_comm]
        simp only [eq_comm]
    rw [hterms, hpair]
    simp [mentions]

/-- Each slot that the constraint speaks of has a column. -/
def coveredBy (t : OptionTable) (c : Constraint W) : Bool := c.slots.all t.contains

theorem coveredBy_iff : c.coveredBy t = true ↔ ∀ s, c.mentions s = true → t.contains s = true := by
  simp only [coveredBy, List.all_eq_true, mem_slots]

theorem exists_of_not_coveredBy (h : c.coveredBy t = false) :
    ∃ s, c.mentions s = true ∧ t.contains s = false := by
  simpa [coveredBy, mem_slots] using h

end Constraint

namespace ConstraintSet
variable [Weight W] {cs : ConstraintSet W}

theorem mem_slots {c : Constraint W} (hc : c ∈ cs.toList) (hs : c.mentions s = true) :
    s ∈ cs.slots :=
  SortedSet.mem_ofList.2 (List.mem_flatMap.2 ⟨c, hc, Constraint.mem_slots.2 hs⟩)

theorem exists_of_mem_slots (hs : s ∈ cs.slots) : ∃ c ∈ cs.toList, c.mentions s = true := by
  obtain ⟨c, hc, hs⟩ := List.mem_flatMap.1 (SortedSet.mem_ofList.1 hs)
  exact ⟨c, hc, Constraint.mem_slots.1 hs⟩

theorem mem_slots_iff : s ∈ cs.slots ↔ ∃ c ∈ cs.toList, c.mentions s = true := by
  refine ⟨exists_of_mem_slots, ?_⟩
  rintro ⟨c, hc, hs⟩
  exact mem_slots hc hs

theorem absolute_mem {a : Absolute} (ha : a ∈ cs.absolutes.toList) :
    .absolute a ∈ cs.toList := by
  simp [toList, ha]

theorem relative_mem {c : Relative} (hc : c ∈ cs.relatives.toList) : .relative c ∈ cs.toList := by
  simp [toList, hc]

theorem choice_mem {c : Choice W} (hc : c ∈ cs.choices.toList) : .choice c ∈ cs.toList := by
  simp [toList, hc]

/-- The constraints all of whose slots have a column. -/
def within (cs : ConstraintSet W) (t : OptionTable) : ConstraintSet W where
  absolutes := cs.absolutes.filter fun c => (Constraint.absolute c : Constraint W).coveredBy t
  relatives := cs.relatives.filter fun c => (Constraint.relative c : Constraint W).coveredBy t
  choices := cs.choices.filter fun c => (Constraint.choice c).coveredBy t

theorem toList_within (cs : ConstraintSet W) (t : OptionTable) :
    (cs.within t).toList = cs.toList.filter (·.coveredBy t) := by
  simp only [toList, within, SortedSet.filter, List.filter_append, List.filter_map]
  rfl

theorem slots_within {s : SlotIndex} (hs : s ∈ (cs.within t).slots) : t.contains s = true := by
  obtain ⟨c, hc, hs⟩ := exists_of_mem_slots hs
  rw [toList_within, List.mem_filter] at hc
  exact Constraint.coveredBy_iff.1 hc.2 s hs

theorem mem_insert {c k : Constraint W} (hc : c ∈ (cs.insert k).toList) :
    c = k ∨ c ∈ cs.toList := by
  have hmem : ∀ {α : Type} [Ord α] [Std.TransOrd α] {s : SortedSet α} {a : α}
      {f : α → Constraint W}, (∃ b ∈ (s.insert a).toList, f b = c) →
      c = f a ∨ ∃ b ∈ s.toList, f b = c := by
    rintro α _ _ s a f ⟨b, hb, rfl⟩
    exact (mem_insertElement hb).imp (congrArg f) fun h => ⟨b, h, rfl⟩
  cases k with
  | absolute k =>
    simp only [insert, toList, List.mem_append, List.mem_map] at hc ⊢
    rcases hc with (hc | hc) | hc
    · exact .inr (.inl (.inl hc))
    · exact (hmem hc).imp id fun h => .inl (.inr h)
    · exact .inr (.inr hc)
  | relative k =>
    simp only [insert, toList, List.mem_append, List.mem_map] at hc ⊢
    rcases hc with (hc | hc) | hc
    · exact (hmem hc).imp id fun h => .inl (.inl h)
    · exact .inr (.inl (.inr hc))
    · exact .inr (.inr hc)
  | choice k =>
    simp only [insert, toList, List.mem_append, List.mem_map] at hc ⊢
    rcases hc with (hc | hc) | hc
    · exact .inr (.inl (.inl hc))
    · exact .inr (.inl (.inr hc))
    · exact (hmem hc).imp id .inr

theorem mem_of_mem_ofList {ks : List (Constraint W)} {c : Constraint W}
    (hc : c ∈ (ofList ks).toList) : c ∈ ks := by
  have hall : ∀ (ks : List (Constraint W)) (s : ConstraintSet W),
      c ∈ (s.insertAll ks).toList → c ∈ ks ∨ c ∈ s.toList := by
    intro ks
    induction ks with
    | nil => exact fun s h => .inr h
    | cons k ks ih =>
      intro s h
      rcases ih (s.insert k) h with h | h
      · exact .inl (List.mem_cons_of_mem k h)
      · rcases mem_insert h with rfl | h
        · exact .inl List.mem_cons_self
        · exact .inr h
  exact (hall ks empty hc).resolve_right List.not_mem_nil

theorem within_eq_self (h : ∀ s ∈ cs.slots, t.contains s = true) : cs.within t = cs := by
  have hcovered : ∀ c ∈ cs.toList, c.coveredBy t = true :=
    fun c hc => Constraint.coveredBy_iff.2 fun s hs => h s (mem_slots hc hs)
  have hfilter : ∀ {α : Type} [Ord α] {s : SortedSet α} {f : α → Constraint W},
      (∀ a ∈ s.toList, f a ∈ cs.toList) → s.filter (fun a => (f a).coveredBy t) = s :=
    fun hs => SortedSet.filter_eq_self fun a ha => hcovered _ (hs a ha)
  rw [within, hfilter fun _ => absolute_mem, hfilter fun _ => relative_mem,
    hfilter fun _ => choice_mem]

/-- A constraint that speaks of a slot without a column is left out. -/
theorem within_insert {k : Constraint W} (h : k.coveredBy t = false) :
    (cs.insert k).within t = cs.within t := by
  cases k with
  | absolute k =>
    exact congrArg (fun s => { cs.within t with absolutes := s })
      (SortedSet.filter_insert (p := fun c => (Constraint.absolute c).coveredBy t) h _)
  | relative k =>
    exact congrArg (fun s => { cs.within t with relatives := s })
      (SortedSet.filter_insert (p := fun c => (Constraint.relative c).coveredBy t) h _)
  | choice k =>
    exact congrArg (fun s => { cs.within t with choices := s })
      (SortedSet.filter_insert (p := fun c => (Constraint.choice c).coveredBy t) h _)

end ConstraintSet

end FeatureLogic
