import FeatureLogic.Proofs.Constraint.Set
import FeatureLogic.Proofs.Interpretation.Checking
import FeatureLogic.Proofs.Renaming.Facts
import FeatureLogic.Proofs.Weight
/-!
Constraints under new names. A renaming may turn sets of constraints into another order, but it
makes no two constraints one and takes none apart, so a renamed set asks for the same under new
names.
-/
set_option autoImplicit false

namespace FeatureLogic

variable {ρ : Renaming} {assigned : SlotIndex → Prop}

namespace Absolute

instance : Std.LawfulEqOrd Absolute where
  eq_of_compare {c d} h := by
    obtain ⟨hterm, hvalue⟩ := Ordering.then_eq_eq.1 h
    exact congr (congrArg mk (Std.LawfulEqOrd.eq_of_compare hterm))
      (Std.LawfulEqOrd.eq_of_compare hvalue)

def rename (c : Absolute) (ρ : Renaming) : Absolute := ⟨ρ.term c.term, ρ.atom c.value⟩

theorem compare_rename {c d : Absolute} (h : compare (c.rename ρ) (d.rename ρ) = .eq) :
    compare c d = .eq := by
  obtain ⟨hterm, hvalue⟩ := Absolute.mk.inj (Std.LawfulEqOrd.eq_of_compare h)
  obtain rfl : c = d := congr (congrArg mk (Renaming.term_injective hterm))
    (ρ.atom_injective hvalue)
  exact Std.ReflCmp.compare_self

theorem factsOn_rename (c : Absolute) :
    (c.rename ρ).factsOn assigned = (c.factsOn assigned).rename ρ := by
  have hself := Absolute.factsOn_le.1 (le_refl (c.factsOn assigned))
  have hself' := Absolute.factsOn_le.1 (le_refl ((c.rename ρ).factsOn assigned))
  apply le_antisymm
  · refine Absolute.factsOn_le.2 fun hs => ⟨Facts.rename_has.2 (hself hs).1, fun hne => ?_⟩
    exact Facts.rename_value.2 ((hself hs).2 (mt Renaming.atom_eq_null.2 hne))
  · refine Facts.rename_le.2 (Absolute.factsOn_le.2 fun hs => ⟨(hself' hs).1, fun hne => ?_⟩)
    exact (hself' hs).2 (mt Renaming.atom_eq_null.1 hne)

end Absolute

namespace Relative
variable {c d : Relative}

theorem compare_eq_iff : compare c d = .eq ↔
    c.lhs = d.lhs ∧ c.rhs = d.rhs ∨ c.lhs = d.rhs ∧ c.rhs = d.lhs := by
  have hcompare : compare c d = .eq ↔ c.first = d.first ∧ c.second = d.second := by
    refine Ordering.then_eq_eq.trans (and_congr ?_ ?_)
    · exact Std.compare_eq_iff_eq (a := c.first)
    · exact Std.compare_eq_iff_eq (a := c.second)
  have hswap : ∀ t u : PathTerm, first ⟨t, u⟩ = first ⟨u, t⟩ ∧ second ⟨t, u⟩ = second ⟨u, t⟩ := by
    intro t u
    have horder : compare u t = (compare t u).swap := Std.OrientedCmp.eq_swap
    unfold first second
    cases htu : compare t u with
    | lt => simp [horder, htu]
    | gt => simp [horder, htu]
    | eq =>
      obtain rfl := Std.LawfulEqOrd.eq_of_compare htu
      simp
  rw [hcompare]
  constructor
  · rintro ⟨hfirst, hsecond⟩
    unfold first at hfirst
    unfold second at hsecond
    split at hfirst <;> split at hfirst <;> simp_all
  · obtain ⟨l, r⟩ := c
    obtain ⟨l', r'⟩ := d
    rintro (⟨rfl, rfl⟩ | ⟨rfl, rfl⟩)
    · exact ⟨rfl, rfl⟩
    · exact hswap _ _

def rename (c : Relative) (ρ : Renaming) : Relative := ⟨ρ.term c.lhs, ρ.term c.rhs⟩

theorem compare_rename (h : compare (c.rename ρ) (d.rename ρ) = .eq) : compare c d = .eq := by
  simpa only [compare_eq_iff, rename, Renaming.term_injective.eq_iff] using h

theorem factsOn_rename (c : Relative) :
    (c.rename ρ).factsOn assigned = (c.factsOn assigned).rename ρ := by
  apply le_antisymm
  · exact Relative.factsOn_le.2 fun hl hr =>
      Facts.rename_same.2 (Relative.factsOn_le.1 le_rfl hl hr)
  · have hself := Relative.factsOn_le.1 (le_refl ((c.rename ρ).factsOn assigned))
    exact Facts.rename_le.2 (Relative.factsOn_le.2 fun hl hr => hself hl hr)

end Relative

namespace Distribution
variable {W : Type} [Weight W]

instance : Std.LawfulEqCmp (compareLex (compareOn (Prod.fst : Atom × W → Atom))
    (compareOn Prod.snd)) where
  eq_of_compare h := by
    obtain ⟨hatom, hweight⟩ := Ordering.then_eq_eq.1 h
    exact Prod.ext (Std.LawfulEqOrd.eq_of_compare hatom) (Std.LawfulEqOrd.eq_of_compare hweight)

instance : Std.LawfulEqCmp (compareEntries (W := W)) :=
  inferInstanceAs (Std.LawfulEqCmp (List.compareLex _))

instance : Std.LawfulEqOrd (Distribution W) where
  eq_of_compare {d e} h := by
    have hentries : compareEntries d.entries e.entries = .eq := h
    exact SortedMap.ext (Std.LawfulEqCmp.eq_of_compare hentries)

end Distribution

namespace Choice
variable {W : Type} [Weight W] {c d : Choice W}

instance : Std.LawfulEqOrd (Choice W) where
  eq_of_compare h := by
    obtain ⟨hterm, hdistribution⟩ := Ordering.then_eq_eq.1 h
    exact congr (congrArg mk (Std.LawfulEqOrd.eq_of_compare hterm))
      (Std.LawfulEqOrd.eq_of_compare hdistribution)

def rename (c : Choice W) (ρ : Renaming) : Choice W :=
  ⟨ρ.term c.term, c.distribution.mapKeys ρ.atom⟩

theorem compare_rename (h : compare (c.rename ρ) (d.rename ρ) = .eq) : compare c d = .eq := by
  obtain ⟨hterm, hdistribution⟩ := Choice.mk.inj (Std.LawfulEqOrd.eq_of_compare h)
  obtain rfl : c = d := congr (congrArg mk (Renaming.term_injective hterm))
    (SortedMap.mapKeys_injective ρ.atom_injective hdistribution)
  exact Std.ReflCmp.compare_self

omit [Weight W] in
theorem probability?_rename (c : Choice W) (a : Atom) :
    (c.rename ρ).probability? (ρ.atom a) = c.probability? a :=
  SortedMap.get?_mapKeys ρ.atom_injective a

theorem maxProbability_rename (hW : Weight.Exact W) (c : Choice W) :
    (c.rename ρ).maxProbability = c.maxProbability := by
  have hcomm : RightCommutative (Weight.larger : W → W → W) := ⟨hW.larger_right_comm⟩
  exact (SortedMap.values_mapKeys_perm ρ.atom_injective).foldl_eq _

end Choice

def Constraint.rename {W : Type} [Weight W] (c : Constraint W) (ρ : Renaming) : Constraint W :=
  match c with
  | absolute c => absolute (c.rename ρ)
  | relative c => relative (c.rename ρ)
  | choice c => choice (c.rename ρ)

theorem Constraint.mentions_rename {W : Type} [Weight W] (c : Constraint W) (s : SlotIndex) :
    (c.rename ρ).mentions s = c.mentions s := by
  cases c <;> rfl

namespace ConstraintSet
variable {W : Type} [Weight W] {cs : ConstraintSet W}

def rename (cs : ConstraintSet W) (ρ : Renaming) : ConstraintSet W where
  absolutes := cs.absolutes.map (·.rename ρ)
  relatives := cs.relatives.map (·.rename ρ)
  choices := cs.choices.map (·.rename ρ)

theorem absolutes_rename_perm (cs : ConstraintSet W) (ρ : Renaming) :
    (cs.rename ρ).absolutes.toList.Perm (cs.absolutes.toList.map (·.rename ρ)) :=
  SortedSet.toList_map_perm fun _ _ => Absolute.compare_rename

theorem relatives_rename_perm (cs : ConstraintSet W) (ρ : Renaming) :
    (cs.rename ρ).relatives.toList.Perm (cs.relatives.toList.map (·.rename ρ)) :=
  SortedSet.toList_map_perm fun _ _ => Relative.compare_rename

theorem choices_rename_perm (cs : ConstraintSet W) (ρ : Renaming) :
    (cs.rename ρ).choices.toList.Perm (cs.choices.toList.map (·.rename ρ)) :=
  SortedSet.toList_map_perm fun _ _ => Choice.compare_rename

theorem mem_absolutes_rename {c : Absolute} : c ∈ (cs.rename ρ).absolutes.toList ↔
    ∃ d ∈ cs.absolutes.toList, d.rename ρ = c :=
  (cs.absolutes_rename_perm ρ).mem_iff.trans List.mem_map

theorem mem_choices_rename {c : Choice W} : c ∈ (cs.rename ρ).choices.toList ↔
    ∃ d ∈ cs.choices.toList, d.rename ρ = c :=
  (cs.choices_rename_perm ρ).mem_iff.trans List.mem_map

theorem sharing_rename (cs : ConstraintSet W) :
    (cs.rename ρ).sharing assigned = (cs.sharing assigned).rename ρ := by
  rw [sharing, Facts.all_perm ((cs.relatives_rename_perm ρ).map _), sharing, Facts.rename_all,
    List.map_map, List.map_map]
  exact congrArg Facts.all (List.map_congr_left fun c _ => c.factsOn_rename)

theorem placing_rename (cs : ConstraintSet W) :
    (cs.rename ρ).placing assigned = (cs.placing assigned).rename ρ := by
  rw [placing, Facts.all_perm ((cs.absolutes_rename_perm ρ).map _), placing, Facts.rename_all,
    List.map_map, List.map_map]
  exact congrArg Facts.all (List.map_congr_left fun c _ => c.factsOn_rename)

theorem facts_rename (cs : ConstraintSet W) :
    (cs.rename ρ).facts assigned = (cs.facts assigned).rename ρ := by
  rw [facts, sharing_rename, placing_rename, ← Facts.rename_sup, facts]

theorem toList_rename_perm (cs : ConstraintSet W) (ρ : Renaming) :
    (cs.rename ρ).toList.Perm (cs.toList.map (·.rename ρ)) := by
  have hkinds : cs.toList.map (·.rename ρ) =
      (cs.relatives.toList.map (·.rename ρ)).map .relative ++
        (cs.absolutes.toList.map (·.rename ρ)).map .absolute ++
        (cs.choices.toList.map (·.rename ρ)).map .choice := by
    simp only [toList, List.map_append, List.map_map]
    rfl
  rw [hkinds]
  exact (((cs.relatives_rename_perm ρ).map _).append ((cs.absolutes_rename_perm ρ).map _)).append
    ((cs.choices_rename_perm ρ).map _)

theorem mem_slots_rename {s : SlotIndex} : s ∈ (cs.rename ρ).slots ↔ s ∈ cs.slots := by
  rw [mem_slots_iff, mem_slots_iff]
  simp only [(cs.toList_rename_perm ρ).mem_iff, List.mem_map, exists_exists_and_eq_and,
    Constraint.mentions_rename]

end ConstraintSet

end FeatureLogic
