import FeatureLogic.Interpretation.Basic
import FeatureLogic.Proofs.Arena.Constraining
import FeatureLogic.Proofs.Structure.Merging
/-!
The facts of interpretations and the facts that constraints ask for. A constraint speaks only of
slots that are assigned; what it asks of others is left open.
-/
set_option autoImplicit false

namespace FeatureLogic

variable {assigned assigned' : SlotIndex → Prop}

def Relative.factsOn (assigned : SlotIndex → Prop) (c : Relative) : Facts where
  same t u := (t = c.lhs ∧ u = c.rhs) ∧ assigned c.lhs.slot ∧ assigned c.rhs.slot
  value _ _ := False

/-- The null atom stands for no value, it only asks for the path. -/
def Absolute.factsOn (assigned : SlotIndex → Prop) (c : Absolute) : Facts where
  same t u := (t = c.term ∧ u = c.term) ∧ assigned c.term.slot
  value t a := (t = c.term ∧ a = c.value) ∧ a ≠ .null ∧ assigned c.term.slot

theorem Relative.factsOn_le {c : Relative} {F : Facts} : c.factsOn assigned ≤ F ↔
    (assigned c.lhs.slot → assigned c.rhs.slot → F.same c.lhs c.rhs) := by
  constructor
  · exact fun h hl hr => h.1 _ _ ⟨⟨rfl, rfl⟩, hl, hr⟩
  · intro h
    refine ⟨?_, fun _ _ => False.elim⟩
    rintro t u ⟨⟨rfl, rfl⟩, hl, hr⟩
    exact h hl hr

theorem Absolute.factsOn_le {c : Absolute} {F : Facts} : c.factsOn assigned ≤ F ↔
    (assigned c.term.slot → F.Has c.term ∧ (c.value ≠ .null → F.value c.term c.value)) := by
  constructor
  · exact fun h hs => ⟨h.1 _ _ ⟨⟨rfl, rfl⟩, hs⟩, fun hne => h.2 _ _ ⟨⟨rfl, rfl⟩, hne, hs⟩⟩
  · intro h
    refine ⟨?_, ?_⟩
    · rintro t u ⟨⟨rfl, rfl⟩, hs⟩
      exact (h hs).1
    · rintro t a ⟨⟨rfl, rfl⟩, hne, hs⟩
      exact (h hs).2 hne

theorem Relative.factsOn_mono (h : ∀ s, assigned s → assigned' s) (c : Relative) :
    c.factsOn assigned ≤ c.factsOn assigned' :=
  Relative.factsOn_le.2 fun hl hr => ⟨⟨rfl, rfl⟩, h _ hl, h _ hr⟩

theorem Absolute.factsOn_mono (h : ∀ s, assigned s → assigned' s) (c : Absolute) :
    c.factsOn assigned ≤ c.factsOn assigned' :=
  Absolute.factsOn_le.2 fun hs => ⟨⟨⟨rfl, rfl⟩, h _ hs⟩, fun hne => ⟨⟨rfl, rfl⟩, hne, h _ hs⟩⟩

theorem Facts.all_map_mono {α : Type} {f g : α → Facts} {as : List α} (h : ∀ a, f a ≤ g a) :
    Facts.all (as.map f) ≤ Facts.all (as.map g) := by
  induction as with
  | nil => exact le_rfl
  | cons a as ih =>
    simp only [List.map_cons, Facts.all_cons]
    exact sup_le_sup (h a) ih

namespace ConstraintSet
variable {W : Type} [Weight W] {cs : ConstraintSet W}

/-- The paths that relative constraints make one. -/
def sharing (cs : ConstraintSet W) (assigned : SlotIndex → Prop) : Facts :=
  .all (cs.relatives.toList.map (·.factsOn assigned))

/-- The values that absolute constraints put in place. -/
def placing (cs : ConstraintSet W) (assigned : SlotIndex → Prop) : Facts :=
  .all (cs.absolutes.toList.map (·.factsOn assigned))

def facts (cs : ConstraintSet W) (assigned : SlotIndex → Prop) : Facts :=
  cs.sharing assigned ⊔ cs.placing assigned

theorem sharing_mono (h : ∀ s, assigned s → assigned' s) :
    cs.sharing assigned ≤ cs.sharing assigned' :=
  Facts.all_map_mono (Relative.factsOn_mono h)

theorem placing_mono (h : ∀ s, assigned s → assigned' s) :
    cs.placing assigned ≤ cs.placing assigned' :=
  Facts.all_map_mono (Absolute.factsOn_mono h)

theorem facts_mono (h : ∀ s, assigned s → assigned' s) : cs.facts assigned ≤ cs.facts assigned' :=
  sup_le_sup (sharing_mono h) (placing_mono h)

end ConstraintSet

namespace Facts

variable {G V : Facts} {as : List Absolute}

theorem HangsOn.sup {V' : Facts} (h : V.HangsOn G) (h' : V'.HangsOn G) : (V ⊔ V').HangsOn G where
  eq_of_same hs := hs.elim h.eq_of_same h'.eq_of_same
  root hs := hs.elim h.root h'.root
  root_of_value ha := ha.elim h.root_of_value h'.root_of_value

theorem HangsOn.bot : (⊥ : Facts).HangsOn G :=
  ⟨False.elim, False.elim, False.elim⟩

theorem HangsOn.factsOn (h : ∀ s, assigned s → G.Has ⟨s, []⟩) (c : Absolute) :
    (c.factsOn assigned).HangsOn G where
  eq_of_same := by
    rintro t u ⟨⟨rfl, rfl⟩, -⟩
    rfl
  root := by
    rintro t ⟨⟨rfl, -⟩, hs⟩
    exact h _ hs
  root_of_value := by
    rintro t a ⟨⟨rfl, -⟩, -, hs⟩
    exact h _ hs

theorem HangsOn.all (h : ∀ s, assigned s → G.Has ⟨s, []⟩) (as : List Absolute) :
    (Facts.all (as.map (·.factsOn assigned))).HangsOn G := by
  induction as with
  | nil =>
    rw [List.map_nil, all_nil]
    exact .bot
  | cons c as ih =>
    rw [List.map_cons, all_cons]
    exact (HangsOn.factsOn h c).sup ih

end Facts

namespace Interpretation
variable {W : Type} {i j : Interpretation W} {s : SlotIndex} {t : PathTerm} {n : NodeId}

def Assigned (i : Interpretation W) (s : SlotIndex) : Prop := ∃ n, i.slots.get? s = some n

structure WellFormed (i : Interpretation W) : Prop where
  arena : i.arena.WellFormed
  root_lt (s : SlotIndex) (n : NodeId) : i.slots.get? s = some n → n < i.arena.size

def facts (i : Interpretation W) : Facts := i.arena.facts i.slots.get?

def Leads (i : Interpretation W) (t : PathTerm) (n : NodeId) : Prop :=
  i.arena.Leads i.slots.get? t n

theorem Assigned.has_root (h : i.Assigned s) : i.facts.Has ⟨s, []⟩ := by
  obtain ⟨n, hn⟩ := h
  have hl : i.Leads ⟨s, []⟩ (i.arena.resolve n) := ⟨n, hn, rfl⟩
  exact hl.has

theorem WellFormed.closed_facts (hi : i.WellFormed) : i.facts.Closed :=
  hi.arena.settled.closed_facts _

theorem WellFormed.consistent_facts (hi : i.WellFormed) : i.facts.Consistent :=
  hi.arena.settled.consistent_facts _

theorem facts_congr (ha : j.arena = i.arena) (hs : j.slots = i.slots) : j.facts = i.facts := by
  unfold facts
  rw [ha, hs]

theorem assigned_congr (hs : j.slots = i.slots) : j.Assigned = i.Assigned := by
  unfold Assigned
  rw [hs]

theorem wellFormed_congr (ha : j.arena = i.arena) (hs : j.slots = i.slots) (hi : i.WellFormed) :
    j.WellFormed :=
  ⟨ha ▸ hi.arena, fun s n h => ha ▸ hi.root_lt s n (hs ▸ h)⟩

theorem contains_iff {s : SlotIndex} : i.slots.contains s = true ↔ i.Assigned s := by
  rw [SortedMap.contains, Option.isSome_iff_exists]
  rfl

/-- The weight that a choice gives to what is at its term. -/
def weightOf [Weight W] (i : Interpretation W) (c : Choice W) : W :=
  match (i.slots.get? c.term.slot).map fun root => i.arena.lookup root c.term.path with
  | some (.found n) => (c.probability? (i.arena.content n).atom?).getD Weight.impossible
  | _ => c.maxProbability

/-- Both terms lead to one node, the term holds the atom, or what it holds is one of the atoms. -/
def Satisfies (i : Interpretation W) : Constraint W → Prop
  | .relative c => ∃ n, i.Leads c.lhs n ∧ i.Leads c.rhs n
  | .absolute c => ∃ n, i.Leads c.term n ∧ i.arena.content n = .atom c.value
  | .choice c =>
    (∃ root, i.slots.get? c.term.slot = some root ∧
      i.arena.lookup root c.term.path = .missing) ∨
    ∃ n a, i.Leads c.term n ∧ i.arena.content n = .atom a ∧ (c.probability? a).isSome = true

theorem satisfies_relative {c : Relative} :
    i.Satisfies (.relative c) ↔ i.facts.same c.lhs c.rhs := Iff.rfl

theorem satisfies_absolute {c : Absolute} :
    i.Satisfies (.absolute c) ↔ i.facts.value c.term c.value := Iff.rfl

end Interpretation

end FeatureLogic
