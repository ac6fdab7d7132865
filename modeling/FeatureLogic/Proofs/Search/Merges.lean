import FeatureLogic.Proofs.Interpretation.QuickCheck
import FeatureLogic.Proofs.Structure.Building
import FeatureLogic.Search.Basic
/-!
Picks: one candidate for each of some columns. A search merges picks into interpretations and adds
what the constraints ask for; if no picks together with the sharing they are put under make a cycle,
then neither does any merge of the search.
-/
set_option autoImplicit false

namespace FeatureLogic.Search
open Interpretation

/-- A candidate for a slot. -/
abbrev Pick := SlotIndex × FeatureStructure

/-- One candidate of each column. -/
def Picks (columns : List (SlotIndex × OptionColumn)) (picks : List Pick) : Prop :=
  List.Forall₂ (fun column pick => pick.1 = column.1 ∧ pick.2 ∈ column.2) columns picks

def Pick.facts (pick : Pick) : Facts := pick.2.factsAt pick.1

def factsOf (picks : List Pick) : Facts := .all (picks.map Pick.facts)

def Candidates (columns : List (SlotIndex × OptionColumn)) : Prop :=
  ∀ column ∈ columns, ∀ s ∈ column.2, s.WellFormed

variable {W : Type} [Weight W] {cs : ConstraintSet W} {columns : List (SlotIndex × OptionColumn)}
  {picks : List Pick} {F : Facts} {assigned : SlotIndex → Prop} {slot : SlotIndex}
  {column : OptionColumn} {s : FeatureStructure} {i j m : Interpretation W}

/-- Picks for the first columns, merged with the facts `F` of the assigned slots and shared as the
relative constraints say, make no path coincide with an extension of itself. -/
def AcyclicMerges (cs : ConstraintSet W) (columns : List (SlotIndex × OptionColumn)) (F : Facts)
    (assigned : SlotIndex → Prop) : Prop :=
  ∀ first picks, first <+: columns → Picks first picks →
    (F ⊔ factsOf picks ⊔
      cs.sharing fun t => assigned t ∨ t ∈ picks.map (·.1)).closure.Acyclic

theorem picks_cons : Picks ((slot, column) :: columns) picks ↔
    ∃ s ∈ column, ∃ rest, Picks columns rest ∧ picks = (slot, s) :: rest := by
  unfold Picks
  rw [List.forall₂_cons_left_iff]
  constructor
  · rintro ⟨⟨slot', s⟩, rest, ⟨hslot, hs⟩, hrest, rfl⟩
    cases hslot
    exact ⟨s, hs, rest, hrest, rfl⟩
  · rintro ⟨s, hs, rest, hrest, rfl⟩
    exact ⟨(slot, s), rest, ⟨rfl, hs⟩, hrest, rfl⟩

theorem Picks.slots (h : Picks columns picks) : picks.map (·.1) = columns.map (·.1) := by
  induction h with
  | nil => rfl
  | cons hhead _ ih => simp [hhead.1, ih]

@[simp] theorem factsOf_nil : factsOf [] = ⊥ := Facts.all_nil

@[simp] theorem factsOf_cons (pick : Pick) (picks : List Pick) :
    factsOf (pick :: picks) = pick.facts ⊔ factsOf picks := Facts.all_cons ..

theorem factsOf_append (picks picks' : List Pick) :
    factsOf (picks ++ picks') = factsOf picks ⊔ factsOf picks' := by
  rw [factsOf, List.map_append, Facts.all_append, factsOf, factsOf]

theorem Candidates.head (h : Candidates ((slot, column) :: columns)) (hs : s ∈ column) :
    s.WellFormed :=
  h _ List.mem_cons_self s hs

theorem Candidates.tail (h : Candidates ((slot, column) :: columns)) : Candidates columns :=
  fun c hc => h c (List.mem_cons_of_mem _ hc)

/-- The next merge makes no cycle. -/
theorem AcyclicMerges.head (h : AcyclicMerges cs ((slot, column) :: columns) F assigned)
    (hs : s ∈ column) :
    (F ⊔ s.factsAt slot ⊔ cs.sharing fun t => t = slot ∨ assigned t).closure.Acyclic := by
  have hp : [(slot, column)] <+: (slot, column) :: columns := ⟨columns, rfl⟩
  have hA := h _ [(slot, s)] hp (.cons ⟨rfl, hs⟩ .nil)
  rw [factsOf_cons, factsOf_nil, sup_bot_eq] at hA
  refine hA.mono (Facts.closure_mono (sup_le_sup_left (ConstraintSet.sharing_mono ?_) _))
  rintro t (rfl | ht)
  · exact .inr List.mem_cons_self
  · exact .inl ht

/-- What an evaluated merge adds to its facts makes no cycle in later merges either. -/
theorem AcyclicMerges.tail (h : AcyclicMerges cs ((slot, column) :: columns) F assigned)
    (hs : s ∈ column) (hm : m.facts = (F ⊔ s.factsAt slot).closure)
    (hassigned : ∀ t, m.Assigned t ↔ t = slot ∨ assigned t) (hj : Evaluates cs m j) :
    AcyclicMerges cs columns j.facts j.Assigned := by
  intro first picks hfirst hpicks
  have hp : (slot, column) :: first <+: (slot, column) :: columns := by
    rwa [List.prefix_cons_inj]
  have hA := h _ ((slot, s) :: picks) hp (.cons ⟨rfl, hs⟩ hpicks)
  have hle := Facts.le_closure (F ⊔ factsOf ((slot, s) :: picks) ⊔
    cs.sharing fun t => assigned t ∨ t ∈ ((slot, s) :: picks).map (·.1))
  generalize hC : (F ⊔ factsOf ((slot, s) :: picks) ⊔
    cs.sharing fun t => assigned t ∨ t ∈ ((slot, s) :: picks).map (·.1)).closure = C at hA hle
  have hCcl : C.Closed := hC ▸ Facts.closed_closure _
  rw [factsOf_cons] at hle
  simp only [sup_le_iff] at hle
  obtain ⟨⟨hF, hslot, hpicks⟩, hsharing⟩ := hle
  have hmC : m.facts ≤ C := by
    rw [hm]
    exact Facts.closure_le hCcl (sup_le hF hslot)
  have hslots : ∀ t, m.Assigned t → assigned t ∨ t ∈ ((slot, s) :: picks).map (·.1) := by
    intro t ht
    rcases (hassigned t).1 ht with rfl | ht
    · exact .inr List.mem_cons_self
    · exact .inl ht
  have hmA : j.Assigned = m.Assigned := assigned_congr hj.slots
  refine (Facts.HangsOn.acyclic hCcl (hangsOn_placing cs hmC) hA).mono ?_
  refine Facts.closure_le (Facts.closed_closure _) (sup_le (sup_le ?_ ?_) ?_)
  · rw [hj.facts]
    refine Facts.closure_mono (sup_le (hmC.trans le_sup_left) (sup_le_sup_right ?_ _))
    exact (ConstraintSet.sharing_mono hslots).trans hsharing
  · exact hpicks.trans (le_sup_left.trans (Facts.le_closure _))
  · refine le_trans ?_ (hsharing.trans (le_sup_left.trans (Facts.le_closure _)))
    refine ConstraintSet.sharing_mono fun t ht => ?_
    rcases ht with ht | ht
    · exact hslots t (hmA ▸ ht)
    · exact .inr (List.mem_cons_of_mem _ ht)

/-- A candidate merged into an interpretation that satisfies the constraints. -/
theorem AcyclicMerges.extend
    (h : AcyclicMerges cs ((slot, column) :: columns) i.facts i.Assigned) (hi : i.WellFormed)
    (hwf : s.WellFormed) (hs : s ∈ column)
    (hrun : (Extension.merge ⟨i, slot, s⟩).eval cs = (true, j)) :
    Extension.Merged ⟨i, slot, s⟩ (Extension.merge ⟨i, slot, s⟩) ∧
      Evaluates cs (Extension.merge ⟨i, slot, s⟩) j ∧
      AcyclicMerges cs columns j.facts j.Assigned := by
  have hA := h.head hs
  have hm := (Extension.merge_spec (e := ⟨i, slot, s⟩) hi hwf
    (hA.mono (Facts.closure_mono le_sup_left))).1 (eval_eq_true.1 hrun).1
  have hj := eval_sound hm.wellFormed (by
    rw [hm.assigned_eq, hm.facts, Facts.closure_sup_closure]
    exact hA) hrun
  exact ⟨hm, hj, h.tail hs hm.facts hm.assigned hj⟩

/-- A candidate of the first column that satisfies the constraints. -/
theorem AcyclicMerges.seed (h : AcyclicMerges cs ((slot, column) :: columns) ⊥ fun _ => False)
    (hwf : s.WellFormed) (hs : s ∈ column)
    (hrun : (ofStructure slot s : Interpretation W).eval cs = (true, j)) :
    Evaluates cs (ofStructure slot s) j ∧ AcyclicMerges cs columns j.facts j.Assigned := by
  have hA := h.head hs
  rw [bot_sup_eq] at hA
  obtain ⟨hi, hassigned, hfacts⟩ := ofStructure_spec (W := W) hwf
    (hA.mono (le_sup_left.trans (Facts.le_closure _)))
  have hslots : ∀ t, (ofStructure slot s : Interpretation W).Assigned t ↔ t = slot ∨ False := by
    simpa using hassigned
  have hj := eval_sound hi (by
    rw [hfacts, funext fun t => propext (hslots t)]
    exact hA) hrun
  refine ⟨hj, h.tail hs ?_ hslots hj⟩
  rw [bot_sup_eq, (hwf.closed_factsAt slot).closure_eq, hfacts]

/-! ## Levels -/

theorem Picks.mem (h : Picks columns picks) :
    ∀ pick ∈ picks, ∃ column ∈ columns, pick.2 ∈ column.2 := by
  induction h with
  | nil => simp
  | cons hhead _ ih =>
    refine List.forall_mem_cons.2 ⟨⟨_, List.mem_cons_self, hhead.2⟩, fun pick hpick => ?_⟩
    obtain ⟨column, hcolumn, hs⟩ := ih pick hpick
    exact ⟨column, List.mem_cons_of_mem _ hcolumn, hs⟩

theorem sharing_graded
    (hcs : ∀ c ∈ cs.relatives.toList, c.lhs.path.length = c.rhs.path.length) :
    (cs.sharing assigned).Graded := by
  refine .all (List.forall_mem_map.2 fun c hc => ?_)
  rintro _ _ ⟨⟨rfl, rfl⟩, -⟩
  exact hcs c hc

/-- Candidates with levels make no cycle if the constraints share paths of equal length only. -/
theorem AcyclicMerges.of_graded (hF : F.Graded)
    (hcandidates : ∀ column ∈ columns, ∀ s ∈ column.2, ∀ i, (s.factsAt i).Graded)
    (hcs : ∀ c ∈ cs.relatives.toList, c.lhs.path.length = c.rhs.path.length) :
    AcyclicMerges cs columns F assigned := by
  intro first picks hfirst hpicks
  refine ((hF.sup (.all ?_)).sup (sharing_graded hcs)).closure.acyclic
  refine List.forall_mem_map.2 fun pick hpick => ?_
  obtain ⟨column, hcolumn, hs⟩ := hpicks.mem pick hpick
  exact hcandidates column (hfirst.subset hcolumn) pick.2 hs pick.1

/-- Candidates of one leaf each, below the root. -/
def Singles (columns : List (SlotIndex × OptionColumn)) : Prop :=
  ∀ column ∈ columns, ∀ s ∈ column.2, ∃ p a, p ≠ [] ∧ s = .single p a

theorem Singles.candidates (h : Singles columns) : Candidates columns := by
  intro column hcolumn s hs
  obtain ⟨p, a, hp, rfl⟩ := h column hcolumn s hs
  exact (FeatureStructure.single_spec hp a).1

theorem Singles.acyclicMerges (h : Singles columns) (hF : F.Graded)
    (hcs : ∀ c ∈ cs.relatives.toList, c.lhs.path.length = c.rhs.path.length) :
    AcyclicMerges cs columns F assigned := by
  refine .of_graded hF (fun column hcolumn s hs => ?_) hcs
  obtain ⟨p, a, hp, rfl⟩ := h column hcolumn s hs
  exact FeatureStructure.single_graded hp a

/-- Two slots with candidates of one leaf each. -/
def twoColumns (first second : List (Path × Atom)) : OptionTable :=
  .ofList [(1, first.map fun e => .single e.1 e.2), (2, second.map fun e => .single e.1 e.2)]

theorem twoColumns_singles {first second : List (Path × Atom)} (h : ∀ e ∈ first, e.1 ≠ [])
    (h' : ∀ e ∈ second, e.1 ≠ []) : Singles (twoColumns first second).entries := by
  have hentries : (twoColumns first second).entries = [(1, first.map fun e => .single e.1 e.2),
      (2, second.map fun e => .single e.1 e.2)] := rfl
  simp only [Singles, hentries, List.forall_mem_cons, List.forall_mem_map]
  exact ⟨fun e he => ⟨e.1, e.2, h e he, rfl⟩, fun e he => ⟨e.1, e.2, h' e he, rfl⟩, by simp⟩

/-- Two slots agree on a feature, one asks for its value, the other leaves a choice. -/
def agreement : ConstraintSet Float :=
  .ofList [.relative ⟨⟨1, [⟨1⟩]⟩, ⟨2, [⟨1⟩]⟩⟩, .absolute ⟨⟨1, [⟨1⟩]⟩, ⟨1⟩⟩,
    .choice ⟨⟨2, [⟨1⟩]⟩, .singleton ⟨1⟩ 0.5⟩]

theorem agreement_level :
    ∀ c ∈ agreement.relatives.toList, c.lhs.path.length = c.rhs.path.length := by decide

def agreementTable : OptionTable := twoColumns [([⟨1⟩], ⟨1⟩)] [([⟨1⟩], ⟨1⟩), ([⟨1⟩], ⟨2⟩)]

theorem agreementTable_singles : Singles agreementTable.entries :=
  twoColumns_singles (by decide) (by decide)

end FeatureLogic.Search
