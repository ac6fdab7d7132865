import FeatureLogic.Proofs.Renaming.Constraint
import FeatureLogic.Proofs.Renaming.Structure
import FeatureLogic.Proofs.Search.OneShot
/-!
Symbol independence. Under new names a search goes through features and constraints in another
order, but what becomes of a choice of candidates can be told from facts alone, and these are what
they were. So the same choices survive, in the same order, with the same facts under new names.
-/
set_option autoImplicit false

namespace FeatureLogic

variable {W : Type} [Weight W] {ρ : Renaming}

namespace Interpretation
variable {i j : Interpretation W} {c : Choice W}

/-- Under new names a choice finds what it found. -/
theorem weightOf_rename (hW : Weight.Exact W) (hfacts : j.facts = i.facts.rename ρ)
    (hc : Meets i.facts c) : j.weightOf (c.rename ρ) = i.weightOf c := by
  rcases hc.not_has_or_value with hnone | ⟨a, ha⟩
  · have hnone' : ¬ j.facts.Has (c.rename ρ).term := hfacts ▸ mt Facts.rename_has.1 hnone
    rw [weightOf_of_not_has hnone, weightOf_of_not_has hnone', c.maxProbability_rename hW]
  · have ha' : j.facts.value (c.rename ρ).term (ρ.atom a) := hfacts ▸ Facts.rename_value.2 ha
    rw [weightOf_of_value ha, weightOf_of_value ha', c.probability?_rename]

/-- `j` is `i` under new names, node for node though not in the same places. Weights that round may
come out otherwise, since they are multiplied in another order. -/
structure Renamed (ρ : Renaming) (i j : Interpretation W) : Prop where
  assigned : j.Assigned = i.Assigned
  facts : j.facts = i.facts.rename ρ
  probability : Weight.Exact W → j.probability = i.probability

end Interpretation

def OptionTable.rename (t : OptionTable) (ρ : Renaming) : OptionTable :=
  t.mapValues (List.map (·.rename ρ))

theorem ConstraintSet.asksAt_rename {cs : ConstraintSet W} {t : PathTerm} :
    (cs.rename ρ).AsksAt t ↔ ∃ u, ρ.term u = t ∧ cs.AsksAt u := by
  unfold AsksAt
  simp only [mem_absolutes_rename, mem_choices_rename]
  constructor
  · rintro (⟨_, ⟨c, hc, rfl⟩, rfl⟩ | ⟨_, ⟨c, hc, rfl⟩, rfl⟩)
    · exact ⟨c.term, rfl, .inl ⟨c, hc, rfl⟩⟩
    · exact ⟨c.term, rfl, .inr ⟨c, hc, rfl⟩⟩
  · rintro ⟨_, rfl, ⟨c, hc, rfl⟩ | ⟨c, hc, rfl⟩⟩
    · exact .inl ⟨_, ⟨c, hc, rfl⟩, rfl⟩
    · exact .inr ⟨_, ⟨c, hc, rfl⟩, rfl⟩

namespace Search
open Interpretation

variable {cs : ConstraintSet W} {columns : List (SlotIndex × OptionColumn)} {picks done : List Pick}
  {pick : Pick} {r r' : Interpretation W} {t : OptionTable} {settings : SearchSettings}

def Pick.rename (ρ : Renaming) (pick : Pick) : Pick := (pick.1, pick.2.rename ρ)

/-- A column of a renamed table. -/
def renameColumn (ρ : Renaming) (column : SlotIndex × OptionColumn) : SlotIndex × OptionColumn :=
  (column.1, column.2.map (·.rename ρ))

theorem entries_rename (t : OptionTable) : (t.rename ρ).entries = t.entries.map (renameColumn ρ) :=
  rfl

theorem picks_rename {picks' : List Pick} : Picks (columns.map (renameColumn ρ)) picks' ↔
    ∃ picks, Picks columns picks ∧ picks.map (Pick.rename ρ) = picks' := by
  induction columns generalizing picks' with
  | nil => simp [Picks, eq_comm]
  | cons column columns ih =>
    obtain ⟨slot, column⟩ := column
    rw [List.map_cons, renameColumn, picks_cons]
    constructor
    · rintro ⟨_, hs', _, hrest', rfl⟩
      obtain ⟨s, hs, rfl⟩ := List.mem_map.1 hs'
      obtain ⟨rest, hrest, rfl⟩ := ih.1 hrest'
      exact ⟨(slot, s) :: rest, picks_cons.2 ⟨s, hs, rest, hrest, rfl⟩, rfl⟩
    · rintro ⟨picks, hpicks, rfl⟩
      obtain ⟨s, hs, rest, hrest, rfl⟩ := picks_cons.1 hpicks
      exact ⟨s.rename ρ, List.mem_map_of_mem hs, _, ih.2 ⟨rest, hrest, rfl⟩, rfl⟩

theorem product_rename (columns : List (SlotIndex × OptionColumn)) :
    product (columns.map (renameColumn ρ)) =
      (product columns).map (List.map (Pick.rename ρ)) := by
  induction columns with
  | nil => rfl
  | cons column columns ih =>
    obtain ⟨slot, column⟩ := column
    simp only [List.map_cons, renameColumn, product, ih, List.flatMap_map, List.map_flatMap,
      List.map_map]
    rfl

/-! ## The facts of a choice -/

theorem slotsOf_rename (ρ : Renaming) (picks : List Pick) :
    slotsOf (picks.map (Pick.rename ρ)) = slotsOf picks := by
  funext s
  rw [slotsOf, List.map_map]
  rfl

theorem factsOf_rename (picks : List Pick) :
    factsOf (picks.map (Pick.rename ρ)) = (factsOf picks).rename ρ := by
  rw [factsOf, factsOf, Facts.rename_all, List.map_map, List.map_map]
  exact congrArg Facts.all (List.map_congr_left fun pick _ => pick.2.factsAt_rename pick.1)

theorem forced_rename (cs : ConstraintSet W) (picks : List Pick) :
    forced (cs.rename ρ) (picks.map (Pick.rename ρ)) = (forced cs picks).rename ρ := by
  rw [forced, factsOf_rename, slotsOf_rename, cs.facts_rename, ← Facts.rename_sup,
    Facts.closure_rename, forced]

theorem stage_rename (cs : ConstraintSet W) (done : List Pick) (pick : Pick) :
    stage (cs.rename ρ) (done.map (Pick.rename ρ)) (pick.rename ρ) =
      (stage cs done pick).rename ρ := by
  have hslots : slotsOf (done.map (Pick.rename ρ) ++ [pick.rename ρ]) =
      slotsOf (done ++ [pick]) := by
    rw [← slotsOf_rename ρ (done ++ [pick]), List.map_append, List.map_singleton]
  have hpick : (pick.rename ρ).facts = pick.facts.rename ρ := pick.2.factsAt_rename pick.1
  rw [stage, hslots, hpick, forced_rename, cs.sharing_rename, ← Facts.rename_sup,
    Facts.closure_rename, ← Facts.rename_sup, Facts.closure_rename, stage]

/-! ## What a search asks of a choice -/

theorem Candidates.rename (hc : Candidates columns) :
    Candidates (columns.map (renameColumn ρ)) := by
  intro column' hcolumn' s' hs'
  obtain ⟨column, hcolumn, rfl⟩ := List.mem_map.1 hcolumn'
  obtain ⟨s, hs, rfl⟩ := List.mem_map.1 hs'
  exact (hc column hcolumn s hs).rename

theorem AcyclicMerges.rename (hA : AcyclicMerges cs columns ⊥ fun _ => False) :
    AcyclicMerges (cs.rename ρ) (columns.map (renameColumn ρ)) ⊥ fun _ => False := by
  intro first' picks' hfirst' hpicks'
  obtain ⟨first, hfirst, rfl⟩ := List.prefix_map_iff.1 hfirst'
  obtain ⟨picks, hpicks, rfl⟩ := picks_rename.1 hpicks'
  have hslots : (fun s => False ∨ s ∈ (picks.map (Pick.rename ρ)).map (·.1)) =
      fun s => False ∨ s ∈ picks.map (·.1) := by
    rw [List.map_map]
    rfl
  rw [hslots, factsOf_rename, cs.sharing_rename, ← Facts.rename_bot ρ, ← Facts.rename_sup,
    ← Facts.rename_sup, Facts.closure_rename]
  exact (hA first picks hfirst hpicks).rename

theorem compatible_rename : Compatible (cs.rename ρ) (picks.map (Pick.rename ρ)) ↔
    Compatible cs picks := by
  have hadmits : ∀ c : Choice W, (forced (cs.rename ρ) (picks.map (Pick.rename ρ))).Admits
      (c.rename ρ).term (fun a => ((c.rename ρ).probability? a).isSome = true) ↔
      (forced cs picks).Admits c.term fun a => (c.probability? a).isSome = true := by
    intro c
    rw [forced_rename]
    refine Facts.admits_rename.trans ?_
    simp only [c.probability?_rename]
  constructor
  · intro h
    refine ⟨Facts.consistent_rename.1 (forced_rename cs picks ▸ h.consistent), fun {c} hc hs => ?_⟩
    exact (hadmits c).1 (h.admits (ConstraintSet.mem_choices_rename.2 ⟨c, hc, rfl⟩)
      (slotsOf_rename ρ picks ▸ hs))
  · intro h
    refine ⟨forced_rename cs picks ▸ Facts.consistent_rename.2 h.consistent, fun {c'} hc' hs => ?_⟩
    obtain ⟨c, hc, rfl⟩ := ConstraintSet.mem_choices_rename.1 hc'
    exact (hadmits c).2 (h.admits hc (slotsOf_rename ρ picks ▸ hs))

theorem clear_rename : Clear (cs.rename ρ) (done.map (Pick.rename ρ)) (picks.map (Pick.rename ρ)) ↔
    Clear cs done picks := by
  induction picks generalizing done with
  | nil => exact Iff.rfl
  | cons pick picks ih =>
    have hdone : done.map (Pick.rename ρ) ++ [pick.rename ρ] =
        (done ++ [pick]).map (Pick.rename ρ) := by simp
    rw [List.map_cons, Clear, Clear, stage_rename, hdone, slotsOf_rename, ih]
    refine and_congr_left fun _ => ⟨fun h t ht hs he => ?_, fun h t ht hs => ?_⟩
    · exact h (ρ.term t) (ConstraintSet.asksAt_rename.2 ⟨t, rfl, ht⟩) hs (Facts.emptyAt_rename.2 he)
    · obtain ⟨u, rfl, hu⟩ := ConstraintSet.asksAt_rename.1 ht
      exact mt Facts.emptyAt_rename.1 (h u hu hs)

theorem Traced.renamed (hr : Traced cs picks r)
    (hr' : Traced (cs.rename ρ) (picks.map (Pick.rename ρ)) r') : Renamed ρ r r' := by
  have hassigned : r'.Assigned = r.Assigned := by
    rw [hr'.assigned, slotsOf_rename, hr.assigned]
  have hfacts : r'.facts = r.facts.rename ρ := by rw [hr'.facts, forced_rename, hr.facts]
  refine ⟨hassigned, hfacts, fun hW => ?_⟩
  have hcomm : RightCommutative fun (p : W) (c : Choice W) => Weight.times p (r'.weightOf c) :=
    ⟨fun p c d => hW.times_right_comm p _ _⟩
  have hcontains : ∀ s, r'.slots.contains s = r.slots.contains s := by
    intro s
    rw [Bool.eq_iff_iff, contains_iff, contains_iff, hassigned]
  rw [hr'.probability, hr.probability, ((cs.choices_rename_perm ρ).filter _).foldl_eq,
    List.filter_map, List.foldl_map]
  simp only [Function.comp_def, hcontains]
  refine List.foldl_ext _ _ _ fun p c hc => ?_
  obtain ⟨hc, hs⟩ := List.mem_filter.1 hc
  rw [weightOf_rename hW hfacts (hr.meets hc (hr.assigned ▸ contains_iff.1 hs))]

/-- What becomes of a choice under new names. -/
theorem trace_rename (hc : Candidates t.entries)
    (hA : AcyclicMerges cs t.entries ⊥ fun _ => False)
    (hne : ∀ c ∈ cs.absolutes.toList, c.value ≠ .null) (hpicks : Picks t.entries picks) :
    Option.Rel (Renamed ρ) (trace cs picks)
      (trace (cs.rename ρ) (picks.map (Pick.rename ρ))) := by
  rcases eq_or_ne picks [] with rfl | hsome
  · exact .none
  have hpicks' : Picks (t.rename ρ).entries (picks.map (Pick.rename ρ)) :=
    picks_rename.2 ⟨picks, hpicks, rfl⟩
  have hne' : ∀ c ∈ (cs.rename ρ).absolutes.toList, c.value ≠ .null := by
    intro c' hc'
    obtain ⟨c, hc, rfl⟩ := ConstraintSet.mem_absolutes_rename.1 hc'
    exact mt Renaming.atom_eq_null.1 (hne c hc)
  have hpasses := trace_passes_iff hc hA hpicks hpicks.distinct hne hsome
  have hpasses' := trace_passes_iff hc.rename hA.rename hpicks' hpicks'.distinct hne'
    (by simpa using hsome)
  rw [compatible_rename, ← List.map_nil, clear_rename, ← hpasses] at hpasses'
  cases hr : trace cs picks with
  | none =>
    cases hr' : trace (cs.rename ρ) (picks.map (Pick.rename ρ)) with
    | none => exact .none
    | some r' =>
      obtain ⟨r, hrun⟩ := hpasses'.1 ⟨r', hr'⟩
      rw [hr] at hrun
      cases hrun
  | some r =>
    obtain ⟨r', hr'⟩ := hpasses'.2 ⟨r, hr⟩
    rw [hr']
    exact .some ((traced_of_trace hc hA hpicks hr).renamed
      (traced_of_trace hc.rename hA.rename hpicks' hr'))

/-- Names do not matter: with features and atoms renamed, a search finds the same interpretations
under the new names, in the same order. -/
theorem eval_rename (ρ : Renaming) (settings : SearchSettings) (hc : Candidates t.entries)
    (hA : AcyclicMerges cs t.entries ⊥ fun _ => False)
    (hne : ∀ c ∈ cs.absolutes.toList, c.value ≠ .null) :
    List.Forall₂ (Renamed ρ) (eval settings t cs).results
        (eval settings (t.rename ρ) (cs.rename ρ)).results ∧
      (eval settings (t.rename ρ) (cs.rename ρ)).found = (eval settings t cs).found := by
  have hcovered : (cs.rename ρ).slots.all (t.rename ρ).contains = cs.slots.all t.contains := by
    rw [Bool.eq_iff_iff, List.all_eq_true, List.all_eq_true]
    simp only [ConstraintSet.mem_slots_rename, OptionTable.rename, SortedMap.contains_mapValues]
  have hresults : List.Forall₂ (Renamed ρ) (eval settings t cs).results
      (eval settings (t.rename ρ) (cs.rename ρ)).results := by
    rw [(eval_agrees settings ⟨false⟩ hc hA).results,
      (eval_agrees settings ⟨false⟩ (t := t.rename ρ) hc.rename hA.rename).results, eval_results,
      eval_results, hcovered, entries_rename, product_rename, List.filterMap_map]
    split
    · exact List.rel_filterMap (R := fun picks picks' => picks = picks' ∧ Picks t.entries picks)
        (fun picks _ h => h.1 ▸ trace_rename hc hA hne h.2)
        (List.forall₂_same.2 fun picks hpicks => ⟨rfl, mem_product.1 hpicks⟩)
    · exact .nil
  refine ⟨hresults, ?_⟩
  unfold SearchOutcome.found
  rw [Bool.eq_iff_iff]
  simp only [Bool.not_eq_true', List.isEmpty_eq_false_iff, ne_eq, ← List.length_eq_zero_iff,
    hresults.length_eq]

/-- Two names of each kind change places. -/
def exchange : Renaming where
  feature := Equiv.swap ⟨1⟩ ⟨2⟩
  atom := Equiv.swap ⟨1⟩ ⟨2⟩
  feature_injective := Equiv.injective _
  atom_injective := Equiv.injective _
  atom_null := by decide

/-- Two slots are one, with one value given and two weighed. -/
def oneness : ConstraintSet Rat :=
  .ofList [.relative ⟨⟨1, []⟩, ⟨2, []⟩⟩, .absolute ⟨⟨1, [⟨2⟩]⟩, ⟨1⟩⟩,
    .choice ⟨⟨1, [⟨1⟩]⟩, .ofList [(⟨1⟩, 1 / 2), (⟨2⟩, 1 / 3)]⟩,
    .choice ⟨⟨2, [⟨2⟩]⟩, .ofList [(⟨1⟩, 1 / 5)]⟩]

def onenessTable : OptionTable := twoColumns [([⟨1⟩], ⟨1⟩)] [([⟨2⟩], ⟨2⟩), ([⟨2⟩], ⟨1⟩)]

theorem onenessTable_singles : Singles onenessTable.entries :=
  twoColumns_singles (by decide) (by decide)

theorem eval_rename_exchange : ∃ r r', (eval ⟨true⟩ onenessTable oneness).results = [r] ∧
    (eval ⟨true⟩ (onenessTable.rename exchange) (oneness.rename exchange)).results = [r'] ∧
    r'.Assigned = r.Assigned ∧ r'.facts = r.facts.rename exchange ∧
    r'.probability = r.probability := by
  have hA : AcyclicMerges oneness onenessTable.entries ⊥ fun _ => False :=
    onenessTable_singles.acyclicMerges (fun _ _ => False.elim) (by decide)
  obtain ⟨hresults, -⟩ :=
    eval_rename exchange ⟨true⟩ onenessTable_singles.candidates hA (by decide)
  obtain ⟨r, hr⟩ := List.length_eq_one_iff.1
    (by decide : (eval ⟨true⟩ onenessTable oneness).results.length = 1)
  rw [hr] at hresults
  obtain ⟨r', rest, hrename, hrest, hr'⟩ := List.forall₂_cons_left_iff.1 hresults
  rw [List.forall₂_nil_left_iff.1 hrest] at hr'
  exact ⟨r, r', hr, hr', hrename.assigned, hrename.facts, hrename.probability Weight.exact_rat⟩

end Search

end FeatureLogic
