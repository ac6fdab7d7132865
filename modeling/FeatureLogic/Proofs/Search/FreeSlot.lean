import FeatureLogic.Proofs.Interpretation.Slots
import FeatureLogic.Proofs.Search.Independence
/-!
A column for a slot that no relative constraint speaks of. Wherever it comes among the columns, a
choice of candidates gets through the search with it exactly if it gets through without it and the
candidate gets through alone, and then the two lie side by side.
-/
set_option autoImplicit false

namespace FeatureLogic

namespace Interpretation
variable {W : Type} {u : SlotIndex} {i r : Interpretation W}

/-- `r` has one slot more than `i`, which has no node in common with the others. These are what they
were, each on its own and in what they share. -/
structure Gains (u : SlotIndex) (i r : Interpretation W) : Prop where
  assigned (j : SlotIndex) : r.Assigned j ↔ j = u ∨ i.Assigned j
  facts : r.facts.on (· ≠ u) = i.facts
  structure? {j : SlotIndex} : j ≠ u → r.structure? j = i.structure? j
  apart {t v : PathTerm} : t.slot = u → r.facts.same t v → v.slot = u

/-- A slot that is added without touching the others. -/
theorem Gains.of_sup {P : SlotIndex → Prop} {V : Facts} (hi : i.WellFormed) (hr : r.WellFormed)
    (hA : i.facts.Acyclic) (hassigned : ∀ j, r.Assigned j ↔ j = u ∨ i.Assigned j)
    (hold : i.facts ≤ Facts.about P) (hnew : V ≤ Facts.about (· = u)) (hapart : ∀ j, P j → ¬ j = u)
    (hfacts : r.facts = i.facts ⊔ V) : Gains u i r ∧ r.facts.on (· = u) = V := by
  have hon : r.facts.on (· ≠ u) = i.facts := by
    rw [hfacts]
    exact Facts.sup_on hold hnew hapart fun _ hj => not_not_intro hj
  refine ⟨⟨hassigned, hon, fun {j} hj => ?_, fun {t v} ht hs => ?_⟩, ?_⟩
  · refine structure?_congr hi hr hA ((hassigned j).trans (or_iff_right hj)) ?_
    rw [← hon, Facts.on_on]
    rintro _ rfl
    exact hj
  · rw [hfacts] at hs
    rcases hs with hs | hs
    · exact absurd ht (hapart _ (hold.1 _ _ hs).1)
    · exact (hnew.1 _ _ hs).2
  · rw [hfacts, sup_comm]
    exact Facts.sup_on hnew hold (fun _ => id) hapart

theorem Gains.has_iff (h : Gains u i r) {t : PathTerm} (ht : t.slot ≠ u) :
    r.facts.Has t ↔ i.facts.Has t := by
  rw [← h.facts]
  exact (and_iff_left ⟨ht, ht⟩).symm

theorem Gains.value_iff (h : Gains u i r) {t : PathTerm} {a : Atom} (ht : t.slot ≠ u) :
    r.facts.value t a ↔ i.facts.value t a := by
  rw [← h.facts]
  exact (and_iff_left ht).symm

variable [Weight W] {c : Choice W}

theorem Gains.weightOf (h : Gains u i r) (hc : Meets i.facts c) (hslot : c.term.slot ≠ u) :
    r.weightOf c = i.weightOf c := by
  rcases hc.not_has_or_value with hnone | ⟨a, ha⟩
  · rw [weightOf_of_not_has hnone, weightOf_of_not_has (mt (h.has_iff hslot).1 hnone)]
  · rw [weightOf_of_value ha, weightOf_of_value ((h.value_iff hslot).2 ha)]

end Interpretation

namespace Search
open Interpretation

variable {W : Type} [Weight W] {cs : ConstraintSet W} {u : SlotIndex} {s : FeatureStructure}
  {column : OptionColumn} {pre post first : List (SlotIndex × OptionColumn)}
  {picks ps qs : List Pick} {i r : Interpretation W}

/-! ## One choice of candidates -/

theorem prefix_insert {α : Type} {pre post first : List α} {a : α}
    (h : first <+: pre ++ a :: post) :
    first <+: pre ∨ ∃ rest, rest <+: post ∧ first = pre ++ a :: rest := by
  obtain ⟨tail, h⟩ := h
  rcases List.append_eq_append_iff.1 h with ⟨between, rfl, -⟩ | ⟨between, rfl, hbetween⟩
  · exact .inl ⟨between, rfl⟩
  · cases between with
    | nil => exact .inl (by simp)
    | cons b rest =>
      obtain ⟨rfl, rfl⟩ := List.cons.inj hbetween
      exact .inr ⟨rest, ⟨tail, rfl⟩, rfl⟩

theorem picks_append {columns : List (SlotIndex × OptionColumn)} : Picks (pre ++ columns) picks ↔
    ∃ ps qs, Picks pre ps ∧ Picks columns qs ∧ picks = ps ++ qs := by
  constructor
  · intro h
    induction pre generalizing picks with
    | nil => exact ⟨[], picks, .nil, h, rfl⟩
    | cons entry pre ih =>
      obtain ⟨slot, column⟩ := entry
      obtain ⟨s, hs, rest, hrest, rfl⟩ := picks_cons.1 h
      obtain ⟨ps, qs, hps, hqs, rfl⟩ := ih hrest
      exact ⟨(slot, s) :: ps, qs, .cons ⟨rfl, hs⟩ hps, hqs, rfl⟩
  · rintro ⟨ps, qs, hps, hqs, rfl⟩
    exact List.rel_append hps hqs

theorem picks_insert (hps : Picks pre ps) (hqs : Picks post qs) (hs : s ∈ column) :
    Picks (pre ++ (u, column) :: post) (ps ++ (u, s) :: qs) :=
  picks_append.2 ⟨ps, (u, s) :: qs, hps, picks_cons.2 ⟨s, hs, qs, hqs, rfl⟩, rfl⟩

theorem acyclicMerges_iff {columns : List (SlotIndex × OptionColumn)} :
    (AcyclicMerges cs columns ⊥ fun _ => False) ↔
      ∀ first picks, first <+: columns → Picks first picks → (shared cs picks).Acyclic := by
  simp only [AcyclicMerges, bot_sup_eq, false_or]
  rfl

/-- `r` is `i` with the candidate `s` in the slot `u`, and what the constraints make of it there. -/
structure Hosts (cs : ConstraintSet W) (u : SlotIndex) (s : FeatureStructure)
    (i r : Interpretation W) : Prop where
  wellFormed : r.WellFormed
  gains : Gains u i r
  own : r.facts.on (· = u) = forced cs [(u, s)]
  probability : (∀ c ∈ cs.choices.toList, c.term.slot ≠ u) → r.probability = i.probability

theorem Traced.gains (hu : cs.Unrelated u) (hfresh : ¬ slotsOf (ps ++ qs) u)
    (hA : (shared cs (ps ++ qs)).Acyclic) (hi : Traced cs (ps ++ qs) i)
    (hr : Traced cs (ps ++ (u, s) :: qs) r) :
    Gains u i r ∧ r.facts.on (· = u) = forced cs [(u, s)] := by
  have hold : i.facts ≤ Facts.about (slotsOf (ps ++ qs)) := hi.facts ▸ forced_le_about cs _
  refine Gains.of_sup hi.wellFormed hr.wellFormed (hi.facts ▸ acyclic_forced hA) ?_ hold
    (forced_one_le_about cs u s) (apart_of_fresh hfresh) ?_
  · rw [hr.assigned, slotsOf_insert, hi.assigned]
    exact fun _ => Iff.rfl
  · rw [hr.facts, forced_insert hu hfresh, hi.facts]

theorem Traced.probability_of_gains (hi : Traced cs picks i) {picks' : List Pick}
    (hr : Traced cs picks' r) (h : Gains u i r)
    (hslots : ∀ c ∈ cs.choices.toList, c.term.slot ≠ u) : r.probability = i.probability := by
  have hcontains : ∀ c ∈ cs.choices.toList,
      r.slots.contains c.term.slot = i.slots.contains c.term.slot := by
    intro c hc
    rw [Bool.eq_iff_iff, contains_iff, contains_iff, h.assigned, or_iff_right (hslots c hc)]
  rw [hr.probability, hi.probability, List.filter_congr hcontains]
  refine List.foldl_ext _ _ _ fun p c hc => ?_
  obtain ⟨hc, hs⟩ := List.mem_filter.1 hc
  rw [h.weightOf (hi.meets hc (hi.assigned ▸ contains_iff.1 hs)) (hslots c hc)]

/-- Columns between which there is room for one more. No relative constraint speaks of its slot, and
it makes no cycles. -/
structure Room (cs : ConstraintSet W) (pre post : List (SlotIndex × OptionColumn)) (u : SlotIndex)
    (column : OptionColumn) : Prop where
  unrelated : cs.Unrelated u
  not_null : ∀ c ∈ cs.absolutes.toList, c.value ≠ .null
  candidates : Candidates (pre ++ post)
  acyclic : AcyclicMerges cs (pre ++ post) ⊥ fun _ => False
  distinct : ((pre ++ (u, column) :: post).map (·.1)).Nodup
  wellFormed : ∀ s ∈ column, s.WellFormed
  acyclic_candidate : ∀ s ∈ column, (s.factsAt u).Acyclic

namespace Room
variable (h : Room cs pre post u column)
include h

theorem candidates_insert : Candidates (pre ++ (u, column) :: post) := by
  intro entry hentry
  rcases List.mem_append.1 hentry with hentry | hentry
  · exact h.candidates entry (List.mem_append_left _ hentry)
  · rcases List.mem_cons.1 hentry with rfl | hentry
    · exact h.wellFormed
    · exact h.candidates entry (List.mem_append_right _ hentry)

theorem not_slotsOf (hfirst : first <+: pre ++ post) (hpicks : Picks first picks) :
    ¬ slotsOf picks u := by
  have hnodup := h.distinct
  rw [List.map_append, List.map_cons, List.nodup_middle, List.nodup_cons, ← List.map_append]
    at hnodup
  rw [slotsOf, hpicks.slots]
  exact fun hu => hnodup.1 ((hfirst.map _).subset hu)

theorem acyclic_shared_insert (hs : s ∈ column) (hfresh : ¬ slotsOf (ps ++ qs) u)
    (hA : (shared cs (ps ++ qs)).Acyclic) : (shared cs (ps ++ (u, s) :: qs)).Acyclic := by
  rw [shared_insert h.unrelated hfresh, ((h.wellFormed s hs).closed_factsAt u).closure_eq]
  exact hA.sup (h.acyclic_candidate s hs)

theorem acyclic_insert : AcyclicMerges cs (pre ++ (u, column) :: post) ⊥ fun _ => False := by
  rw [acyclicMerges_iff]
  intro first picks hfirst hpicks
  have hA := acyclicMerges_iff.1 h.acyclic
  rcases prefix_insert hfirst with hfirst | ⟨rest, hrest, rfl⟩
  · exact hA first picks (hfirst.trans (List.prefix_append _ _)) hpicks
  · obtain ⟨ps, _, hps, hown, rfl⟩ := picks_append.1 hpicks
    obtain ⟨s, hs, qs, hqs, rfl⟩ := picks_cons.1 hown
    have hbase : Picks (pre ++ rest) (ps ++ qs) := List.rel_append hps hqs
    have hprefix : pre ++ rest <+: pre ++ post := (List.prefix_append_right_inj pre).2 hrest
    exact h.acyclic_shared_insert hs (h.not_slotsOf hprefix hbase) (hA _ _ hprefix hbase)

/-- There is room for the column with no others as well. -/
theorem own : Room cs [] [] u column where
  unrelated := h.unrelated
  not_null := h.not_null
  candidates := fun _ => by simp
  acyclic := by
    rw [acyclicMerges_iff]
    intro first picks hfirst hpicks
    obtain rfl := List.prefix_nil.1 hfirst
    exact acyclicMerges_iff.1 h.acyclic [] picks (List.nil_prefix) hpicks
  distinct := List.nodup_singleton u
  wellFormed := h.wellFormed
  acyclic_candidate := h.acyclic_candidate

theorem trace_one_iff (hs : s ∈ column) : (∃ own, trace cs [(u, s)] = some own) ↔
    Compatible cs [(u, s)] ∧ Clear cs [] [(u, s)] := by
  have hown : Picks ([] ++ (u, column) :: []) [(u, s)] := .cons ⟨rfl, hs⟩ .nil
  exact trace_passes_iff h.own.candidates_insert h.own.acyclic_insert hown (List.nodup_singleton u)
    h.not_null (by simp)

/-- A choice gets through with the candidate exactly if it does without it, and the candidate
alone. -/
theorem trace_insert_iff (hps : Picks pre ps) (hqs : Picks post qs) (hs : s ∈ column)
    (hsome : pre ++ post ≠ []) : (∃ r, trace cs (ps ++ (u, s) :: qs) = some r) ↔
      (∃ i, trace cs (ps ++ qs) = some i) ∧ ∃ own, trace cs [(u, s)] = some own := by
  have hpicks := picks_append.2 ⟨ps, qs, hps, hqs, rfl⟩
  have hinsert := picks_insert (u := u) hps hqs hs
  have hfresh := h.not_slotsOf List.prefix_rfl hpicks
  have hne : ps ++ qs ≠ [] := by
    intro hnil
    rw [hnil] at hpicks
    exact hsome (List.forall₂_nil_right_iff.1 hpicks)
  have hdistinct : Distinct (ps ++ (u, s) :: qs) := by
    rw [Distinct, hinsert.slots]
    exact h.distinct
  have hdistinct' : Distinct (ps ++ qs) := by
    rw [Distinct, List.map_append, List.map_cons, List.nodup_middle] at hdistinct
    rw [Distinct, List.map_append]
    exact hdistinct.of_cons
  rw [trace_passes_iff h.candidates_insert h.acyclic_insert hinsert hdistinct h.not_null (by simp),
    trace_passes_iff h.candidates h.acyclic hpicks hdistinct' h.not_null hne,
    h.trace_one_iff hs, compatible_insert h.unrelated hfresh,
    clear_insert h.unrelated h.not_null hfresh, and_and_and_comm]

/-- If the candidate gets through alone, it makes no difference to what else gets through. -/
theorem rel_trace (hps : Picks pre ps) (hqs : Picks post qs) (hs : s ∈ column)
    (hsome : pre ++ post ≠ []) (hown : ∃ own, trace cs [(u, s)] = some own) :
    Option.Rel (fun i r => s ∈ column ∧ Hosts cs u s i r) (trace cs (ps ++ qs))
      (trace cs (ps ++ (u, s) :: qs)) := by
  have hpicks := picks_append.2 ⟨ps, qs, hps, hqs, rfl⟩
  have hinsert := picks_insert (u := u) hps hqs hs
  have hpasses := h.trace_insert_iff hps hqs hs hsome
  cases hi : trace cs (ps ++ qs) with
  | none =>
    cases hr : trace cs (ps ++ (u, s) :: qs) with
    | none => exact .none
    | some r =>
      obtain ⟨⟨i, hrun⟩, -⟩ := hpasses.1 ⟨r, hr⟩
      rw [hi] at hrun
      cases hrun
  | some i =>
    obtain ⟨r, hr⟩ := hpasses.2 ⟨⟨i, hi⟩, hown⟩
    have hi := traced_of_trace h.candidates h.acyclic hpicks hi
    have hr' := traced_of_trace h.candidates_insert h.acyclic_insert hinsert hr
    obtain ⟨hgains, hon⟩ := hi.gains h.unrelated (h.not_slotsOf List.prefix_rfl hpicks)
      (acyclicMerges_iff.1 h.acyclic _ _ List.prefix_rfl hpicks) hr'
    rw [hr]
    exact .some ⟨hs, hr'.wellFormed, hgains, hon, hi.probability_of_gains hr' hgains⟩

end Room

/-! ## All choices -/

theorem product_append (pre post : List (SlotIndex × OptionColumn)) :
    product (pre ++ post) = (product post).flatMap fun qs => (product pre).map (· ++ qs) := by
  induction pre with
  | nil => simp [product]
  | cons entry pre ih =>
    obtain ⟨slot, column⟩ := entry
    rw [List.cons_append, product, ih, product, List.flatMap_assoc]
    refine congrArg ((product post).flatMap ·) (funext fun qs => ?_)
    rw [List.flatMap_map, List.map_flatMap]
    simp only [List.map_map]
    rfl

theorem filterMap_trace_append (cs : ConstraintSet W)
    (pre post : List (SlotIndex × OptionColumn)) : (product (pre ++ post)).filterMap (trace cs) =
      (product post).flatMap fun qs => (product pre).filterMap fun ps => trace cs (ps ++ qs) := by
  rw [product_append, List.filterMap_flatMap]
  simp only [List.filterMap_map]
  rfl

/-- What gets through with each candidate of a column, in the order of a search that comes to this
column between the others. -/
def pairings (cs : ConstraintSet W) (pre post : List (SlotIndex × OptionColumn))
    (column : OptionColumn) : List (Interpretation W × FeatureStructure) :=
  (product post).flatMap fun qs => column.flatMap fun s =>
    ((product pre).filterMap fun ps => trace cs (ps ++ qs)).map (·, s)

theorem pairings_one (cs : ConstraintSet W) (pre post : List (SlotIndex × OptionColumn))
    (s : FeatureStructure) : pairings cs pre post [s] =
      ((product (pre ++ post)).filterMap (trace cs)).map (·, s) := by
  rw [filterMap_trace_append, List.map_flatMap, pairings]
  simp only [List.flatMap_singleton]

theorem pairings_perm (cs : ConstraintSet W) (pre post : List (SlotIndex × OptionColumn))
    (column : OptionColumn) : (pairings cs pre post column).Perm
      ((product (pre ++ post)).filterMap (trace cs) ×ˢ column) := by
  have hpairs : ∀ is : List (Interpretation W),
      (column.flatMap fun s => is.map (·, s)).Perm (is.flatMap fun i => column.map (i, ·)) := by
    intro is
    have hcomm := Multiset.bind_map_comm (column : Multiset FeatureStructure)
      (is : Multiset (Interpretation W)) (f := fun s i => (i, s))
    simpa only [Multiset.map_coe, Multiset.coe_bind, Multiset.coe_eq_coe] using hcomm
  rw [filterMap_trace_append]
  change (pairings cs pre post column).Perm (List.flatMap _ _)
  rw [List.flatMap_assoc]
  exact List.Perm.flatMap_left _ fun qs _ => hpairs _

/-- If each candidate of the column gets through alone, each choice that gets through without it
gets through with each of them. -/
theorem Room.forall₂_pairings (h : Room cs pre post u column) (hsome : pre ++ post ≠ [])
    (hown : ∀ s ∈ column, ∃ own, trace cs [(u, s)] = some own) :
    List.Forall₂ (fun p r => p.2 ∈ column ∧ Hosts cs u p.2 p.1 r) (pairings cs pre post column)
      ((product (pre ++ (u, column) :: post)).filterMap (trace cs)) := by
  rw [filterMap_trace_append, product, List.flatMap_assoc, pairings]
  refine List.rel_flatMap (R := fun qs qs' => qs' = qs ∧ Picks post qs)
    (List.forall₂_same.2 fun qs hqs => ⟨rfl, mem_product.1 hqs⟩) ?_
  rintro _ qs ⟨rfl, hqs⟩
  dsimp only
  rw [List.flatMap_map]
  refine List.rel_flatMap (R := fun s s' => s' = s ∧ s ∈ column)
    (List.forall₂_same.2 fun s hs => ⟨rfl, hs⟩) ?_
  rintro _ s ⟨rfl, hs⟩
  rw [List.forall₂_map_left_iff]
  refine List.rel_filterMap (R := fun ps ps' => ps' = ps ∧ Picks pre ps) ?_
    (List.forall₂_same.2 fun ps hps => ⟨rfl, mem_product.1 hps⟩)
  rintro _ ps ⟨rfl, hps⟩
  exact h.rel_trace hps hqs hs hsome (hown s hs)

/-! ## Tables -/

/-- In a table there is room for a column wherever its slot comes among the others. -/
theorem exists_room {t : OptionTable} (hu : cs.Unrelated u)
    (hne : ∀ c ∈ cs.absolutes.toList, c.value ≠ .null) (hc : Candidates t.entries)
    (hA : AcyclicMerges cs t.entries ⊥ fun _ => False) (hfresh : t.contains u = false)
    (hcolumn : ∀ s ∈ column, s.WellFormed ∧ (s.factsAt u).Acyclic) :
    ∃ pre post, t.entries = pre ++ post ∧
      (t.insert u column).entries = pre ++ (u, column) :: post ∧ Room cs pre post u column := by
  have hkey : u ∉ t.entries.map (·.1) := by
    intro hmem
    rw [SortedMap.contains_iff_mem_keys.2 hmem] at hfresh
    cases hfresh
  obtain ⟨pre, post, hentries, hinsert⟩ := exists_insertEntry hkey column
  refine ⟨pre, post, hentries, hinsert, ?_⟩
  rw [hentries] at hc hA
  refine ⟨hu, hne, hc, hA, ?_, fun s hs => (hcolumn s hs).1, fun s hs => (hcolumn s hs).2⟩
  rw [← hinsert]
  exact (t.insert u column).ascending.nodup_keys

/-! ## A slot of its own -/

section Free
variable (hfree : u ∉ cs.slots)
include hfree

theorem not_mentions {c : Constraint W} (hc : c ∈ cs.toList) : c.mentions u = false :=
  Bool.eq_false_iff.2 fun hm => hfree (ConstraintSet.mem_slots hc hm)

theorem unrelated_of_free : cs.Unrelated u := by
  intro c hc
  simpa [Constraint.mentions] using not_mentions hfree (ConstraintSet.relative_mem hc)

theorem absolute_slot_ne {c : Absolute} (hc : c ∈ cs.absolutes.toList) : c.term.slot ≠ u := by
  simpa [Constraint.mentions] using not_mentions hfree (ConstraintSet.absolute_mem hc)

theorem choice_slot_ne {c : Choice W} (hc : c ∈ cs.choices.toList) : c.term.slot ≠ u := by
  simpa [Constraint.mentions] using not_mentions hfree (ConstraintSet.choice_mem hc)

theorem forced_of_free (hs : s.WellFormed) : forced cs [(u, s)] = s.factsAt u := by
  have hplacing : cs.placing (· = u) = ⊥ := by
    refine le_bot_iff.1 (Facts.all_le.2 (List.forall_mem_map.2 fun c hc => ?_))
    exact Absolute.factsOn_le.2 fun hslot => absurd hslot (absolute_slot_ne hfree hc)
  rw [forced, factsOf_cons, factsOf_nil, slotsOf_singleton, ConstraintSet.facts,
    ConstraintSet.sharing_only (unrelated_of_free hfree), hplacing, sup_bot_eq, sup_bot_eq,
    sup_bot_eq]
  exact (hs.closed_factsAt u).closure_eq

/-- Every candidate gets through alone. -/
theorem Room.exists_trace_of_free (h : Room cs pre post u column) (hs : s ∈ column) :
    ∃ own, trace cs [(u, s)] = some own := by
  have hwf := h.wellFormed s hs
  rw [h.trace_one_iff hs]
  refine ⟨⟨?_, fun {c} hc hslot => ?_⟩, ?_, trivial⟩
  · rw [forced_of_free hfree hwf]
    exact hwf.consistent_factsAt u
  · rw [slotsOf_singleton] at hslot
    exact absurd hslot (choice_slot_ne hfree hc)
  · rw [List.nil_append, slotsOf_singleton]
    rintro t (⟨c, hc, rfl⟩ | ⟨c, hc, rfl⟩) hslot
    · exact absurd hslot (absolute_slot_ne hfree hc)
    · exact absurd hslot (choice_slot_ne hfree hc)

end Free

/-- A column for a slot that neither the table nor a constraint names changes nothing for the
others. Wherever it comes, there is one result for each old result and each of its candidates: the
old slots are what they were, the probability is the same, and the new slot holds a copy of the
candidate that shares nothing with them. -/
theorem eval_insert {t : OptionTable} (settings : SearchSettings) (hnonempty : t.isEmpty = false)
    (hcovered : ∀ j ∈ cs.slots, t.contains j = true)
    (hne : ∀ c ∈ cs.absolutes.toList, c.value ≠ .null) (hc : Candidates t.entries)
    (hA : AcyclicMerges cs t.entries ⊥ fun _ => False) (hfresh : t.contains u = false)
    (hcolumn : ∀ s ∈ column, s.WellFormed ∧ (s.factsAt u).Acyclic) :
    ∃ pairs, pairs.Perm ((eval settings t cs).results ×ˢ column) ∧
      List.Forall₂ (fun p r => Gains u p.1 r ∧ r.structure? u = some p.2.compact ∧
          r.probability = p.1.probability)
        pairs (eval settings (t.insert u column) cs).results := by
  have hfree : u ∉ cs.slots := by
    intro hu
    rw [hcovered u hu] at hfresh
    cases hfresh
  obtain ⟨pre, post, hentries, hinsert, hroom⟩ :=
    exists_room (unrelated_of_free hfree) hne hc hA hfresh hcolumn
  have hsome : pre ++ post ≠ [] := hentries ▸ List.isEmpty_eq_false_iff.1 hnonempty
  have hcovered' : ∀ j ∈ cs.slots, (t.insert u column).contains j = true := by
    intro j hj
    rw [SortedMap.contains_insert, hcovered j hj, Bool.or_true]
  have hpairs := hroom.forall₂_pairings hsome fun s => hroom.exists_trace_of_free hfree
  refine ⟨pairings cs pre post column, ?_, ?_⟩
  · rw [eval_results_of_covered settings hcovered hc hA, hentries]
    exact pairings_perm cs pre post column
  · rw [eval_results_of_covered settings hcovered' (hinsert ▸ hroom.candidates_insert)
      (hinsert ▸ hroom.acyclic_insert), hinsert]
    refine hpairs.imp fun ⟨i, s⟩ r ⟨hs, hosts⟩ => ⟨hosts.gains, ?_, ?_⟩
    · refine structure?_eq hosts.wellFormed (hcolumn s hs).1 (hcolumn s hs).2
        ((hosts.gains.assigned u).2 (.inl rfl)) ?_
      rw [hosts.own, forced_of_free hfree (hcolumn s hs).1]
    · exact hosts.probability fun c => choice_slot_ne hfree

/-- Two candidates for a slot before all others. -/
def freeColumn : OptionColumn := [.single [⟨1⟩] ⟨1⟩, .single [⟨2⟩] ⟨2⟩]

theorem freeColumn_spec : ∀ s ∈ freeColumn, s.WellFormed ∧ (s.factsAt 0).Acyclic := by
  have hsingle : ∀ f a, (FeatureStructure.single [f] a).WellFormed ∧
      ((FeatureStructure.single [f] a).factsAt 0).Acyclic := fun f a =>
    ⟨(FeatureStructure.single_spec (List.cons_ne_nil f []) a).1,
      (FeatureStructure.single_graded (List.cons_ne_nil f []) a 0).acyclic⟩
  exact List.forall_mem_cons.2 ⟨hsingle _ _, List.forall_mem_singleton.2 (hsingle _ _)⟩

theorem eval_insert_agreement : ∃ pairs, pairs.length = 2 ∧
    pairs.Perm ((eval ⟨true⟩ agreementTable agreement).results ×ˢ freeColumn) ∧
    List.Forall₂ (fun p r => Gains 0 p.1 r ∧ r.structure? 0 = some p.2.compact ∧
        r.probability = p.1.probability)
      pairs (eval ⟨true⟩ (agreementTable.insert 0 freeColumn) agreement).results := by
  have ht := agreementTable_singles
  obtain ⟨pairs, hperm, hpairs⟩ := eval_insert ⟨true⟩ (by decide : agreementTable.isEmpty = false)
    (List.all_eq_true.1 (by decide)) (by decide) ht.candidates
    (ht.acyclicMerges (fun _ _ => False.elim) agreement_level) (by decide) freeColumn_spec
  exact ⟨pairs, hperm.length_eq.trans (by decide), hperm, hpairs⟩

end Search

end FeatureLogic
