import FeatureLogic.Proofs.Renaming.Constraint
import FeatureLogic.Proofs.Search.FreeSlot
import FeatureLogic.Proofs.Search.Resuming
/-!
Wildcards. A constraint that asks for a value in a slot without a column has a wildcard stand in for
the column. The value is put below the wildcard's root, so the wildcard passes and the other slots
are left alone. At the root itself there is an empty node already, and the wildcard fails.
-/
set_option autoImplicit false

namespace FeatureLogic

variable {W : Type} {w j : SlotIndex} {u : PathTerm} {k : Constraint W}

namespace Constraint

/-- The constraint asks for a value, or for one of some values, at `u`. -/
def AsksAt (u : PathTerm) : Constraint W → Prop
  | absolute c => c.term = u
  | choice c => c.term = u
  | relative _ => False

theorem AsksAt.mentions (h : k.AsksAt u) : k.mentions j = true ↔ j = u.slot := by
  cases k with
  | absolute c =>
    obtain rfl : c.term = u := h
    simp [Constraint.mentions, eq_comm]
  | choice c =>
    obtain rfl : c.term = u := h
    simp [Constraint.mentions, eq_comm]
  | relative c => exact h.elim

theorem AsksAt.unique {v : PathTerm} (h : k.AsksAt u) (h' : k.AsksAt v) : u = v := by
  cases k with
  | absolute c => exact h.symm.trans h'
  | choice c => exact h.symm.trans h'
  | relative c => exact h.elim

end Constraint

namespace ConstraintSet
variable [Weight W] {cs : ConstraintSet W}

theorem asksAt_iff : cs.AsksAt u ↔ ∃ c ∈ cs.toList, c.AsksAt u := by
  constructor
  · rintro (⟨c, hc, hu⟩ | ⟨c, hc, hu⟩)
    · exact ⟨_, absolute_mem hc, hu⟩
    · exact ⟨_, choice_mem hc, hu⟩
  · rintro ⟨c, hc, hu⟩
    simp only [toList, List.mem_append, List.mem_map] at hc
    rcases hc with (⟨c, -, rfl⟩ | ⟨c, hc, rfl⟩) | ⟨c, hc, rfl⟩
    · exact hu.elim
    · exact .inl ⟨c, hc, hu⟩
    · exact .inr ⟨c, hc, hu⟩

section Insert
variable (hk : k.AsksAt u)
include hk

theorem relatives_insert : (cs.insert k).relatives = cs.relatives := by
  cases k with
  | absolute c => rfl
  | choice c => rfl
  | relative c => exact hk.elim

theorem mem_insert_self : k ∈ (cs.insert k).toList := by
  cases k with
  | absolute c => exact absolute_mem (mem_insertElement_iff.2 (.inl rfl))
  | choice c => exact choice_mem (mem_insertElement_iff.2 (.inl rfl))
  | relative c => exact hk.elim

omit hk in
theorem eq_of_mem_insert (hfree : u.slot ∉ cs.slots) {c : Constraint W}
    (hc : c ∈ (cs.insert k).toList) (hm : c.mentions u.slot = true) : c = k :=
  (mem_insert hc).resolve_right fun hc => hfree (mem_slots hc hm)

theorem mem_slots_insert (hj : j ∈ (cs.insert k).slots) : j = u.slot ∨ j ∈ cs.slots := by
  obtain ⟨c, hc, hm⟩ := exists_of_mem_slots hj
  rcases mem_insert hc with rfl | hc
  · exact .inl (hk.mentions.1 hm)
  · exact .inr (mem_slots hc hm)

end Insert

end ConstraintSet

namespace Search
open Interpretation

variable [Weight W] {cs : ConstraintSet W} {p : Path} {t : OptionTable}

/-! ## The wildcard alone -/

theorem not_has_below_leaf {i : SlotIndex} (u : PathTerm) (f : Feature) :
    ¬ (Facts.leaf ⟨i, []⟩ .null).Has (u.below [f]) := by
  rintro ⟨h, -⟩
  simpa [PathTerm.below] using congrArg PathTerm.path h

theorem emptyAt_leaf {i : SlotIndex} : (Facts.leaf ⟨i, []⟩ .null).EmptyAt u ↔ u = ⟨i, []⟩ := by
  refine ⟨fun h => h.has.1, ?_⟩
  rintro rfl
  exact ⟨⟨rfl, rfl⟩, fun a ha => ha.2 rfl, not_has_below_leaf _⟩

theorem admits_leaf {i : SlotIndex} (u : PathTerm) (ok : Atom → Prop) :
    (Facts.leaf ⟨i, []⟩ .null).Admits u ok :=
  ⟨fun ha => absurd rfl ha.2, not_has_below_leaf u, fun _ ha => ha.2 rfl⟩

/-- What is asked at the root of the wildcard is asked of an empty node. -/
theorem clear_wildcard (hw : cs.Unrelated w) :
    Clear cs [] [(w, .empty)] ↔ ¬ cs.AsksAt ⟨w, []⟩ := by
  obtain ⟨hwf, hfacts⟩ := FeatureStructure.empty_spec
  have hstage : stage cs [] (w, .empty) = Facts.leaf ⟨w, []⟩ .null := by
    rw [stage_nil hw, (hwf.closed_factsAt w).closure_eq, hfacts]
  rw [clear_cons, List.nil_append, slotsOf_singleton, hstage]
  constructor
  · exact fun h hasks => h.1 _ hasks rfl (emptyAt_leaf.2 rfl)
  · refine fun h => ⟨fun u hasks _ he => h ?_, trivial⟩
    rwa [← emptyAt_leaf.1 he]

theorem forced_wildcard_le (hw : cs.Unrelated w) {F : Facts} (hF : F.Closed)
    (hroot : F.Has ⟨w, []⟩) (h : ∀ c ∈ cs.absolutes.toList, c.term.slot = w →
      F.Has c.term ∧ (c.value ≠ .null → F.value c.term c.value)) :
    forced cs [(w, .empty)] ≤ F := by
  have hfacts := FeatureStructure.empty_spec.2 w
  rw [forced, factsOf_cons, factsOf_nil, sup_bot_eq, slotsOf_singleton, ConstraintSet.facts,
    ConstraintSet.sharing_only hw, bot_sup_eq]
  refine Facts.closure_le hF (sup_le ?_ (Facts.all_le.2 (List.forall_mem_map.2 fun c hc => ?_)))
  · exact hfacts.trans_le (Facts.leaf_le.2 ⟨hroot, fun hne => absurd rfl hne⟩)
  · exact Absolute.factsOn_le.2 (h c hc)

section Insert
variable (hk : k.AsksAt ⟨w, p⟩) (hfree : w ∉ cs.slots)
include hk hfree

theorem unrelated_insert : (cs.insert k).Unrelated w := by
  rw [ConstraintSet.Unrelated, ConstraintSet.relatives_insert hk]
  exact unrelated_of_free hfree

theorem asksAt_root_iff : (cs.insert k).AsksAt ⟨w, []⟩ ↔ p = [] := by
  rw [ConstraintSet.asksAt_iff]
  constructor
  · rintro ⟨c, hc, hroot⟩
    obtain rfl := ConstraintSet.eq_of_mem_insert (u := ⟨w, p⟩) hfree hc (hroot.mentions.2 rfl)
    exact congrArg PathTerm.path (hk.unique hroot)
  · rintro rfl
    exact ⟨k, ConstraintSet.mem_insert_self hk, hk⟩

/-- Below its root the wildcard takes any value. -/
theorem compatible_wildcard (hp : p ≠ []) : Compatible (cs.insert k) [(w, .empty)] := by
  have hw := unrelated_insert hk hfree
  have heq : ∀ {c}, c ∈ (cs.insert k).toList → c.mentions w = true → c = k :=
    fun hc hm => ConstraintSet.eq_of_mem_insert (u := ⟨w, p⟩) hfree hc hm
  cases k with
  | absolute c =>
    obtain ⟨_, a⟩ := c
    obtain rfl : _ = (⟨w, p⟩ : PathTerm) := hk
    obtain ⟨hwf, hfacts⟩ := FeatureStructure.single_spec hp a
    have hle := hfacts w ▸ Facts.le_closure (Facts.leaf ⟨w, []⟩ .null ⊔ Facts.leaf ⟨w, p⟩ a)
    refine ⟨(hwf.consistent_factsAt w).mono
      (forced_wildcard_le hw (hwf.closed_factsAt w) (FeatureStructure.has_root _ w) ?_), ?_⟩
    · intro d hd hs
      cases heq (ConstraintSet.absolute_mem hd) (by simpa [Constraint.mentions] using hs)
      exact Facts.leaf_le.1 (le_sup_right.trans hle)
    · intro d hd hs
      rw [slotsOf_singleton] at hs
      cases heq (ConstraintSet.choice_mem hd) (by simpa [Constraint.mentions] using hs)
  | choice c =>
    obtain ⟨hwf, hfacts⟩ := FeatureStructure.empty_spec
    have hle : forced (cs.insert (.choice c)) [(w, .empty)] ≤ Facts.leaf ⟨w, []⟩ .null := by
      refine forced_wildcard_le hw (hfacts w ▸ hwf.closed_factsAt w) ⟨rfl, rfl⟩ fun d hd hs => ?_
      cases heq (ConstraintSet.absolute_mem hd) (by simpa [Constraint.mentions] using hs)
    exact ⟨(hwf.consistent_factsAt w).mono (hle.trans (hfacts w).ge),
      fun _ _ => (admits_leaf _ _).anti hle⟩
  | relative c => exact hk.elim

/-- The wildcard gets through alone unless something is asked for at its root. -/
theorem exists_trace_wildcard_iff {pre post : List (SlotIndex × OptionColumn)}
    (h : Room (cs.insert k) pre post w .wildcard) :
    (∃ own, trace (cs.insert k) [(w, .empty)] = some own) ↔ p ≠ [] := by
  rw [h.trace_one_iff (List.mem_singleton_self _), clear_wildcard h.unrelated,
    asksAt_root_iff hk hfree]
  exact ⟨And.right, fun hp => ⟨compatible_wildcard hk hfree hp, hp⟩⟩

/-! ## The table with the wildcard -/

theorem addWildcards_insert (hcovered : ∀ j ∈ cs.slots, t.contains j = true)
    (hfresh : t.contains w = false) : t.addWildcards (cs.insert k) = t.insert w .wildcard := by
  have hmem : ∀ j, j ∈ t.uncovered (cs.insert k) ↔ j ∈ [w] := by
    intro j
    rw [OptionTable.uncovered, List.mem_filter, List.mem_singleton, Bool.not_eq_true']
    constructor
    · rintro ⟨hj, hnone⟩
      refine (ConstraintSet.mem_slots_insert hk hj).resolve_right fun hj => ?_
      rw [hcovered j hj] at hnone
      cases hnone
    · rintro rfl
      exact ⟨ConstraintSet.mem_slots (ConstraintSet.mem_insert_self hk) (hk.mentions.2 rfl), hfresh⟩
  have huncovered : t.uncovered (cs.insert k) = [w] := by
    refine List.perm_singleton.1 ((List.perm_ext_iff_of_nodup ?_ (List.nodup_singleton w)).2 hmem)
    exact (SortedSet.nodup _).filter _
  rw [OptionTable.addWildcards, huncovered]
  rfl

end Insert

/-- What the constraint asks of the slot makes no difference to a search without it. -/
theorem eval_results_insert (settings : SearchSettings) (hnonempty : t.isEmpty = false)
    (hk : k.AsksAt ⟨w, p⟩) (hcovered : ∀ j ∈ cs.slots, t.contains j = true)
    (hfresh : t.contains w = false) (hc : Candidates t.entries)
    (hA : AcyclicMerges cs t.entries ⊥ fun _ => False) :
    (eval settings t cs).results = (product t.entries).filterMap (trace (cs.insert k)) := by
  have hwithin : (cs.insert k).within t = cs := by
    rw [ConstraintSet.within_insert, ConstraintSet.within_eq_self hcovered]
    refine Bool.eq_false_iff.2 fun h => ?_
    rw [Constraint.coveredBy_iff.1 h w (hk.mentions.2 rfl)] at hfresh
    cases hfresh
  obtain ⟨⟨slot, column⟩, columns, hentries⟩ :=
    List.exists_cons_of_ne_nil (List.isEmpty_eq_false_iff.1 hnonempty)
  have hrun := results_eval_within ⟨false⟩ (cs.insert k) hentries
  rw [hwithin] at hrun
  rw [(eval_agrees settings ⟨false⟩ hc hA).results, hrun, hentries, run_seeds_results]

/-- If a slot without a column is named by one constraint alone, and this asks for a value there, a
wildcard for the slot makes no difference to the others: there are as many results, and each has the
slot besides. But at the root of the slot the wildcard has an empty node, and to ask for a value
there leaves no results. -/
theorem eval_addWildcards (settings : SearchSettings) (hnonempty : t.isEmpty = false)
    (hk : k.AsksAt ⟨w, p⟩) (hcovered : ∀ j ∈ cs.slots, t.contains j = true)
    (hfresh : t.contains w = false)
    (hne : ∀ c ∈ (cs.insert k).absolutes.toList, c.value ≠ .null) (hc : Candidates t.entries)
    (hA : AcyclicMerges cs t.entries ⊥ fun _ => False) :
    (p ≠ [] → List.Forall₂ (Gains w) (eval settings t cs).results
      (eval settings (t.addWildcards (cs.insert k)) (cs.insert k)).results) ∧
    (p = [] → (eval settings (t.addWildcards (cs.insert k)) (cs.insert k)).results = []) := by
  have hfree : w ∉ cs.slots := by
    intro hw
    rw [hcovered w hw] at hfresh
    cases hfresh
  have hcovered' : ∀ j ∈ (cs.insert k).slots, (t.insert w .wildcard).contains j = true := by
    intro j hj
    rw [SortedMap.contains_insert, Bool.or_eq_true, decide_eq_true_eq]
    exact (ConstraintSet.mem_slots_insert hk hj).imp Eq.symm (hcovered j)
  have hA' : AcyclicMerges (cs.insert k) t.entries ⊥ fun _ => False := by
    unfold AcyclicMerges ConstraintSet.sharing
    rwa [ConstraintSet.relatives_insert hk]
  have hcolumn : ∀ s ∈ OptionColumn.wildcard, s.WellFormed ∧ (s.factsAt w).Acyclic := by
    obtain ⟨hwf, hfacts⟩ := FeatureStructure.empty_spec
    exact List.forall_mem_singleton.2 ⟨hwf, hfacts w ▸ (Facts.Graded.leaf _ _).acyclic⟩
  obtain ⟨pre, post, hentries, hinsert, hroom⟩ :=
    exists_room (unrelated_insert hk hfree) hne hc hA' hfresh hcolumn
  have hown := exists_trace_wildcard_iff hk hfree hroom
  rw [addWildcards_insert hk hfree hcovered hfresh,
    eval_results_insert settings hnonempty hk hcovered hfresh hc hA,
    eval_results_of_covered settings hcovered' (hinsert ▸ hroom.candidates_insert)
      (hinsert ▸ hroom.acyclic_insert), hinsert, hentries]
  have hsome : pre ++ post ≠ [] := hentries ▸ List.isEmpty_eq_false_iff.1 hnonempty
  refine ⟨fun hp => ?_, fun hp => List.filterMap_eq_nil_iff.2 fun picks hpicks => ?_⟩
  · have hpairs := hroom.forall₂_pairings hsome (List.forall_mem_singleton.2 (hown.2 hp))
    rw [OptionColumn.wildcard, pairings_one, List.forall₂_map_left_iff] at hpairs
    exact hpairs.imp fun i r h => h.2.gains
  · obtain ⟨ps, _, hps, hrest, rfl⟩ := picks_append.1 (mem_product.1 hpicks)
    obtain ⟨s, hs, qs, hqs, rfl⟩ := picks_cons.1 hrest
    obtain rfl := List.mem_singleton.1 hs
    refine Option.eq_none_iff_forall_ne_some.2 fun r hr => ?_
    exact hown.1 ((hroom.trace_insert_iff hps hqs hs hsome).1 ⟨r, hr⟩).2 hp

/-- A value asked for in a slot before all others. -/
def distant (p : Path) : Constraint Float := .absolute ⟨⟨0, p⟩, ⟨1⟩⟩

theorem eval_addWildcards_distant : ∃ i r, (eval ⟨true⟩ agreementTable agreement).results = [i] ∧
    (eval ⟨true⟩ (agreementTable.addWildcards (agreement.insert (distant [⟨1⟩])))
      (agreement.insert (distant [⟨1⟩]))).results = [r] ∧ Gains 0 i r := by
  have ht := agreementTable_singles
  have hA : AcyclicMerges agreement agreementTable.entries ⊥ fun _ => False :=
    ht.acyclicMerges (fun _ _ => False.elim) agreement_level
  obtain ⟨hbelow, -⟩ := eval_addWildcards (k := distant [⟨1⟩]) (w := 0) (p := [⟨1⟩]) ⟨true⟩
    (by decide : agreementTable.isEmpty = false) rfl (List.all_eq_true.1 (by decide)) (by decide)
    (by decide) ht.candidates hA
  have hresults := hbelow (by decide)
  obtain ⟨i, hi⟩ := List.length_eq_one_iff.1
    (by decide : (eval ⟨true⟩ agreementTable agreement).results.length = 1)
  rw [hi] at hresults
  obtain ⟨r, rest, hgains, hrest, hr⟩ := List.forall₂_cons_left_iff.1 hresults
  rw [List.forall₂_nil_left_iff.1 hrest] at hr
  exact ⟨i, r, hi, hr, hgains⟩

/-- Asked for at the root of the slot, the value rules everything out. -/
theorem eval_addWildcards_root : agreementTable.isEmpty = false ∧
    (∀ j ∈ agreement.slots, agreementTable.contains j = true) ∧
    agreementTable.contains 0 = false ∧ (distant []).AsksAt ⟨0, []⟩ ∧
    (∀ c ∈ (agreement.insert (distant [])).absolutes.toList, c.value ≠ .null) ∧
    Candidates (agreementTable.addWildcards (agreement.insert (distant []))).entries ∧
    (AcyclicMerges (agreement.insert (distant []))
      (agreementTable.addWildcards (agreement.insert (distant []))).entries ⊥ fun _ => False) ∧
    (eval ⟨true⟩ agreementTable agreement).results.length = 1 ∧
    (eval ⟨true⟩ (agreementTable.addWildcards (agreement.insert (distant [])))
      (agreement.insert (distant []))).results = [] := by
  have ht := agreementTable_singles
  obtain ⟨hwf, hfacts⟩ := FeatureStructure.empty_spec
  have hentries : (agreementTable.addWildcards (agreement.insert (distant []))).entries =
      (0, .wildcard) :: agreementTable.entries := rfl
  refine ⟨by decide, List.all_eq_true.1 (by decide), by decide, rfl, by decide, ?_, ?_, by decide,
    List.isEmpty_iff.1 (by decide)⟩
  · rw [hentries]
    exact List.forall_mem_cons.2 ⟨List.forall_mem_singleton.2 hwf, ht.candidates⟩
  · rw [hentries]
    refine .of_graded (fun _ _ => False.elim) (List.forall_mem_cons.2 ⟨?_, ?_⟩) agreement_level
    · exact List.forall_mem_singleton.2 fun i => hfacts i ▸ Facts.Graded.leaf _ _
    · intro column hcolumn s hs i
      obtain ⟨p, a, hp, rfl⟩ := ht column hcolumn s hs
      exact FeatureStructure.single_graded hp a i

end Search

end FeatureLogic
