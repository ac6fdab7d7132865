import FeatureLogic.Proofs.Search.OneShot
import FeatureLogic.Proofs.Separation
/-!
A slot that no relative constraint speaks of. Its candidates and those of the other slots force
nothing together, so the search does with each of the two what it would do without the other.
-/
set_option autoImplicit false

namespace FeatureLogic

theorem FeatureStructure.factsAt_le_about (s : FeatureStructure) (i : SlotIndex) :
    s.factsAt i ≤ Facts.about (· = i) := by
  refine ⟨?_, ?_⟩
  · rintro t u ⟨n, ⟨r, hr, -⟩, ⟨r', hr', -⟩⟩
    exact ⟨(startAt_eq_some.1 hr).1, (startAt_eq_some.1 hr').1⟩
  · rintro t a ⟨n, ⟨r, hr, -⟩, -⟩
    exact (startAt_eq_some.1 hr).1

theorem Facts.all_map_sup {α : Type} (f g : α → Facts) (as : List α) :
    Facts.all (as.map fun a => f a ⊔ g a) = Facts.all (as.map f) ⊔ Facts.all (as.map g) := by
  induction as with
  | nil => simp
  | cons a as ih => simp only [List.map_cons, Facts.all_cons, ih, sup_sup_sup_comm]

namespace ConstraintSet
variable {W : Type} [Weight W] {cs : ConstraintSet W} {assigned : SlotIndex → Prop}
  {u : SlotIndex}

/-- No relative constraint speaks of the slot. -/
def Unrelated (cs : ConstraintSet W) (u : SlotIndex) : Prop :=
  ∀ c ∈ cs.relatives.toList, c.lhs.slot ≠ u ∧ c.rhs.slot ≠ u

theorem facts_le_about : cs.facts assigned ≤ Facts.about assigned := by
  refine sup_le (Facts.all_le.2 (List.forall_mem_map.2 fun c _ => ?_))
    (Facts.all_le.2 (List.forall_mem_map.2 fun c _ => ?_))
  · exact Relative.factsOn_le.2 fun hl hr => ⟨hl, hr⟩
  · exact Absolute.factsOn_le.2 fun hs => ⟨⟨hs, hs⟩, fun _ => hs⟩

theorem sharing_insert (hu : cs.Unrelated u) :
    (cs.sharing fun j => j = u ∨ assigned j) = cs.sharing assigned := by
  refine le_antisymm (Facts.all_le.2 (List.forall_mem_map.2 fun c hc => ?_))
    (sharing_mono fun j => .inr)
  obtain ⟨hl, hr⟩ := hu c hc
  refine le_trans (Relative.factsOn_le.2 fun h h' => ?_)
    (Facts.all_le.1 le_rfl _ (List.mem_map_of_mem hc))
  exact ⟨⟨rfl, rfl⟩, h.resolve_left hl, h'.resolve_left hr⟩

theorem sharing_only (hu : cs.Unrelated u) : cs.sharing (· = u) = ⊥ := by
  refine le_bot_iff.1 (Facts.all_le.2 (List.forall_mem_map.2 fun c hc => ?_))
  exact Relative.factsOn_le.2 fun hl => absurd hl (hu c hc).1

theorem placing_insert : (cs.placing fun j => j = u ∨ assigned j) =
    cs.placing assigned ⊔ cs.placing (· = u) := by
  rw [placing, placing, placing, ← Facts.all_map_sup]
  refine congrArg Facts.all (List.map_congr_left fun c _ => le_antisymm ?_ (sup_le ?_ ?_))
  · refine Absolute.factsOn_le.2 fun hs => ?_
    rcases hs with hs | hs
    · exact ⟨.inr ⟨⟨rfl, rfl⟩, hs⟩, fun hne => .inr ⟨⟨rfl, rfl⟩, hne, hs⟩⟩
    · exact ⟨.inl ⟨⟨rfl, rfl⟩, hs⟩, fun hne => .inl ⟨⟨rfl, rfl⟩, hne, hs⟩⟩
  · exact Absolute.factsOn_mono (fun _ => .inr) c
  · exact Absolute.factsOn_mono (fun _ => .inl) c

theorem facts_insert (hu : cs.Unrelated u) : (cs.facts fun j => j = u ∨ assigned j) =
    cs.facts assigned ⊔ cs.facts (· = u) := by
  rw [facts, facts, facts, sharing_insert hu, sharing_only hu, placing_insert, bot_sup_eq,
    sup_assoc]

/-- What is asked for in some slots is not asked of an empty node. -/
def AsksNoEmpty (cs : ConstraintSet W) (assigned : SlotIndex → Prop) (F : Facts) : Prop :=
  ∀ t, cs.AsksAt t → assigned t.slot → ¬ F.EmptyAt t

theorem asksNoEmpty_insert {F G : Facts} (hF : F ≤ Facts.about assigned)
    (hG : G ≤ Facts.about (· = u)) (hfresh : ¬ assigned u) :
    (cs.AsksNoEmpty (fun j => j = u ∨ assigned j) (F ⊔ G)) ↔
      cs.AsksNoEmpty assigned F ∧ cs.AsksNoEmpty (· = u) G := by
  constructor
  · intro h
    refine ⟨fun t ht hs he => h t ht (.inr hs) ?_, fun t ht hs he => h t ht (.inl hs) ?_⟩
    · exact (Facts.emptyAt_sup_iff hG fun hu => hfresh (hu ▸ hs)).2 he
    · rw [sup_comm]
      exact (Facts.emptyAt_sup_iff hF fun hu => hfresh (hs ▸ hu)).2 he
  · rintro ⟨h, h'⟩ t ht (hs | hs) he
    · rw [sup_comm] at he
      exact h' t ht hs ((Facts.emptyAt_sup_iff hF fun hu => hfresh (hs ▸ hu)).1 he)
    · exact h t ht hs ((Facts.emptyAt_sup_iff hG fun hu => hfresh (hu ▸ hs)).1 he)

end ConstraintSet

namespace Search
open Interpretation

variable {W : Type} [Weight W] {cs : ConstraintSet W} {u : SlotIndex} {s : FeatureStructure}
  {picks done ps qs : List Pick} {pick : Pick} {t : PathTerm}

/-! ## What is forced -/

theorem slotsOf_singleton : slotsOf [(u, s)] = (· = u) := by
  funext j
  simp [slotsOf]

theorem slotsOf_append {j : SlotIndex} :
    slotsOf (ps ++ qs) j ↔ slotsOf ps j ∨ slotsOf qs j := by
  simp [slotsOf]

theorem slotsOf_insert : slotsOf (ps ++ (u, s) :: qs) = fun j => j = u ∨ slotsOf (ps ++ qs) j := by
  funext j
  simp only [slotsOf, List.map_append, List.map_cons, List.mem_append, List.mem_cons, eq_iff_iff]
  exact or_left_comm

theorem slotsOf_insert_concat : slotsOf (ps ++ (u, s) :: qs ++ [pick]) =
    fun j => j = u ∨ slotsOf (ps ++ qs ++ [pick]) j := by
  rw [List.append_assoc, List.cons_append, slotsOf_insert, ← List.append_assoc]

theorem factsOf_insert : factsOf (ps ++ (u, s) :: qs) = factsOf (ps ++ qs) ⊔ s.factsAt u := by
  rw [factsOf_append, factsOf_cons, factsOf_append, sup_left_comm, sup_comm]
  rfl

theorem factsOf_le_about (picks : List Pick) : factsOf picks ≤ Facts.about (slotsOf picks) := by
  refine Facts.all_le.2 (List.forall_mem_map.2 fun pick hpick => ?_)
  refine (pick.2.factsAt_le_about pick.1).trans (Facts.about_mono ?_)
  rintro _ rfl
  exact List.mem_map_of_mem hpick

theorem has_root_factsOf {j : SlotIndex} (hj : slotsOf picks j) : (factsOf picks).Has ⟨j, []⟩ := by
  obtain ⟨pick, hpick, rfl⟩ := List.mem_map.1 hj
  exact ⟨_, List.mem_map_of_mem hpick, pick.2.has_root pick.1⟩

theorem hangsOn_of_factsOf_le (cs : ConstraintSet W) {G : Facts} (h : factsOf picks ≤ G) :
    (cs.placing (slotsOf picks)).HangsOn G :=
  .all (fun _ hj => h.1 _ _ (has_root_factsOf hj)) cs.absolutes.toList

theorem acyclic_forced (h : (shared cs picks).Acyclic) : (forced cs picks).Acyclic := by
  have hle : factsOf picks ≤ shared cs picks := le_sup_left.trans (Facts.le_closure _)
  have hforced : forced cs picks = (shared cs picks ⊔ cs.placing (slotsOf picks)).closure := by
    rw [shared, Facts.closure_sup_closure, sup_assoc]
    rfl
  rw [hforced]
  exact (hangsOn_of_factsOf_le cs hle).acyclic (Facts.closed_closure _) h

theorem forced_le_about (cs : ConstraintSet W) (picks : List Pick) :
    forced cs picks ≤ Facts.about (slotsOf picks) :=
  Facts.closure_le_about (sup_le (factsOf_le_about picks) ConstraintSet.facts_le_about)

theorem closed_forced (cs : ConstraintSet W) (picks : List Pick) : (forced cs picks).Closed :=
  Facts.closed_closure _

theorem clear_append : Clear cs done (ps ++ qs) ↔ Clear cs done ps ∧ Clear cs (done ++ ps) qs := by
  induction ps generalizing done with
  | nil => simp [Clear]
  | cons pick ps ih =>
    simp only [List.cons_append, Clear, ih, List.append_assoc, and_assoc, List.nil_append]

theorem forced_one_le_about (cs : ConstraintSet W) (u : SlotIndex) (s : FeatureStructure) :
    forced cs [(u, s)] ≤ Facts.about (· = u) :=
  slotsOf_singleton ▸ forced_le_about cs [(u, s)]

theorem stage_eq (cs : ConstraintSet W) (done : List Pick) (pick : Pick) : stage cs done pick =
    (forced cs done ⊔ (pick.facts ⊔ cs.sharing (slotsOf (done ++ [pick])))).closure := by
  rw [stage, Facts.closure_sup_closure, sup_assoc]

theorem stage_le_about (cs : ConstraintSet W) (done : List Pick) (pick : Pick) :
    stage cs done pick ≤ Facts.about (slotsOf (done ++ [pick])) := by
  rw [stage_eq]
  refine Facts.closure_le_about (sup_le ((forced_mono cs _ _).trans (forced_le_about cs _))
    (sup_le (le_trans ?_ (factsOf_le_about (done ++ [pick])))
      (le_sup_left.trans ConstraintSet.facts_le_about)))
  rw [factsOf_append, factsOf_cons]
  exact le_sup_left.trans le_sup_right

theorem apart_of_fresh (hfresh : ¬ slotsOf picks u) : ∀ j, slotsOf picks j → ¬ j = u := by
  rintro j hj rfl
  exact hfresh hj

section Unrelated
variable (hu : cs.Unrelated u)
include hu

theorem forced_insert (hfresh : ¬ slotsOf (ps ++ qs) u) :
    forced cs (ps ++ (u, s) :: qs) = forced cs (ps ++ qs) ⊔ forced cs [(u, s)] := by
  have hbase : factsOf (ps ++ qs) ⊔ cs.facts (slotsOf (ps ++ qs)) ≤
      Facts.about (slotsOf (ps ++ qs)) :=
    sup_le (factsOf_le_about _) ConstraintSet.facts_le_about
  have hown : factsOf [(u, s)] ⊔ cs.facts (slotsOf [(u, s)]) ≤ Facts.about (· = u) := by
    rw [← slotsOf_singleton]
    exact sup_le (factsOf_le_about _) ConstraintSet.facts_le_about
  rw [forced, forced, forced,
    ← Facts.closure_sup_of_apart hbase hown (apart_of_fresh hfresh), factsOf_insert,
    slotsOf_insert, ConstraintSet.facts_insert hu, slotsOf_singleton, factsOf_cons, factsOf_nil,
    sup_bot_eq, sup_sup_sup_comm]
  rfl

theorem shared_insert (hfresh : ¬ slotsOf (ps ++ qs) u) :
    shared cs (ps ++ (u, s) :: qs) = shared cs (ps ++ qs) ⊔ (s.factsAt u).closure := by
  have hbase : factsOf (ps ++ qs) ⊔ cs.sharing (slotsOf (ps ++ qs)) ≤
      Facts.about (slotsOf (ps ++ qs)) :=
    sup_le (factsOf_le_about _) (le_sup_left.trans ConstraintSet.facts_le_about)
  rw [shared, shared, ← Facts.closure_sup_of_apart hbase (s.factsAt_le_about u)
    (apart_of_fresh hfresh), factsOf_insert, slotsOf_insert, ConstraintSet.sharing_insert hu,
    sup_right_comm]

theorem stage_nil : stage cs [] (u, s) = (s.factsAt u).closure := by
  rw [stage_eq, forced_nil, List.nil_append, slotsOf_singleton, ConstraintSet.sharing_only hu,
    sup_bot_eq, bot_sup_eq]
  rfl

/-- The search comes to the slot. -/
theorem stage_at (hfresh : ¬ slotsOf done u) :
    stage cs done (u, s) = forced cs done ⊔ stage cs [] (u, s) := by
  have hslots : slotsOf (done ++ [(u, s)]) = fun j => j = u ∨ slotsOf done j := by
    rw [slotsOf_insert, List.append_nil]
  have hsharing : cs.sharing (slotsOf done) ≤ forced cs done :=
    le_sup_left.trans (le_sup_right.trans (Facts.le_closure _))
  have happart := Facts.closure_sup_of_apart (forced_le_about cs done) (s.factsAt_le_about u)
    (apart_of_fresh hfresh)
  rw [stage_nil hu, stage_eq, hslots, ConstraintSet.sharing_insert hu, sup_left_comm,
    sup_eq_left.2 hsharing, sup_comm]
  exact happart.trans (by rw [(closed_forced cs done).closure_eq])

/-- The search comes to another slot. -/
theorem stage_insert (hfresh : ¬ slotsOf (ps ++ qs ++ [pick]) u) :
    stage cs (ps ++ (u, s) :: qs) pick = stage cs (ps ++ qs) pick ⊔ forced cs [(u, s)] := by
  have hfresh' : ¬ slotsOf (ps ++ qs) u := fun h => hfresh (slotsOf_concat.2 (.inr h))
  have hbase := (Facts.le_closure _).trans (stage_eq cs (ps ++ qs) pick ▸ stage_le_about cs _ pick)
  have happart := Facts.closure_sup_of_apart hbase (forced_one_le_about cs u s)
    (apart_of_fresh hfresh)
  rw [(closed_forced cs [(u, s)]).closure_eq] at happart
  rw [stage_eq, stage_eq, slotsOf_insert_concat, ConstraintSet.sharing_insert hu,
    forced_insert hu hfresh', sup_right_comm, happart]

/-! ## What the search asks -/

omit hu in
/-- Nothing is empty in the end where a value was asked for and found. -/
theorem not_emptyAt_forced (hne : ∀ c ∈ cs.absolutes.toList, c.value ≠ .null)
    (hclear : Clear cs [] picks) (ht : cs.AsksAt t) (hs : slotsOf picks t.slot) :
    ¬ (forced cs picks).EmptyAt t := by
  obtain rfl | ⟨done, pick, rfl⟩ := picks.eq_nil_or_concat'
  · cases hs
  have hlast := (clear_append.1 hclear).2
  rw [List.nil_append] at hlast
  have hle : factsOf (done ++ [pick]) ≤ stage cs done pick := by
    rw [stage_eq, factsOf_append, factsOf_cons, factsOf_nil, sup_bot_eq]
    refine (sup_le_sup ?_ le_sup_left).trans (Facts.le_closure _)
    exact le_sup_left.trans (Facts.le_closure _)
  intro hempty
  rw [← stage_sup_placing] at hempty
  exact hlast.1 t ht hs ((hangsOn_of_factsOf_le cs hle).emptyAt (Facts.closed_closure _)
    (exists_value_of_placing hne) hempty)

theorem compatible_insert (hfresh : ¬ slotsOf (ps ++ qs) u) :
    Compatible cs (ps ++ (u, s) :: qs) ↔ Compatible cs (ps ++ qs) ∧ Compatible cs [(u, s)] := by
  have hforced := forced_insert (s := s) hu hfresh
  have hbase := forced_le_about cs (ps ++ qs)
  have hown := forced_one_le_about cs u s
  have hcons := Facts.consistent_sup_iff hbase hown (apart_of_fresh hfresh)
  rw [← hforced] at hcons
  constructor
  · intro h
    obtain ⟨hbase', hown'⟩ := hcons.1 h.consistent
    refine ⟨⟨hbase', fun hc hs => ?_⟩, ⟨hown', fun hc hs => ?_⟩⟩
    · refine (h.admits hc ?_).anti (hforced ▸ le_sup_left)
      rw [slotsOf_insert]
      exact .inr hs
    · refine (h.admits hc ?_).anti (hforced ▸ le_sup_right)
      rw [slotsOf_insert]
      rw [slotsOf_singleton] at hs
      exact .inl hs
  · rintro ⟨h, h'⟩
    refine ⟨hcons.2 ⟨h.consistent, h'.consistent⟩, fun {c} hc hs => ?_⟩
    rw [slotsOf_insert] at hs
    rw [hforced]
    rcases hs with hs | hs
    · rw [sup_comm]
      refine (Facts.admits_sup_iff hbase fun h => hfresh (hs ▸ h)).2 (h'.admits hc ?_)
      rwa [slotsOf_singleton]
    · exact (Facts.admits_sup_iff hown fun h => hfresh (h ▸ hs)).2 (h.admits hc hs)

omit hu in
theorem clear_cons : Clear cs done (pick :: picks) ↔
    cs.AsksNoEmpty (slotsOf (done ++ [pick])) (stage cs done pick) ∧
      Clear cs (done ++ [pick]) picks := Iff.rfl

theorem clear_after (done done' : List Pick) (hfresh : ¬ slotsOf (done ++ done' ++ qs) u)
    (hown : cs.AsksNoEmpty (· = u) (forced cs [(u, s)])) :
    Clear cs (done ++ (u, s) :: done') qs ↔ Clear cs (done ++ done') qs := by
  induction qs generalizing done' with
  | nil => exact Iff.rfl
  | cons pick qs ih =>
    have hfresh' : ¬ slotsOf (done ++ done' ++ [pick]) u := by
      rw [List.append_cons] at hfresh
      exact fun h => hfresh (slotsOf_append.2 (.inl h))
    have hrest : Clear cs (done ++ (u, s) :: done' ++ [pick]) qs ↔
        Clear cs (done ++ done' ++ [pick]) qs := by
      simpa using ih (done' ++ [pick]) (by simpa using hfresh)
    rw [clear_cons, clear_cons, hrest, stage_insert hu hfresh', slotsOf_insert_concat,
      ConstraintSet.asksNoEmpty_insert (stage_le_about cs _ pick) (forced_one_le_about cs u s)
        hfresh', and_iff_left hown]

theorem clear_insert (hne : ∀ c ∈ cs.absolutes.toList, c.value ≠ .null)
    (hfresh : ¬ slotsOf (ps ++ qs) u) :
    Clear cs [] (ps ++ (u, s) :: qs) ↔ Clear cs [] (ps ++ qs) ∧ Clear cs [] [(u, s)] := by
  have hfresh' : ¬ slotsOf ps u := fun h => hfresh (slotsOf_append.2 (.inl h))
  have hown : Clear cs [] [(u, s)] ↔ cs.AsksNoEmpty (· = u) (stage cs [] (u, s)) := by
    rw [clear_cons, List.nil_append, slotsOf_singleton]
    exact and_iff_left trivial
  have hat : cs.AsksNoEmpty (slotsOf (ps ++ [(u, s)])) (stage cs ps (u, s)) ↔
      cs.AsksNoEmpty (slotsOf ps) (forced cs ps) ∧ Clear cs [] [(u, s)] := by
    have hstage : stage cs [] (u, s) ≤ Facts.about (· = u) :=
      slotsOf_singleton (s := s) ▸ stage_le_about cs [] (u, s)
    rw [stage_at hu hfresh', slotsOf_insert, List.append_nil, hown,
      ConstraintSet.asksNoEmpty_insert (forced_le_about cs ps) hstage hfresh']
  have hbefore : Clear cs [] ps → cs.AsksNoEmpty (slotsOf ps) (forced cs ps) :=
    fun h _ ht => not_emptyAt_forced hne h ht
  have hafter : Clear cs [] [(u, s)] → (Clear cs (ps ++ [(u, s)]) qs ↔ Clear cs ps qs) := by
    intro h
    have hfresh'' : ¬ slotsOf (ps ++ [] ++ qs) u := by rwa [List.append_nil]
    have hafter := clear_after hu ps [] hfresh''
      fun _ ht hs => not_emptyAt_forced hne h ht (slotsOf_singleton ▸ hs)
    rwa [List.append_nil] at hafter
  rw [clear_append, clear_append, List.nil_append, clear_cons, hat]
  constructor
  · rintro ⟨hps, ⟨-, hs⟩, hqs⟩
    exact ⟨⟨hps, (hafter hs).1 hqs⟩, hs⟩
  · rintro ⟨⟨hps, hqs⟩, hs⟩
    exact ⟨hps, ⟨hbefore hps, hs⟩, (hafter hs).2 hqs⟩

end Unrelated

end Search

end FeatureLogic
