import FeatureLogic.Proofs.Interpretation.Locality
import FeatureLogic.Proofs.Search.Neutrality
import FeatureLogic.Proofs.Search.Soundness
/-!
What evaluation decides, said without the order of its checks. First comes the least interpretation
in which paths that are to be one are one, then the least one over it that has the atoms that are
asked for; the choices are read off this last one.
-/
set_option autoImplicit false

namespace FeatureLogic.Interpretation

variable {W : Type} [Weight W] {i j r r' : Interpretation W} {cs cs' : ConstraintSet W}

/-- `j` interprets the slots of `i`, and has all that is in them. -/
structure Refines (i j : Interpretation W) : Prop where
  wellFormed : j.WellFormed
  assigned : j.Assigned = i.Assigned
  subsumed : i.Subsumed j

/-- One of the interpretations for which `P` holds, and it subsumes them all. -/
structure Least (P : Interpretation W → Prop) (r : Interpretation W) : Prop where
  holds : P r
  subsumed (j : Interpretation W) : P j → r.Subsumed j

/-- `j` refines `i` so that all paths that are to be one in slots of `i` are one. -/
structure Shares (cs : ConstraintSet W) (i j : Interpretation W) : Prop where
  refines : i.Refines j
  relative {c : Relative} : c ∈ cs.relatives.toList → i.Assigned c.lhs.slot →
    i.Assigned c.rhs.slot → j.Satisfies (.relative c)

/-- `j` refines `i` so that all atoms that are asked for in slots of `i` are there. -/
structure Places (cs : ConstraintSet W) (i j : Interpretation W) : Prop where
  refines : i.Refines j
  absolute {c : Absolute} : c ∈ cs.absolutes.toList → i.Assigned c.term.slot →
    j.Satisfies (.absolute c)

/-- The path of the term is absent, and no atom is on the way to it. -/
def Lacks (i : Interpretation W) (t : PathTerm) : Prop :=
  ∃ root, i.slots.get? t.slot = some root ∧ i.arena.lookup root t.path = .missing

/-! ## Least interpretations -/

omit [Weight W] in
theorem Least.facts_eq {P : Interpretation W → Prop} (hr : Least P r) (hr' : Least P r') :
    r.facts = r'.facts :=
  le_antisymm (hr.subsumed r' hr'.holds) (hr'.subsumed r hr.holds)

theorem Shares.closure_le (h : Shares cs i j) :
    (i.facts ⊔ cs.sharing i.Assigned).closure ≤ j.facts := by
  refine Facts.closure_le h.refines.wellFormed.closed_facts (sup_le h.refines.subsumed ?_)
  refine Facts.all_le.2 (List.forall_mem_map.2 fun c hc => Relative.factsOn_le.2 fun hl hr => ?_)
  exact satisfies_relative.1 (h.relative hc hl hr)

theorem Places.closure_le (h : Places cs i j) :
    (i.facts ⊔ cs.placing i.Assigned).closure ≤ j.facts := by
  refine Facts.closure_le h.refines.wellFormed.closed_facts (sup_le h.refines.subsumed ?_)
  refine Facts.all_le.2 (List.forall_mem_map.2 fun c hc => Absolute.factsOn_le.2 fun hs => ?_)
  have hvalue := satisfies_absolute.1 (h.absolute hc hs)
  exact ⟨h.refines.wellFormed.closed_facts.has_of_value hvalue, fun _ => hvalue⟩

theorem least_shares (hr : r.WellFormed) (ha : r.Assigned = i.Assigned)
    (hf : r.facts = (i.facts ⊔ cs.sharing i.Assigned).closure) : Least (Shares cs i) r := by
  have hle : i.facts ⊔ cs.sharing i.Assigned ≤ r.facts := hf ▸ Facts.le_closure _
  refine ⟨⟨⟨hr, ha, le_sup_left.trans hle⟩, fun {c} hc hl hr => ?_⟩, fun j hj => ?_⟩
  · have hsharing := Facts.all_le.1 (le_sup_right.trans hle) _ (List.mem_map_of_mem hc)
    exact satisfies_relative.2 (Relative.factsOn_le.1 hsharing hl hr)
  · exact hf.le.trans hj.closure_le

theorem least_places (hne : ∀ c ∈ cs.absolutes.toList, c.value ≠ .null) (hr : r.WellFormed)
    (ha : r.Assigned = i.Assigned) (hf : r.facts = (i.facts ⊔ cs.placing i.Assigned).closure) :
    Least (Places cs i) r := by
  have hle : i.facts ⊔ cs.placing i.Assigned ≤ r.facts := hf ▸ Facts.le_closure _
  refine ⟨⟨⟨hr, ha, le_sup_left.trans hle⟩, fun {c} hc hs => ?_⟩, fun j hj => ?_⟩
  · have hplacing := Facts.all_le.1 (le_sup_right.trans hle) _ (List.mem_map_of_mem hc)
    exact satisfies_absolute.2 ((Absolute.factsOn_le.1 hplacing hs).2 (hne c hc))
  · exact hf.le.trans hj.closure_le

/-! ## What is at a term -/

omit [Weight W] in
/-- A term that takes an atom, and is not empty, has such an atom or nothing. -/
theorem WellFormed.admits_iff {t : PathTerm} {ok : Atom → Prop} (hi : i.WellFormed)
    (hs : i.Assigned t.slot) : i.facts.Admits t ok ∧ ¬ i.facts.EmptyAt t ↔
      i.Lacks t ∨ ∃ n a, i.Leads t n ∧ i.arena.content n = .atom a ∧ ok a := by
  obtain ⟨root, hr⟩ := hs
  have hg := hi.arena
  constructor
  · rintro ⟨hadm, hempty⟩
    cases hl : i.arena.lookup root t.path with
    | missing => exact .inl ⟨root, hr, hl⟩
    | blocked => exact absurd hadm (Arena.not_admits_of_blocked hg.settled hr hl)
    | found n =>
      have hn : i.arena.Leads i.slots.get? t n := (Arena.leads_iff hr).2 hl
      rcases (hn.admits_iff hg).1 hadm with hcon | ⟨a, ha, hok⟩
      · exact absurd ((hn.emptyAt_iff hg).2 hcon) hempty
      · exact .inr ⟨n, a, hn, ha, hok⟩
  · rintro (⟨root', hr', hl⟩ | ⟨n, a, hn, ha, hok⟩)
    · exact ⟨Arena.admits_of_missing hg.settled hr' hl,
        fun he => Arena.not_has_of_missing hr' hl he.has⟩
    · refine ⟨(Arena.Leads.admits_iff hg hn).2 (.inr ⟨a, ha, hok⟩), fun he => ?_⟩
      rw [facts, Arena.Leads.emptyAt_iff hg hn, ha] at he
      cases he

omit [Weight W] in
theorem WellFormed.admits_value_iff {c : Absolute} (hi : i.WellFormed)
    (hs : i.Assigned c.term.slot) :
    i.facts.Admits c.term (· = c.value) ∧ ¬ i.facts.EmptyAt c.term ↔
      i.Satisfies (.absolute c) ∨ i.Lacks c.term := by
  rw [hi.admits_iff hs, or_comm]
  exact or_congr_left ⟨fun ⟨n, a, hn, ha, he⟩ => ⟨n, hn, he ▸ ha⟩,
    fun ⟨n, hn, ha⟩ => ⟨n, c.value, hn, ha, rfl⟩⟩

omit [Weight W] in
theorem WellFormed.meets_iff {c : Choice W} (hi : i.WellFormed) (hs : i.Assigned c.term.slot) :
    Meets i.facts c ↔ i.Satisfies (.choice c) :=
  hi.admits_iff hs

/-! ## Evaluation -/

/-- Each slot that the constraint speaks of is assigned. -/
def applies (i : Interpretation W) (c : Constraint W) : Bool := c.slots.all i.slots.contains

omit [Weight W] in
theorem exists_of_not_applies (i : Interpretation W) {c : Constraint W} (h : i.applies c = false) :
    ∃ s, c.mentions s = true ∧ ¬ i.Assigned s := by
  obtain ⟨s, hs, hc⟩ := List.all_eq_false.1 h
  exact ⟨s, Constraint.mem_slots.1 hs, fun ha => hc (contains_iff.2 ha)⟩

theorem eval_congr_applies (h : cs.toList.filter i.applies = cs'.toList.filter i.applies) :
    i.eval cs = i.eval cs' := by
  have hfilter : ∀ cs : ConstraintSet W,
      checkAll (cs.toList.filter i.applies) i.restart = checkAll cs.toList i.restart :=
    fun cs => checkAll_filter (i := i.restart) (fun _ hc => i.exists_of_not_applies hc) cs.toList
  rw [eval_eq, eval_eq, ← hfilter cs, h, hfilter cs']

section Deciding
variable (hi : i.WellFormed) (hA : (i.facts ⊔ cs.sharing i.Assigned).closure.Acyclic)
include hi hA

/-- What relative constraints force, as an interpretation. -/
theorem exists_least_shares (hcons : (i.facts ⊔ cs.sharing i.Assigned).closure.Consistent) :
    ∃ k : Interpretation W, k.WellFormed ∧ k.Assigned = i.Assigned ∧
      k.facts = (i.facts ⊔ cs.sharing i.Assigned).closure ∧ Least (Shares cs i) k := by
  have hle := Facts.le_closure (i.facts ⊔ cs.sharing i.Assigned)
  have hi' : i.restart.WellFormed := ⟨hi.arena, hi.root_lt⟩
  obtain ⟨k, hk⟩ := exists_eq_true ((checkRelatives_spec (Facts.closed_closure _) hA
    cs.relatives.toList hi' (le_sup_left.trans hle) (le_sup_right.trans hle)).2 hcons)
  obtain ⟨hkwf, hkslots, -, hkfacts⟩ := after_relatives hi hA hk
  have ha := assigned_congr hkslots
  exact ⟨k, hkwf, ha, hkfacts, least_shares hkwf ha hkfacts⟩

theorem Least.facts_shares (hr : Least (Shares cs i) r) :
    r.facts = (i.facts ⊔ cs.sharing i.Assigned).closure := by
  have hcons := hr.holds.refines.wellFormed.consistent_facts.mono hr.holds.closure_le
  obtain ⟨k, -, -, hkfacts, hk⟩ := exists_least_shares hi hA hcons
  rw [hr.facts_eq hk, hkfacts]

/-- What the values force on top of it. -/
theorem Least.sup_placing (hr : Least (Shares cs i) r) :
    (r.facts ⊔ cs.placing r.Assigned).closure = (i.facts ⊔ cs.facts i.Assigned).closure := by
  rw [hr.holds.refines.assigned, hr.facts_shares hi hA, Facts.closure_sup_closure, sup_assoc,
    ConstraintSet.facts]

/-- What a passing evaluation leaves in the slots is least. -/
theorem eval_least_places (hne : ∀ c ∈ cs.absolutes.toList, c.value ≠ .null)
    (hr : Least (Shares cs i) r) (hrun : i.eval cs = (true, j)) : Least (Places cs r) j := by
  have hev := eval_sound hi hA hrun
  have ha := (assigned_congr hev.slots).trans hr.holds.refines.assigned.symm
  exact least_places hne hev.wellFormed ha (hev.facts.trans (hr.sup_placing hi hA).symm)

/-- Values that stand in `r`, or fit where it has nothing, can all be placed unless they clash. -/
theorem Least.facts_places (hfailed : i.isFailed = false)
    (hne : ∀ c ∈ cs.absolutes.toList, c.value ≠ .null) (hr : Least (Shares cs i) r)
    (hempty : ∀ c ∈ cs.absolutes.toList, i.Assigned c.term.slot →
      ¬ (i.facts ⊔ cs.sharing i.Assigned).closure.EmptyAt c.term)
    (hr' : Least (Places cs r) r') : r'.facts = (i.facts ⊔ cs.facts i.Assigned).closure := by
  have hcons := hr'.holds.refines.wellFormed.consistent_facts.mono hr'.holds.closure_le
  rw [hr.sup_placing hi hA] at hcons
  -- without its choices the set passes, and leaves what is least
  let valued : ConstraintSet W := { cs with choices := .empty }
  have hiff : (i.eval valued).1 = true ↔ _ := eval_iff hi hfailed hA hne
  obtain ⟨j, hj⟩ := exists_eq_true
    (hiff.2 ⟨hcons, hempty, fun _ hc => absurd hc List.not_mem_nil⟩)
  have hev : Evaluates valued i j := eval_sound hi hA hj
  have ha := (assigned_congr hev.slots).trans hr.holds.refines.assigned.symm
  have hleast := least_places hne hev.wellFormed ha (hev.facts.trans (hr.sup_placing hi hA).symm)
  rw [hr'.facts_eq hleast, hev.facts]
  rfl

end Deciding

/-- Evaluation passes exactly if the slots have a least common refinement that shares what is to be
shared, the atoms asked for stand in it or fit where it has nothing, and the least refinement that
has them all satisfies the choices. It then leaves this refinement in the slots. Constraints on
slots that are not assigned do nothing. -/
theorem eval_decides (hi : i.WellFormed) (hfailed : i.isFailed = false)
    (hA : (i.facts ⊔ cs.sharing i.Assigned).closure.Acyclic)
    (hne : ∀ c ∈ cs.absolutes.toList, c.value ≠ .null) :
    ((i.eval cs).1 = true ↔ ∃ r r', Least (Shares cs i) r ∧
      (∀ c ∈ cs.absolutes.toList, i.Assigned c.term.slot →
        r.Satisfies (.absolute c) ∨ r.Lacks c.term) ∧
      Least (Places cs r) r' ∧
      ∀ c ∈ cs.choices.toList, i.Assigned c.term.slot → r'.Satisfies (.choice c)) ∧
    (∀ j, i.eval cs = (true, j) → j.WellFormed ∧ j.slots = i.slots ∧
      ∀ r r', Least (Shares cs i) r → Least (Places cs r) r' → j.facts = r'.facts) ∧
    ∀ cs' : ConstraintSet W, cs'.toList.filter i.applies = cs.toList.filter i.applies →
      i.eval cs' = i.eval cs := by
  refine ⟨⟨fun h => ?_, ?_⟩, fun j hj => ?_, fun cs' => eval_congr_applies⟩
  · obtain ⟨j, hj⟩ := exists_eq_true h
    have hev := eval_sound hi hA hj
    obtain ⟨hcons, hempty, -⟩ := (eval_iff hi hfailed hA hne).1 h
    have hle : (i.facts ⊔ cs.sharing i.Assigned).closure ≤
        (i.facts ⊔ cs.facts i.Assigned).closure :=
      Facts.closure_mono (sup_le_sup_left le_sup_left _)
    obtain ⟨r, hrwf, hra, hrfacts, hr⟩ := exists_least_shares hi hA (hcons.mono hle)
    have hj' := eval_least_places hi hA hne hr hj
    refine ⟨r, j, hr, fun c hc hs => ?_, hj', fun c hc hs => ?_⟩
    · have hvalue := satisfies_absolute.1 (hj'.holds.absolute hc (hra ▸ hs))
      refine (hrwf.admits_value_iff (hra ▸ hs)).1 ⟨?_, hrfacts ▸ hempty c hc hs⟩
      exact (hev.wellFormed.consistent_facts.admits hev.wellFormed.closed_facts hvalue).anti
        hj'.holds.refines.subsumed
    · exact (hev.wellFormed.meets_iff (assigned_congr hev.slots ▸ hs)).1 (hev.meets hc hs)
  · rintro ⟨r, r', hr, hvalues, hr', hchoices⟩
    have hra := hr.holds.refines.assigned
    have hempty : ∀ c ∈ cs.absolutes.toList, i.Assigned c.term.slot →
        ¬ (i.facts ⊔ cs.sharing i.Assigned).closure.EmptyAt c.term := by
      intro c hc hs
      rw [← hr.facts_shares hi hA]
      exact ((hr.holds.refines.wellFormed.admits_value_iff (hra ▸ hs)).2 (hvalues c hc hs)).2
    have hfacts := hr.facts_places hi hA hfailed hne hempty hr'
    refine (eval_iff hi hfailed hA hne).2 ⟨?_, hempty, fun c hc hs => ?_⟩
    · exact hfacts ▸ hr'.holds.refines.wellFormed.consistent_facts
    · rw [← hfacts]
      refine (hr'.holds.refines.wellFormed.meets_iff ?_).2 (hchoices c hc hs)
      rw [hr'.holds.refines.assigned, hra]
      exact hs
  · have hev := eval_sound hi hA hj
    exact ⟨hev.wellFormed, hev.slots, fun r r' hr hr' =>
      (eval_least_places hi hA hne hr hj).facts_eq hr'⟩

/-- Two features made one, an atom that is new, and a choice for what is there. -/
def paired : ConstraintSet Float :=
  .ofList [.relative ⟨⟨1, [⟨1⟩]⟩, ⟨1, [⟨2⟩]⟩⟩, .absolute ⟨⟨1, [⟨3⟩]⟩, ⟨2⟩⟩,
    .choice ⟨⟨1, [⟨2⟩]⟩, .singleton ⟨1⟩ 0.5⟩]

theorem eval_decides_paired : (∃ r r', Least (Shares paired (Search.seated 1)) r ∧
      Least (Places paired r) r' ∧ ((Search.seated 1).eval paired).2.facts = r'.facts) ∧
    (Search.seated 1).eval (paired.insert (.absolute ⟨⟨2, [⟨1⟩]⟩, ⟨3⟩⟩)) =
      (Search.seated 1).eval paired := by
  obtain ⟨hwf, hgraded⟩ := Search.seated_spec 1
  have hlevel : ∀ c ∈ paired.relatives.toList, c.lhs.path.length = c.rhs.path.length := by decide
  obtain ⟨hiff, hfacts, happlies⟩ := eval_decides hwf (by decide)
    (hgraded.sup (Search.sharing_graded hlevel)).closure.acyclic (by decide)
  obtain ⟨r, r', hr, -, hr', -⟩ := hiff.1 (by decide)
  exact ⟨⟨r, r', hr, hr', (hfacts _ rfl).2.2 r r' hr hr'⟩, happlies _ rfl⟩

end FeatureLogic.Interpretation
