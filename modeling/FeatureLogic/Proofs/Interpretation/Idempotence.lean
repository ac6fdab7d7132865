import FeatureLogic.Proofs.Interpretation.Deciding
import FeatureLogic.Proofs.Search.Solutions
/-!
Evaluating again. What an interpretation has got from passing it keeps, and a second evaluation only
reads it: nothing is built or merged, at most chains get shorter. The one thing that a pass builds
and then refuses is the empty node for the null atom.
-/
set_option autoImplicit false

namespace FeatureLogic

namespace Arena

variable {g h : Arena} {roots : Roots} {n m l r : NodeId} {p q : Path}

theorem SameView.leads_iff (hv : SameView g h) {t : PathTerm} :
    h.Leads roots t n ↔ g.Leads roots t n := by
  unfold Leads
  simp only [hv.lookup]

theorem SameView.facts (hv : SameView g h) (roots : Roots) : h.facts roots = g.facts roots := by
  unfold Arena.facts
  simp only [hv.leads_iff, hv.content]

/-- Nodes that are one are found to be one. -/
theorem unify_of_resolve_eq (hg : g.Settled) (hl : l < g.size) (he : g.resolve l = g.resolve r) :
    ∃ h, g.unify l r = (true, h) ∧ SameView g h := by
  rcases hdl : g.dechain l with ⟨l', g₁⟩
  rcases hdr : g₁.dechain r with ⟨r', g₂⟩
  obtain ⟨rfl, rfl, hv⟩ := dechain_both hg hdl hdr
  refine ⟨g₂, ?_, hv⟩
  obtain ⟨k, hk⟩ :=
    Nat.exists_eq_succ_of_ne_zero (Nat.ne_of_gt (Nat.lt_of_le_of_lt (Nat.zero_le l) hl))
  rw [unify, hk]
  simp only [unifyWithin, hdl, hdr, he, if_true, Option.getD_some]

theorem equate_of_found (hg : g.Settled) (hm : m < g.size) (hp : g.lookup l p = .found m)
    (hq : g.lookup r q = .found m) : ∃ h, g.equate l p r q = (.ok true, h) ∧ SameView g h := by
  obtain ⟨g₁, hrun₁, hv₁⟩ := materialize_of_found hg hp
  obtain ⟨g₂, hrun₂, hv₂⟩ := materialize_of_found hv₁.settled ((hv₁.lookup r q).trans hq)
  have hv := hv₁.trans hv₂
  obtain ⟨h, hrun, hv'⟩ := unify_of_resolve_eq hv.settled (hv.size ▸ hm) (rfl : g₂.resolve m = _)
  exact ⟨h, by simp only [equate, hrun₁, hrun₂, hrun], hv.trans hv'⟩

end Arena

namespace Interpretation

variable {W : Type} {i j k : Interpretation W}

/-- `j` has the slots of `i`, and reads like `i`. -/
structure Rereads (i j : Interpretation W) : Prop where
  slots : j.slots = i.slots
  view : Arena.SameView i.arena j.arena

namespace Rereads

theorem refl (hi : i.WellFormed) : Rereads i i := ⟨rfl, .refl hi.arena.settled⟩

theorem trans (hij : Rereads i j) (hjk : Rereads j k) : Rereads i k :=
  ⟨hjk.slots.trans hij.slots, hij.view.trans hjk.view⟩

variable (h : Rereads i j)
include h

theorem wellFormed (hi : i.WellFormed) : j.WellFormed where
  arena := h.view.wellFormed hi.arena
  root_lt s n hn := by
    rw [h.view.size]
    exact hi.root_lt s n (h.slots ▸ hn)

theorem facts : j.facts = i.facts := by
  unfold Interpretation.facts
  rw [h.slots, h.view.facts]

theorem weightOf [Weight W] (c : Choice W) : j.weightOf c = i.weightOf c := by
  unfold Interpretation.weightOf
  simp only [h.slots, h.view.lookup, h.view.content]

end Rereads

/-! ## Constraints that hold -/

theorem checkRelative_of_same (hi : i.WellFormed) {c : Relative}
    (hc : i.Assigned c.lhs.slot → i.Assigned c.rhs.slot → i.facts.same c.lhs c.rhs) :
    ∃ j, i.checkRelative c = (true, j) ∧ Rereads i j := by
  by_cases hs : i.Assigned c.lhs.slot ∧ i.Assigned c.rhs.slot
  · obtain ⟨n, hl, hr⟩ := hc hs.1 hs.2
    have hn : n < i.arena.size := hl.lt hi.arena hi.root_lt
    obtain ⟨l, hlslot, hl⟩ := hl
    obtain ⟨r, hrslot, hr⟩ := hr
    obtain ⟨h, hrun, hv⟩ := Arena.equate_of_found hi.arena.settled hn hl hr
    rw [checkRelative_of_roots hlslot hrslot, hrun]
    exact ⟨_, rfl, rfl, hv⟩
  · exact ⟨i, checkRelative_of_unassigned hs, .refl hi⟩

theorem checkAbsolute_of_value {c : Absolute}
    (hc : i.Assigned c.term.slot → i.facts.value c.term c.value) :
    i.checkAbsolute c = (true, i) := by
  by_cases hs : i.Assigned c.term.slot
  · obtain ⟨n, ⟨root, hr, hl⟩, ha⟩ := hc hs
    unfold checkAbsolute
    simp only [hr, hl, ha, decide_true]
  · exact checkAbsolute_of_unassigned hs

variable [Weight W] {cs : ConstraintSet W}

theorem checkRelatives_of_same (rs : List Relative) (hi : i.WellFormed)
    (hrs : ∀ c ∈ rs, i.Assigned c.lhs.slot → i.Assigned c.rhs.slot → i.facts.same c.lhs c.rhs) :
    ∃ j, checkAll (rs.map .relative) i = (true, j) ∧ Rereads i j ∧
      j.probability = i.probability := by
  induction rs generalizing i with
  | nil => exact ⟨i, rfl, .refl hi, rfl⟩
  | cons c rs ih =>
    obtain ⟨hc, hrs⟩ := List.forall_mem_cons.1 hrs
    obtain ⟨k, hk, hik⟩ := checkRelative_of_same hi hc
    obtain ⟨j, hj, hkj, hp⟩ := ih (hik.wellFormed hi) fun c hc => by
      rw [assigned_congr hik.slots, hik.facts]
      exact hrs c hc
    refine ⟨j, (checkAll_cons_eq_true (c := .relative c)).2 ⟨k, hk, hj⟩, hik.trans hkj, ?_⟩
    rw [hp, ← checkRelative_probability i c, hk]

theorem checkAbsolutes_of_values (as : List Absolute)
    (has : ∀ c ∈ as, i.Assigned c.term.slot → i.facts.value c.term c.value) :
    checkAll (as.map .absolute) i = (true, i) := by
  induction as with
  | nil => rfl
  | cons c as ih =>
    obtain ⟨hc, has⟩ := List.forall_mem_cons.1 has
    exact (checkAll_cons_eq_true (c := .absolute c)).2 ⟨i, checkAbsolute_of_value hc, ih has⟩

/-- Where all constraints hold, an evaluation passes and leaves everything as it reads. -/
theorem eval_of_holds (hi : i.WellFormed) (hfailed : i.isFailed = false)
    (hrel : ∀ c ∈ cs.relatives.toList, i.Assigned c.lhs.slot → i.Assigned c.rhs.slot →
      i.facts.same c.lhs c.rhs)
    (habs : ∀ c ∈ cs.absolutes.toList, i.Assigned c.term.slot → i.facts.value c.term c.value)
    (hchoice : ∀ c ∈ cs.choices.toList, i.Assigned c.term.slot → Meets i.facts c) :
    ∃ j, i.eval cs = (true, j) ∧ Rereads i j ∧
      j.probability = (cs.choices.toList.filter fun c => i.slots.contains c.term.slot).foldl
        (fun p c => Weight.times p (i.weightOf c)) Weight.certain := by
  have hi' : i.restart.WellFormed := ⟨hi.arena, hi.root_lt⟩
  obtain ⟨k, hk, hik, hkp⟩ := checkRelatives_of_same cs.relatives.toList hi' hrel
  have hassigned : k.Assigned = i.Assigned := assigned_congr hik.slots
  have hfacts : k.facts = i.facts := hik.facts
  have hl := checkAbsolutes_of_values (i := k) cs.absolutes.toList (by rwa [hassigned, hfacts])
  obtain ⟨hstep, hiff⟩ := checkChoices_spec cs.choices.toList (hik.wellFormed hi')
  obtain ⟨j, hj⟩ := exists_eq_true (hiff.2 (by rwa [hassigned, hfacts]))
  obtain ⟨ha, hs, hp⟩ := hstep j hj
  refine ⟨j, eval_eq_true.2 ⟨hfailed, k, k, hk, hl, hj⟩, ⟨hs.trans hik.slots, ha ▸ hik.view⟩, ?_⟩
  rw [hp, hkp, hik.slots]
  simp only [hik.weightOf]
  rfl

/-! ## The null atom -/

omit [Weight W] in
/-- No node holds the null atom, so one that is there is refused. -/
theorem Sound.checkAbsolute_null (hi : i.Sound fun _ => False) {c : Absolute}
    (hnull : c.value = .null) (hc : i.facts.Has c.term) : (i.checkAbsolute c).1 = false := by
  obtain ⟨n, ⟨root, hr, hl⟩, -⟩ := hc
  have hne : i.arena.content n ≠ .atom c.value := by
    rw [hnull]
    exact fun ha => (hi.arena.allowed n).given (.inr ha)
  unfold checkAbsolute
  simp only [hr, hl, decide_eq_false hne]

theorem Sound.checkAbsolutes_null (hi : i.Sound fun _ => False) {as : List Absolute} {c : Absolute}
    (hmem : c ∈ as) (hnull : c.value = .null) (hc : i.facts.Has c.term) :
    (checkAll (as.map .absolute) i).1 = false := by
  refine Bool.eq_false_iff.2 fun htrue => ?_
  obtain ⟨j, hj⟩ := exists_eq_true htrue
  obtain ⟨first, rest, rfl⟩ := List.append_of_mem hmem
  rw [List.map_append, List.map_cons] at hj
  obtain ⟨k, hk, hj⟩ := checkAll_append_eq_true.1 hj
  obtain ⟨k', hk', -⟩ := checkAll_cons_eq_true.1 hj
  have hksound : k.Sound fun _ => False := by
    have hproceeds := Proceeds.checkAll hi (first.map (Constraint.absolute (W := W)))
    rw [hk] at hproceeds
    exact hproceeds.sound
  -- what the first ones add takes nothing away
  have hle := Facts.le_closure (i.facts ⊔ Facts.all (first.map (·.factsOn i.Assigned)))
  obtain ⟨hik, -⟩ := checkAbsolutes_spec (Facts.closed_closure _) first (hi.wellFormed id)
    (le_sup_left.trans hle) (le_sup_right.trans hle) hk
  have hfalse := hksound.checkAbsolute_null hnull (hik.facts_le.1 _ _ hc)
  change k.checkAbsolute c = (true, k') at hk'
  rw [hk'] at hfalse
  cases hfalse

/-! ## Evaluating again -/

/-- After a pass every path that is to be one is, and every value that is not null is there. -/
theorem Evaluates.holds (h : Evaluates cs i j) :
    (∀ c ∈ cs.relatives.toList, j.Assigned c.lhs.slot → j.Assigned c.rhs.slot →
      j.facts.same c.lhs c.rhs) ∧
    ∀ c ∈ cs.absolutes.toList, j.Assigned c.term.slot →
      j.facts.Has c.term ∧ (c.value ≠ .null → j.facts.value c.term c.value) := by
  have hle : i.facts ⊔ cs.facts i.Assigned ≤ j.facts := h.facts ▸ Facts.le_closure _
  have hsharing := le_sup_left.trans (le_sup_right.trans hle)
  have hplacing := le_sup_right.trans (le_sup_right.trans hle)
  rw [assigned_congr h.slots]
  exact ⟨fun c hc => Relative.factsOn_le.1 (Facts.all_le.1 hsharing _ (List.mem_map_of_mem hc)),
    fun c hc => Absolute.factsOn_le.1 (Facts.all_le.1 hplacing _ (List.mem_map_of_mem hc))⟩

/-- An interpretation that passed passes again, with the same probability and nothing moved, unless
the null atom is asked for in one of its slots; then it is rejected. -/
theorem eval_again (hi : i.Sound fun _ => False)
    (hA : (i.facts ⊔ cs.sharing i.Assigned).closure.Acyclic) (hrun : i.eval cs = (true, j)) :
    ((∀ c ∈ cs.absolutes.toList, i.Assigned c.term.slot → c.value ≠ .null) →
      ∃ k, j.eval cs = (true, k) ∧ k.probability = j.probability ∧ k.slots = j.slots ∧
        k.facts = j.facts ∧ Arena.SameView j.arena k.arena) ∧
    ((∃ c ∈ cs.absolutes.toList, i.Assigned c.term.slot ∧ c.value = .null) →
      (j.eval cs).1 = false) := by
  have hev := eval_sound (hi.wellFormed id) hA hrun
  have hassigned := assigned_congr hev.slots
  have hfailed : j.isFailed = false := by
    rw [isFailed, hev.slots]
    exact (eval_eq_true.1 hrun).1
  obtain ⟨hrel, habs⟩ := hev.holds
  constructor
  · intro hne
    obtain ⟨k, hk, hjk, hp⟩ := eval_of_holds hev.wellFormed hfailed hrel
      (fun c hc hs => (habs c hc hs).2 (hne c hc (hassigned ▸ hs)))
      fun c hc hs => hev.meets hc (hassigned ▸ hs)
    refine ⟨k, hk, ?_, hjk.slots, hjk.facts, hjk.view⟩
    rw [hp, hev.probability, hev.slots]
  · rintro ⟨c, hc, hs, hnull⟩
    refine Bool.eq_false_iff.2 fun htrue => ?_
    obtain ⟨k, hk⟩ := exists_eq_true htrue
    obtain ⟨-, l, m, hl, hm, -⟩ := eval_eq_true.1 hk
    have hj' : j.restart.WellFormed := ⟨hev.wellFormed.arena, hev.wellFormed.root_lt⟩
    obtain ⟨l', hl', hjl, -⟩ := checkRelatives_of_same cs.relatives.toList hj' hrel
    cases hl.symm.trans hl'
    have hlsound : l.Sound fun _ => False := by
      have hj := (Proceeds.eval hi cs).sound
      rw [hrun] at hj
      have hproceeds := Proceeds.checkAll (i := j.restart) ⟨hj.arena, hj.root_lt⟩
        (cs.relatives.toList.map (Constraint.relative (W := W)))
      rw [hl] at hproceeds
      exact hproceeds.sound
    have hhas : l.facts.Has c.term := by
      rw [hjl.facts]
      exact (habs c hc (hassigned ▸ hs)).1
    have hfalse := hlsound.checkAbsolutes_null hc hnull hhas
    rw [hm] at hfalse
    cases hfalse

theorem sound_seated (slot : SlotIndex) : (Search.seated slot).Sound fun _ => False :=
  sound_ofStructure ((FeatureStructure.sound_atomic .null).createValue [⟨1⟩] ⟨1⟩).arena slot

/-- The null atom, at a path that is new. -/
def hollow : ConstraintSet Float := .ofList [.absolute ⟨⟨1, [⟨2⟩]⟩, .null⟩]

theorem hollow_acyclic :
    ((Search.seated 1).facts ⊔ hollow.sharing (Search.seated 1).Assigned).closure.Acyclic :=
  ((Search.seated_spec 1).2.sup (Search.sharing_graded (by decide))).closure.acyclic

theorem eval_again_seated :
    (∃ k, ((Search.seated 1).eval paired).2.eval paired = (true, k) ∧
      k.facts = ((Search.seated 1).eval paired).2.facts) ∧
    (((Search.seated 1).eval hollow).2.eval hollow).1 = false := by
  have hlevel : ∀ c ∈ paired.relatives.toList, c.lhs.path.length = c.rhs.path.length := by decide
  have hpass : (Search.seated 1).eval paired = (true, ((Search.seated 1).eval paired).2) :=
    Prod.ext (by decide) rfl
  have hpass' : (Search.seated 1).eval hollow = (true, ((Search.seated 1).eval hollow).2) :=
    Prod.ext (by decide) rfl
  obtain ⟨hagain, -⟩ := eval_again (sound_seated 1)
    ((Search.seated_spec 1).2.sup (Search.sharing_graded hlevel)).closure.acyclic hpass
  obtain ⟨-, hnull⟩ := eval_again (sound_seated 1) hollow_acyclic hpass'
  obtain ⟨k, hk, -, -, hfacts, -⟩ := hagain fun c hc _ =>
    (by decide : ∀ c ∈ paired.absolutes.toList, c.value ≠ .null) c hc
  exact ⟨⟨k, hk, hfacts⟩, hnull ⟨⟨⟨1, [⟨2⟩]⟩, .null⟩, List.mem_singleton_self _,
    contains_iff.1 (by decide), rfl⟩⟩

/-- A pass builds the empty node for the null atom, the next one refuses it. -/
theorem eval_hollow_rejected : (Search.seated 1).Sound (fun _ => False) ∧
    ((Search.seated 1).facts ⊔ hollow.sharing (Search.seated 1).Assigned).closure.Acyclic ∧
    ((Search.seated 1).eval hollow).1 = true ∧
    (((Search.seated 1).eval hollow).2.eval hollow).1 = false :=
  ⟨sound_seated 1, hollow_acyclic, by decide, by decide⟩

end Interpretation

end FeatureLogic
