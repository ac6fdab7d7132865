import FeatureLogic.Proofs.Search.Merges
/-!
The quick check leaves no mark on a search but in its log: with it and without it the same
candidates survive, in the same order, as the same interpretations.
-/
set_option autoImplicit false

namespace FeatureLogic

/-- The event without what tells of the quick check. -/
def SearchEvent.plain : SearchEvent → SearchEvent
  | start previous columns constraints _ => start previous columns constraints false
  | quickCheckRejected slot candidate => evalRejected slot candidate
  | event => event

/-- Outcomes that only the log of the quick check tells apart. -/
structure SearchOutcome.Agrees {W : Type} (o o' : SearchOutcome W) : Prop where
  results : o.results = o'.results
  found : o.found = o'.found
  events : o.events.map SearchEvent.plain = o'.events.map SearchEvent.plain

namespace Search
open Interpretation

namespace Attempt
variable {W : Type}

def plain : Attempt W → Attempt W
  | quickCheckRejected k => evalRejected k
  | attempt => attempt

theorem survivor?_plain (a : Attempt W) : a.plain.survivor? = a.survivor? := by
  cases a <;> rfl

theorem event?_plain (slot : SlotIndex) (a : Attempt W) :
    (a.plain.event? slot).map SearchEvent.plain = (a.event? slot).map SearchEvent.plain := by
  cases a <;> rfl

theorem survivors_congr {tried tried' : List (Attempt W)} (h : tried.map plain = tried'.map plain) :
    tried.filterMap survivor? = tried'.filterMap survivor? := by
  have hplain : ∀ as : List (Attempt W), as.filterMap survivor? =
      (as.map plain).filterMap survivor? := by
    intro as
    rw [List.filterMap_map]
    exact congrArg (as.filterMap ·) (funext fun a => (survivor?_plain a).symm)
  rw [hplain, h, ← hplain]

theorem events_congr (slot : SlotIndex) {tried tried' : List (Attempt W)}
    (h : tried.map plain = tried'.map plain) :
    (tried.filterMap (event? slot)).map SearchEvent.plain =
      (tried'.filterMap (event? slot)).map SearchEvent.plain := by
  have hplain : ∀ as : List (Attempt W), (as.filterMap (event? slot)).map SearchEvent.plain =
      ((as.map plain).filterMap (event? slot)).map SearchEvent.plain := by
    intro as
    rw [List.map_filterMap, List.map_filterMap, List.filterMap_map]
    exact congrArg (as.filterMap ·) (funext fun a => (event?_plain slot a).symm)
  rw [hplain, h, ← hplain]

end Attempt

variable {W : Type} [Weight W] {cs : ConstraintSet W} {columns : List (SlotIndex × OptionColumn)}
  {slot : SlotIndex} {column : OptionColumn} {generation : List (Interpretation W)}
  {i j : Interpretation W} {s : FeatureStructure} {settings settings' : SearchSettings}

/-- Interpretations from which a search through the columns makes no cycle. -/
def Ready (cs : ConstraintSet W) (columns : List (SlotIndex × OptionColumn))
    (generation : List (Interpretation W)) : Prop :=
  ∀ i ∈ generation, i.WellFormed ∧ AcyclicMerges cs columns i.facts i.Assigned

/-- Whether the quick check turns the candidate down. -/
def foreseen (settings : SearchSettings) (cs : ConstraintSet W) (e : Extension W) : Bool :=
  settings.quickCheck && !e.quickCheck cs

/-- A candidate is turned down by the quick check, or survives, or fails its evaluation. -/
theorem attempt_cases (settings : SearchSettings) (cs : ConstraintSet W) (slot : SlotIndex)
    (s : FeatureStructure) (k : Nat) (i : Interpretation W) :
    foreseen settings cs ⟨i, slot, s⟩ = true ∧
      attempt settings cs slot s k i = .quickCheckRejected k ∨
    foreseen settings cs ⟨i, slot, s⟩ = false ∧
      (∃ j, (Extension.merge ⟨i, slot, s⟩).eval cs = (true, j) ∧
        attempt settings cs slot s k i = .survived j) ∨
    foreseen settings cs ⟨i, slot, s⟩ = false ∧
      (∃ j, (Extension.merge ⟨i, slot, s⟩).eval cs = (false, j)) ∧
      attempt settings cs slot s k i = .evalRejected k := by
  unfold attempt
  dsimp only
  cases hq : settings.quickCheck && !Extension.quickCheck ⟨i, slot, s⟩ cs with
  | true => exact .inl ⟨hq, if_pos rfl⟩
  | false =>
    rw [if_neg Bool.false_ne_true]
    rcases (Extension.merge ⟨i, slot, s⟩).eval cs with ⟨_ | _, j⟩
    · exact .inr (.inr ⟨hq, ⟨j, rfl⟩, rfl⟩)
    · exact .inr (.inl ⟨hq, j, rfl, rfl⟩)

theorem attempt_of_quickCheck (number : Nat)
    (h : (Extension.quickCheck ⟨i, slot, s⟩ cs) = false →
      ((Extension.merge ⟨i, slot, s⟩).eval cs).1 = false) :
    (attempt settings cs slot s number i).plain =
      match (Extension.merge ⟨i, slot, s⟩).eval cs with
      | (true, j) => .survived j
      | (false, _) => .evalRejected number := by
  rcases attempt_cases settings cs slot s number i with
    ⟨hq, ha⟩ | ⟨-, j, hj, ha⟩ | ⟨-, ⟨j, hj⟩, ha⟩
  · obtain ⟨-, hq⟩ := Bool.and_eq_true_iff.1 hq
    have hfail := h (Bool.not_eq_eq_eq_not.1 hq)
    rcases hrun : (Extension.merge ⟨i, slot, s⟩).eval cs with ⟨b, j⟩
    rw [hrun] at hfail
    cases hfail
    rw [ha]
    rfl
  · rw [ha, hj]
    rfl
  · rw [ha, hj]
    rfl

theorem attempts_plain (settings settings' : SearchSettings)
    (hc : Candidates ((slot, column) :: columns))
    (hg : Ready cs ((slot, column) :: columns) generation) :
    (attempts settings cs slot column generation).map Attempt.plain =
      (attempts settings' cs slot column generation).map Attempt.plain := by
  have hattempt : ∀ settings, (attempts settings cs slot column generation).map Attempt.plain =
      column.zipIdx.flatMap fun e => generation.map fun i =>
        match (Extension.merge ⟨i, slot, e.1⟩).eval cs with
        | (true, j) => .survived j
        | (false, _) => .evalRejected e.2 := by
    intro settings
    unfold attempts
    rw [List.map_flatMap]
    refine List.flatMap_congr fun e he => ?_
    rw [List.map_map]
    refine List.map_congr_left fun i hi => attempt_of_quickCheck e.2 fun hq => ?_
    have hs : e.1 ∈ column := List.fst_mem_of_mem_zipIdx he
    by_contra hpass
    have htrue := Extension.quickCheck_eq_true (e := ⟨i, slot, e.1⟩) (hg i hi).1 (hc.head hs)
      ((hg i hi).2.head hs) (Bool.eq_true_of_not_eq_false hpass)
    rw [hq] at htrue
    cases htrue
  rw [hattempt, hattempt]

theorem mem_survivors (settings : SearchSettings)
    (h : j ∈ (attempts settings cs slot column generation).filterMap Attempt.survivor?) :
    ∃ s ∈ column, ∃ i ∈ generation,
      (Extension.merge ⟨i, slot, s⟩).eval cs = (true, j) := by
  obtain ⟨a, ha, hj⟩ := List.mem_filterMap.1 h
  obtain ⟨⟨s, number⟩, hs, ha⟩ := List.mem_flatMap.1 ha
  obtain ⟨i, hi, rfl⟩ := List.mem_map.1 ha
  refine ⟨s, List.fst_mem_of_mem_zipIdx hs, i, hi, ?_⟩
  rcases attempt_cases settings cs slot s number i with
    ⟨-, ha⟩ | ⟨-, k, hk, ha⟩ | ⟨-, -, ha⟩ <;> rw [ha] at hj <;> cases hj
  exact hk

theorem Ready.next (hc : Candidates ((slot, column) :: columns))
    (hg : Ready cs ((slot, column) :: columns) generation) (settings : SearchSettings) :
    Ready cs columns ((attempts settings cs slot column generation).filterMap
      Attempt.survivor?) := by
  intro j hj
  obtain ⟨s, hs, i, hi, hrun⟩ := mem_survivors settings hj
  obtain ⟨-, hev, hA⟩ := (hg i hi).2.extend (hg i hi).1 (hc.head hs) hs hrun
  exact ⟨hev.wellFormed, hA⟩

theorem run_agrees (settings settings' : SearchSettings)
    (hc : Candidates columns) (hg : Ready cs columns generation) :
    (run settings cs columns generation).Agrees (run settings' cs columns generation) := by
  have key : (run settings cs columns generation).results =
      (run settings' cs columns generation).results ∧
      (run settings cs columns generation).events.map SearchEvent.plain =
        (run settings' cs columns generation).events.map SearchEvent.plain := by
    induction columns generalizing generation with
    | nil => exact ⟨rfl, rfl⟩
    | cons entry columns ih =>
      obtain ⟨slot, column⟩ := entry
      rw [run, run]
      split
      · exact ⟨rfl, rfl⟩
      · have hplain := attempts_plain settings settings' hc hg
        have hsame := Attempt.survivors_congr hplain
        obtain ⟨hres, hev⟩ := ih hc.tail (hg.next hc settings)
        dsimp only
        simp only [List.map_append, List.map_cons]
        rw [Attempt.events_congr slot hplain, ← hsame]
        exact ⟨hres, congrArg (_ ++ _ :: ·) hev⟩
  refine ⟨key.1, ?_, key.2⟩
  unfold SearchOutcome.found
  rw [key.1]

theorem mem_seeds : j ∈ seeds cs slot column ↔
    ∃ s ∈ column, (ofStructure slot s : Interpretation W).eval cs = (true, j) := by
  unfold seeds
  rw [List.mem_filterMap]
  refine exists_congr fun s => and_congr_right fun _ => ?_
  rcases (ofStructure slot s : Interpretation W).eval cs with ⟨_ | _, k⟩ <;> simp

theorem Ready.seeds (hc : Candidates ((slot, column) :: columns))
    (hA : AcyclicMerges cs ((slot, column) :: columns) ⊥ fun _ => False) :
    Ready cs columns (seeds cs slot column) := by
  intro j hj
  obtain ⟨s, hs, hrun⟩ := mem_seeds.1 hj
  obtain ⟨hev, hA⟩ := hA.seed (hc.head hs) hs hrun
  exact ⟨hev.wellFormed, hA⟩

variable {t : OptionTable} {previous : List (Interpretation W)}

theorem eval_agrees (settings settings' : SearchSettings)
    (hc : Candidates t.entries)
    (hA : AcyclicMerges cs t.entries ⊥ fun _ => False) :
    (eval settings t cs).Agrees (eval settings' t cs) := by
  unfold eval
  dsimp only
  cases cs.slots.find? fun i => !t.contains i with
  | some i => exact ⟨rfl, rfl, rfl⟩
  | none =>
    cases ht : t.entries with
    | nil => exact ⟨rfl, rfl, rfl⟩
    | cons entry columns =>
      rw [ht] at hc hA
      obtain ⟨hres, hfound, hev⟩ := run_agrees settings settings'
        hc.tail (Ready.seeds hc hA)
      exact ⟨hres, hfound, congrArg (_ :: _ :: ·) hev⟩

theorem resume_agrees (settings settings' : SearchSettings)
    (hc : Candidates t.entries) (hg : Ready cs t.entries previous) :
    (resume settings previous t cs).Agrees (resume settings' previous t cs) := by
  unfold resume
  dsimp only
  cases cs.slots.find? fun i => !(t.contains i || previous.all (·.slots.contains i)) with
  | some i => exact ⟨rfl, rfl, rfl⟩
  | none =>
    obtain ⟨hres, hfound, hev⟩ := run_agrees settings settings' hc hg
    exact ⟨hres, hfound, congrArg (_ :: ·) hev⟩

/-- The quick check changes no outcome of a search, and rejects no extension that would pass. -/
theorem quickCheck_neutral (cs : ConstraintSet W) :
    (∀ t : OptionTable, Candidates t.entries →
      AcyclicMerges cs t.entries ⊥ (fun _ => False) →
      (eval ⟨true⟩ t cs).Agrees (eval ⟨false⟩ t cs)) ∧
    (∀ (previous : List (Interpretation W)) (t : OptionTable), Candidates t.entries →
      Ready cs t.entries previous →
      (resume ⟨true⟩ previous t cs).Agrees (resume ⟨false⟩ previous t cs)) ∧
    ∀ e : Extension W, e.base.WellFormed → e.candidate.WellFormed →
      (e.base.facts ⊔ e.candidate.factsAt e.slot ⊔ cs.sharing e.Assigned).closure.Acyclic →
      e.quickCheck cs = false → (e.merge.eval cs).1 = false := by
  refine ⟨fun t => eval_agrees _ _, fun previous t => resume_agrees _ _, ?_⟩
  intro e hb hs hA hq
  by_contra hpass
  have htrue := Extension.quickCheck_eq_true hb hs hA (Bool.eq_true_of_not_eq_false hpass)
  rw [hq] at htrue
  cases htrue

/-- One leaf in one slot. -/
def seated (slot : SlotIndex) : Interpretation Float := ofStructure slot (.single [⟨1⟩] ⟨1⟩)

theorem seated_spec (slot : SlotIndex) : (seated slot).WellFormed ∧ (seated slot).facts.Graded := by
  have hp : ([⟨1⟩] : Path) ≠ [] := by decide
  have hgraded := FeatureStructure.single_graded hp ⟨1⟩ slot
  obtain ⟨hi, -, hfacts⟩ := ofStructure_spec (W := Float)
    (FeatureStructure.single_spec hp ⟨1⟩).1 hgraded.acyclic
  exact ⟨hi, hfacts ▸ hgraded⟩

/-- A candidate that disagrees with the slot it is to agree with. -/
def disagreeing : Extension Float := ⟨seated 1, 2, .single [⟨1⟩] ⟨2⟩⟩

theorem quickCheck_neutral_agreement :
    (eval ⟨true⟩ agreementTable agreement).Agrees (eval ⟨false⟩ agreementTable agreement) ∧
      (resume ⟨true⟩ [seated 3] agreementTable agreement).Agrees
        (resume ⟨false⟩ [seated 3] agreementTable agreement) ∧
      disagreeing.quickCheck agreement = false ∧
      (disagreeing.merge.eval agreement).1 = false := by
  obtain ⟨heval, hresume, hextension⟩ := quickCheck_neutral agreement
  have ht := agreementTable_singles
  have hp : ([⟨1⟩] : Path) ≠ [] := by decide
  refine ⟨heval _ ht.candidates (ht.acyclicMerges (fun _ _ => False.elim) agreement_level),
    hresume _ _ ht.candidates ?_, by decide, hextension _ (seated_spec 1).1
      (FeatureStructure.single_spec hp _).1 ?_ (by decide)⟩
  · intro i hi
    cases List.mem_singleton.1 hi
    exact ⟨(seated_spec 3).1, ht.acyclicMerges (seated_spec 3).2 agreement_level⟩
  · exact (((seated_spec 1).2.sup (FeatureStructure.single_graded hp _ _)).sup
      (sharing_graded agreement_level)).closure.acyclic

end Search

end FeatureLogic
